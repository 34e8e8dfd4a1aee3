import VoteCounting.Server.Listing

namespace VoteCounting.Server

open CString

/-- A region and the children its line gives it. -/
structure RegionLine where
  head : CStr
  kids : List CStr
deriving DecidableEq, Repr

def RegionLine.text (line : RegionLine) : CStr := line.head ++ line.kids.flatMap (':' :: ·)

/-- The last line may end without a newline. -/
def fileText (newline : Bool) : List RegionLine → CStr
  | [] => []
  | [line] => line.text ++ if newline then ['\n'] else []
  | line :: rest => line.text ++ '\n' :: fileText newline rest

/-- The names of a file in the order of their declaration: the root, then the children. -/
def declared : List RegionLine → List CStr
  | [] => []
  | root :: rest => root.head :: (root :: rest).flatMap RegionLine.kids

def kidsOf (lines : List RegionLine) (name : CStr) : List CStr :=
  ((lines.find? fun line => line.head = name).map RegionLine.kids).getD []

/-- Regions by name, each with the positions of its children. -/
def tableOf (names : List CStr) (kids : CStr → List CStr) : Table :=
  { nodes := names.map fun name => { create name with children := (kids name).map (names.idxOf ·) } }

/-- The region list and the children arrays a file stands for. -/
def regionTable (lines : List RegionLine) : Table := tableOf (declared lines) (kidsOf lines)

structure ProperName (name : CStr) : Prop where
  nonempty : name ≠ []
  noColon : ':' ∉ name
  noNewline : '\n' ∉ name

/-- No line is blank or a comment, each gives a child, names are declared once and before the
line they head, and no name but the root's heads the first line or a second one. -/
structure ProperFile (root : RegionLine) (rest : List RegionLine) : Prop where
  names : ∀ name ∈ declared (root :: rest), ProperName name
  distinct : (declared (root :: rest)).Nodup
  kids : ∀ line ∈ root :: rest, line.kids ≠ []
  data : ∀ line ∈ root :: rest, line.head.head? ≠ some '#'
  earlier : ∀ before line after, rest = before ++ line :: after →
    line.head ∈ (root :: before).flatMap RegionLine.kids
  once : ((root :: rest).map RegionLine.head).Nodup

section RegionFile

variable {names fresh words : List CStr} {kids : CStr → List CStr} {name head ending : CStr}
  {line root : RegionLine} {before rest lines : List RegionLine} {newline : Bool}

/-- The tokens of a list of children, the last one with the end of its line. -/
theorem makeargv_kids (proper : ∀ name ∈ names, ProperName name) (nonempty : names ≠ [])
    (ended : ending = [] ∨ ending = ['\n']) :
    (makeargv (names.flatMap (':' :: ·) ++ ending) ':').map trimlastenter = names := by
  have skip : ∀ text : CStr, makeargv (':' :: text) ':' = makeargv text ':' := fun text => by
    rw [makeargv, ← List.nil_append (':' :: text), tokens_append_delim, tokens_nil,
      List.nil_append, makeargv]
  induction names with
  | nil => exact absurd rfl nonempty
  | cons name names ih =>
      have first := proper name List.mem_cons_self
      rw [List.flatMap_cons, List.cons_append, List.cons_append, skip]
      cases names with
      | nil =>
          have free : ':' ∉ name ++ ending := by
            rcases ended with rfl | rfl <;> simp [first.noColon]
          rw [List.flatMap_nil, List.append_nil, makeargv, tokens_word free (by simp [first.nonempty])]
          rcases ended with rfl | rfl
          · simp [trimlastenter_of_free first.noNewline]
          · simp [trimlastenter_line]
      | cons next names =>
          have later := ih (fun name member => proper name (List.mem_cons_of_mem _ member)) (by simp)
          rw [List.flatMap_cons, List.cons_append, List.cons_append, skip] at later
          rw [List.flatMap_cons, List.cons_append, List.append_assoc, List.cons_append, makeargv,
            tokens_word_delim first.noColon first.nonempty, ← makeargv, List.map_cons, later,
            trimlastenter_of_free first.noNewline]

/-- A line reads as its region and, without the newline, its children. -/
theorem RegionLine.tokens (headProper : ProperName line.head)
    (proper : ∀ name ∈ line.kids, ProperName name) (nonempty : line.kids ≠ [])
    (ended : ending = [] ∨ ending = ['\n']) :
    ∃ tokens, makeargv (line.text ++ ending) ':' = line.head :: tokens ∧
      tokens.map trimlastenter = line.kids := by
  have kids := makeargv_kids proper nonempty ended
  obtain ⟨name, names, whole⟩ := List.exists_cons_of_ne_nil nonempty
  rw [whole, List.flatMap_cons, List.cons_append, List.cons_append] at kids
  refine ⟨makeargv (name ++ names.flatMap (':' :: ·) ++ ending) ':', ?_, ?_⟩
  · rw [RegionLine.text, whole, List.flatMap_cons, List.cons_append, List.append_assoc,
      List.cons_append, makeargv, tokens_word_delim headProper.noColon headProper.nonempty, ← makeargv]
  · rw [whole, ← kids]
    rw [makeargv, makeargv, ← List.nil_append (':' :: _), tokens_append_delim, tokens_nil,
      List.nil_append]

theorem idxOf_fresh (distinct : (names ++ fresh).Nodup) :
    fresh.map ((names ++ fresh).idxOf ·) = List.range' names.length fresh.length := by
  induction fresh generalizing names with
  | nil => rfl
  | cons name fresh ih =>
      have absent : name ∉ names := fun member =>
        (List.nodup_append.mp distinct).2.2 _ member _ List.mem_cons_self rfl
      have shifted : names ++ name :: fresh = (names ++ [name]) ++ fresh := by simp
      have later := ih (shifted ▸ distinct)
      rw [List.length_append, List.length_singleton, ← shifted] at later
      rw [List.map_cons, later, List.idxOf_append_of_notMem absent, List.idxOf_cons_self, Nat.add_zero,
        List.length_cons, List.range'_succ]

theorem map_modify_idxOf {f : CStr → Node} {change : Node → Node} (distinct : names.Nodup)
    (member : head ∈ names) : (names.map f).modify (names.idxOf head) change =
      names.map fun name => if name = head then change (f name) else f name := by
  induction names with
  | nil => cases member
  | cons name names ih =>
      obtain ⟨absent, distinct⟩ := List.nodup_cons.mp distinct
      by_cases same : name = head
      · subst same
        rw [List.idxOf_cons_self, List.map_cons, List.modify_zero_cons, List.map_cons, if_pos rfl]
        congr 1
        refine List.map_congr_left fun other later => ?_
        have different : other ≠ name := fun equal => absent (equal ▸ later)
        rw [if_neg different]
      · have later := ih distinct ((List.mem_cons.mp member).resolve_left (Ne.symm same))
        rw [List.idxOf_cons_ne _ same, List.map_cons, List.modify_succ_cons, later, List.map_cons,
          if_neg same]

@[simp] theorem tableOf_size : (tableOf names kids).size = names.length := by
  simp [tableOf, Table.size]

/-- One line makes its new names the children of its region. -/
theorem addLine_tableOf (distinct : (names ++ fresh).Nodup) (member : head ∈ names)
    (inside : ∀ name ∈ names, ∀ kid ∈ kids name, kid ∈ names)
    (childless : ∀ name ∈ fresh, kids name = []) (trimmed : words.map trimlastenter = fresh) :
    addLine (tableOf names kids) (names.idxOf head) words =
      tableOf (names ++ fresh) (Function.update kids head fresh) := by
  have parts := List.nodup_append.mp distinct
  have count : words.length = fresh.length := by rw [← trimmed, List.length_map]
  have old : names.map (fun name => { create name with
        children := (Function.update kids head fresh name).map ((names ++ fresh).idxOf ·) }) =
      names.map fun name => if name = head then
        { create name with children := List.range' names.length fresh.length }
        else { create name with children := (kids name).map (names.idxOf ·) } := by
    refine List.map_congr_left fun name held => ?_
    by_cases same : name = head
    · subst same
      rw [if_pos rfl, Function.update_self, idxOf_fresh distinct]
    · have positions : (kids name).map ((names ++ fresh).idxOf ·) = (kids name).map (names.idxOf ·) :=
        List.map_congr_left fun kid later => List.idxOf_append_of_mem (inside name held kid later)
      rw [if_neg same, Function.update_of_ne same, positions]
  have new : fresh.map (fun name => { create name with
        children := (Function.update kids head fresh name).map ((names ++ fresh).idxOf ·) }) =
      fresh.map create := by
    refine List.map_congr_left fun name held => ?_
    have different : name ≠ head := fun same => parts.2.2 _ member _ held same.symm
    rw [Function.update_of_ne different, childless name held]
    rfl
  have created : words.map (fun name => create (trimlastenter name)) = fresh.map create := by
    rw [← trimmed, List.map_map]
    rfl
  rw [addLine, tableOf_size, count, created]
  simp only [tableOf, Table.modify, List.map_append, old, new, map_modify_idxOf parts.1 member]

theorem mem_of_kidsOf {kid : CStr} (member : kid ∈ kidsOf lines name) :
    kid ∈ lines.flatMap RegionLine.kids := by
  rw [kidsOf] at member
  cases found : lines.find? fun line => line.head = name with
  | none => simp [found] at member
  | some line =>
      simp only [found, Option.map_some, Option.getD_some] at member
      exact List.mem_flatMap.mpr ⟨line, List.mem_of_find?_eq_some found, member⟩

theorem kidsOf_eq_nil (absent : name ∉ lines.map RegionLine.head) : kidsOf lines name = [] := by
  have missed : lines.find? (fun line => line.head = name) = none := by
    rw [List.find?_eq_none]
    intro line member same
    exact absent (List.mem_map.mpr ⟨line, member, by simpa using same⟩)
  rw [kidsOf, missed]
  rfl

theorem kidsOf_append (absent : line.head ∉ lines.map RegionLine.head) :
    kidsOf (lines ++ [line]) = Function.update (kidsOf lines) line.head line.kids := by
  funext name
  by_cases same : name = line.head
  · subst same
    have missed := kidsOf_eq_nil absent
    have none : lines.find? (fun other => other.head = line.head) = none := by
      rw [List.find?_eq_none]
      intro other member equal
      exact absent (List.mem_map.mpr ⟨other, member, by simpa using equal⟩)
    rw [Function.update_self, kidsOf, List.find?_append, none]
    simp
  · have other : ¬ line.head = name := fun equal => same equal.symm
    rw [Function.update_of_ne same, kidsOf, List.find?_append, kidsOf]
    simp [other]

theorem head_of_text (headProper : ProperName line.head) :
    (line.text ++ ending).head? = line.head.head? := by
  obtain ⟨c, name, whole⟩ := List.exists_cons_of_ne_nil headProper.nonempty
  rw [RegionLine.text, whole]
  rfl

/-- A later line finds its region behind the root. -/
theorem findIdx_tail {known : List CStr} (member : head ∈ known) :
    ((tableOf (name :: known) kids).nodes.tail.findIdx? fun node => node.name == head) =
      some (known.idxOf head) := by
  simp only [tableOf, List.map_cons, List.tail_cons, List.findIdx?_map]
  exact List.findIdx?_eq_some_of_exists ⟨head, member, by simp [create]⟩

theorem readLine_root (proper : ProperFile root rest) (ended : ending = [] ∨ ending = ['\n']) :
    readLine 0 { nodes := [{}] } (root.text ++ ending) = some (regionTable [root]) := by
  have headMember : root.head ∈ declared (root :: rest) := List.mem_cons_self
  have kidMember : ∀ kid ∈ root.kids, kid ∈ declared (root :: rest) := fun kid member =>
    List.mem_cons_of_mem _ (List.mem_flatMap.mpr ⟨root, List.mem_cons_self, member⟩)
  have headProper := proper.names _ headMember
  obtain ⟨words, tokens, trimmed⟩ := RegionLine.tokens headProper
    (fun kid member => proper.names kid (kidMember kid member))
    (proper.kids root List.mem_cons_self) ended
  have data : (root.text ++ ending).head? ≠ some '#' := by
    rw [head_of_text headProper]
    exact proper.data root List.mem_cons_self
  have alone : Table.modify { nodes := [{}] } 0 (fun node => { node with name := root.head }) =
      tableOf [root.head] fun _ => [] := rfl
  have distinct : ([root.head] ++ root.kids).Nodup := by
    have whole := proper.distinct
    rw [declared, List.flatMap_cons, ← List.cons_append] at whole
    exact (List.nodup_append.mp whole).1
  have position : [root.head].idxOf root.head = 0 := List.idxOf_cons_self
  have built := addLine_tableOf distinct (List.mem_singleton_self root.head)
    (fun _ _ _ none => by cases none) (fun _ _ => rfl) trimmed
  rw [position] at built
  rw [readLine, if_neg data, tokens]
  simp only [if_true, alone, built, Option.some.injEq]
  have absent : root.head ∉ ([] : List RegionLine).map RegionLine.head := by simp
  have kids : kidsOf [root] = Function.update (kidsOf []) root.head root.kids := kidsOf_append absent
  have none : kidsOf [] = fun _ => [] := rfl
  simp [regionTable, declared, kids, none]

theorem ProperFile.declared_prefix {after : List RegionLine} (proper : ProperFile root rest)
    (whole : rest = before ++ line :: after) : (declared (root :: before) ++ line.kids).Nodup := by
  have split : declared (root :: rest) =
      (declared (root :: before) ++ line.kids) ++ after.flatMap RegionLine.kids := by
    simp [declared, whole]
  have distinct := proper.distinct
  rw [split] at distinct
  exact (List.nodup_append.mp distinct).1

/-- Every region that has a line so far is declared. -/
theorem ProperFile.heads_declared {after : List RegionLine} (proper : ProperFile root rest)
    (whole : rest = before ++ after) : ∀ head ∈ (root :: before).map RegionLine.head,
      head ∈ declared (root :: before) := by
  intro head member
  rcases List.mem_cons.mp member with rfl | later
  · exact List.mem_cons_self
  · obtain ⟨line, inside, rfl⟩ := List.mem_map.mp later
    obtain ⟨early, late, split⟩ := List.append_of_mem inside
    obtain ⟨parent, held, kid⟩ := List.mem_flatMap.mp
      (proper.earlier early line (late ++ after) (by simp [whole, split]))
    refine List.mem_cons_of_mem _ (List.mem_flatMap.mpr ⟨parent, ?_, kid⟩)
    rcases List.mem_cons.mp held with rfl | earlier
    · exact List.mem_cons_self
    · exact List.mem_cons_of_mem _ (split ▸ List.mem_append_left _ earlier)

theorem readLine_next {after : List RegionLine} {linecounter : Nat} (proper : ProperFile root rest)
    (whole : rest = before ++ line :: after) (later : linecounter ≠ 0)
    (ended : ending = [] ∨ ending = ['\n']) :
    readLine linecounter (regionTable (root :: before)) (line.text ++ ending) =
      some (regionTable (root :: before ++ [line])) := by
  have lineMember : line ∈ root :: rest := by simp [whole]
  have known := proper.earlier before line after whole
  have headMember : line.head ∈ declared (root :: before) := List.mem_cons_of_mem _ known
  have distinct := proper.declared_prefix whole
  have wholeNames : ∀ name ∈ declared (root :: before) ++ line.kids, ProperName name := by
    intro name member
    refine proper.names name ?_
    rw [declared, whole]
    rw [declared] at member
    simp only [List.cons_append, List.mem_cons, List.mem_append, List.flatMap_cons, List.flatMap_append,
      or_assoc] at member ⊢
    tauto
  have headProper := wholeNames _ (List.mem_append_left _ headMember)
  obtain ⟨words, tokens, trimmed⟩ := RegionLine.tokens headProper
    (fun kid member => wholeNames kid (List.mem_append_right _ member))
    (proper.kids line lineMember) ended
  have data : (line.text ++ ending).head? ≠ some '#' := by
    rw [head_of_text headProper]
    exact proper.data line lineMember
  have notRoot : root.head ≠ line.head := by
    intro same
    have absent := (List.nodup_cons.mp (List.nodup_append.mp distinct).1).1
    exact absent (same ▸ known)
  have position : (declared (root :: before)).idxOf line.head =
      ((root :: before).flatMap RegionLine.kids).idxOf line.head + 1 := List.idxOf_cons_ne _ notRoot
  have unheaded : line.head ∉ (root :: before).map RegionLine.head := by
    have once := proper.once
    rw [whole, ← List.cons_append, List.map_append, List.map_cons] at once
    exact fun member => (List.nodup_append.mp once).2.2 _ member _ List.mem_cons_self rfl
  have childless : ∀ name ∈ line.kids, kidsOf (root :: before) name = [] := by
    intro name member
    refine kidsOf_eq_nil fun headed => ?_
    exact (List.nodup_append.mp distinct).2.2 _ (proper.heads_declared whole name headed) _ member rfl
  have built := addLine_tableOf distinct headMember
    (fun name _ kid member => List.mem_cons_of_mem _ (mem_of_kidsOf member)) childless trimmed
  rw [position] at built
  rw [readLine, if_neg data, tokens]
  simp only [if_neg later, regionTable, declared, findIdx_tail known]
  rw [declared] at built
  rw [built, kidsOf_append unheaded, List.cons_append]
  simp

theorem getlines_fileText (newline : Bool) (free : '\n' ∉ line.text) (nonempty : line.text ≠ [])
    (rest : List RegionLine) :
    ∃ ending, (ending = [] ∨ ending = ['\n']) ∧
      getlines (fileText newline (line :: rest)) = (line.text ++ ending) :: getlines
        (fileText newline rest) := by
  cases rest with
  | nil =>
      cases newline with
      | false => exact ⟨[], .inl rfl, by simp [fileText, getlines_last free nonempty, getlines]⟩
      | true =>
          have lines : getlines (line.text ++ '\n' :: []) = (line.text ++ ['\n']) :: getlines [] :=
            getlines_line free []
          exact ⟨['\n'], .inr rfl, lines⟩
  | cons next rest => exact ⟨['\n'], .inr rfl, by rw [fileText, getlines_line free]; simp⟩

theorem ProperFile.text_free (proper : ProperFile root rest) (member : line ∈ root :: rest) :
    '\n' ∉ line.text ∧ line.text ≠ [] := by
  have headMember :=
    proper.heads_declared (List.append_nil rest).symm _ (List.mem_map.mpr ⟨line, member, rfl⟩)
  have headProper := proper.names _ headMember
  refine ⟨fun newline => ?_, by simp [RegionLine.text, headProper.nonempty]⟩
  rcases List.mem_append.mp newline with inHead | inKids
  · exact headProper.noNewline inHead
  · obtain ⟨kid, held, inKid⟩ := List.mem_flatMap.mp inKids
    have kidProper :=
      proper.names kid (List.mem_cons_of_mem _ (List.mem_flatMap.mpr ⟨line, member, held⟩))
    rcases List.mem_cons.mp inKid with colon | inName
    · cases colon
    · exact kidProper.noNewline inName

theorem readLines_rest {after : List RegionLine} (proper : ProperFile root rest)
    (whole : rest = before ++ after) :
    readLines (before.length + 1) (regionTable (root :: before)) (getlines (fileText newline after)) =
      some (regionTable (root :: rest)) := by
  induction after generalizing before with
  | nil =>
      rw [whole, List.append_nil]
      rfl
  | cons line after ih =>
      have member : line ∈ root :: rest := by simp [whole]
      have longer : rest = (before ++ [line]) ++ after := by simp [whole]
      obtain ⟨free, nonempty⟩ := proper.text_free member
      obtain ⟨ending, ended, lines⟩ := getlines_fileText newline free nonempty after
      have next := ih longer
      rw [List.length_append, List.length_singleton] at next
      rw [lines, readLines, readLine_next proper whole (Nat.succ_ne_zero _) ended]
      exact next

end RegionFile

/-- A proper region file is read as the list of its regions in the order of their declaration,
each with the children its line gives. -/
theorem createDAG_builds (root : RegionLine) (rest : List RegionLine) (newline : Bool)
    (proper : ProperFile root rest) :
    createDAG (fileText newline (root :: rest)) = some (regionTable (root :: rest)) := by
  obtain ⟨free, nonempty⟩ := proper.text_free List.mem_cons_self
  obtain ⟨ending, ended, lines⟩ := getlines_fileText newline free nonempty rest
  rw [createDAG, lines, readLines, readLine_root proper ended]
  exact readLines_rest proper (List.nil_append rest).symm

/-- The first two lines of the second test case. -/
theorem createDAG_builds_sample : createDAG (fileText false
      [⟨"Who_Won".toList, ["Region_1".toList, "Region_2".toList]⟩,
        ⟨"Region_1".toList, ["County_1".toList, "County_2".toList]⟩]) =
    some (regionTable [⟨"Who_Won".toList, ["Region_1".toList, "Region_2".toList]⟩,
      ⟨"Region_1".toList, ["County_1".toList, "County_2".toList]⟩]) := by
  refine createDAG_builds _ _ _ ⟨fun name member => ?_, by decide, by decide, by decide, ?_, by decide⟩
  · have all : ∀ name ∈ ["Who_Won", "Region_1", "Region_2", "County_1", "County_2"].map String.toList,
        name ≠ [] ∧ ':' ∉ name ∧ '\n' ∉ name := by decide
    obtain ⟨nonempty, noColon, noNewline⟩ := all name member
    exact ⟨nonempty, noColon, noNewline⟩
  · intro before line after whole
    cases before with
    | nil =>
        cases whole
        decide
    | cons first before => simp at whole

end VoteCounting.Server
