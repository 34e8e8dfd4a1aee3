import VoteCounting.Server.Listing

namespace VoteCounting.Server

open CString

def IsComment (line : CStr) : Prop := line.head? = some '#'

instance (line : CStr) : Decidable (IsComment line) := inferInstanceAs (Decidable (_ = _))

/-- The lines of a file before and after comments are inserted.  A last line without a newline
gets one where a comment follows. -/
inductive Commented : List CStr → List CStr → Prop
  | nil : Commented [] []
  | comment {old new : List CStr} {line : CStr} : IsComment line → Commented old new →
      Commented old (line :: new)
  | kept {old new : List CStr} {line : CStr} : Commented old new → Commented (line :: old) (line :: new)
  | ended {new : List CStr} {line : CStr} : new ≠ [] → Commented [] new →
      Commented [line] ((line ++ ['\n']) :: new)

/-- A newline behind the line does not change what it declares. -/
def Closable (line : CStr) : Prop := 2 ≤ (makeargv line ':').length ∧ line.getLast? ≠ some ':'

/-- A last line that gets a newline declares the same with it. -/
def EndSafe (old new : List CStr) : Prop :=
  ∀ line, old.getLast? = some line → '\n' ∉ line → ¬ IsComment line → new.getLast? ≠ some line →
    Closable line

/-- No comment comes before the line of the root, and the last line stays what it was. -/
structure CommentSafe (old new : List CStr) : Prop where
  root : ∀ line, new.head? = some line → IsComment line → ∀ other ∈ old, IsComment other
  last : EndSafe old new

/-- There is a root, and the names behind it hold no newline. -/
structure PlainNames (table : Table) : Prop where
  inhabited : 0 < table.size
  behind : ∀ name ∈ table.names.tail, '\n' ∉ name

section Comments

variable {table after start : Table} {line : CStr} {old new : List CStr} {linecounter region : Nat}
  {names others : List CStr}

theorem Commented.of_nil (inserted : Commented [] new) : ∀ line ∈ new, IsComment line := by
  generalize same : ([] : List CStr) = old at inserted
  induction inserted with
  | nil => simp
  | comment isComment _ ih =>
      intro other member
      rcases List.mem_cons.mp member with rfl | later
      · exact isComment
      · exact ih same other later
  | kept | ended => cases same

theorem Commented.ne_nil (inserted : Commented old new) (nonempty : old ≠ []) : new ≠ [] := by
  cases inserted with
  | nil => exact absurd rfl nonempty
  | comment | kept | ended => exact List.cons_ne_nil _ _

theorem readLine_comment (isComment : IsComment line) : readLine linecounter table line = some table :=
  if_pos isComment

theorem readLines_comments (comments : ∀ line ∈ new, IsComment line) :
    readLines linecounter table new = some table := by
  induction new generalizing linecounter with
  | nil => rfl
  | cons line rest ih =>
      rw [readLines, readLine_comment (comments line List.mem_cons_self)]
      exact ih fun other member => comments other (List.mem_cons_of_mem _ member)

theorem readLine_later {other : Nat} (later : linecounter ≠ 0) (otherLater : other ≠ 0) :
    readLine linecounter table line = readLine other table line := by
  rw [readLine, readLine]
  split
  · rfl
  · split
    · rfl
    · rfl

theorem readLines_later {other : Nat} (later : linecounter ≠ 0) (otherLater : other ≠ 0) :
    readLines linecounter table old = readLines other table old := by
  induction old generalizing linecounter other table with
  | nil => rfl
  | cons line rest ih =>
      rw [readLines, readLines, readLine_later later otherLater]
      congr 1
      funext middle
      exact ih (Nat.succ_ne_zero _) (Nat.succ_ne_zero _)

theorem addLine_congr (same : names.map trimlastenter = others.map trimlastenter) :
    addLine table region names = addLine table region others := by
  have count : names.length = others.length := by simpa using congrArg List.length same
  have created : names.map (fun name => create (trimlastenter name)) =
      others.map fun name => create (trimlastenter name) := by
    have mapped := congrArg (List.map create) same
    rwa [List.map_map, List.map_map] at mapped
  rw [addLine, addLine, count, created]

/-- The tokens of a line with its newline. -/
theorem makeargv_newline (free : '\n' ∉ line) (nonempty : line ≠ []) :
    (line.getLast? = some ':' ∧ makeargv (line ++ ['\n']) ':' = makeargv line ':' ++ [['\n']]) ∨
      (line.getLast? ≠ some ':' ∧ ∃ front final, makeargv line ':' = front ++ [final] ∧
        makeargv (line ++ ['\n']) ':' = front ++ [final ++ ['\n']]) := by
  by_cases ended : line.getLast? = some ':'
  · refine .inl ⟨ended, ?_⟩
    obtain ⟨body, rfl⟩ := List.getLast?_eq_some_iff.mp ended
    have word : tokens ':' ['\n'] = [['\n']] := tokens_word (by decide) (by decide)
    rw [makeargv, List.append_assoc, List.singleton_append, tokens_append_delim, word, makeargv,
      tokens_concat_delim]
  · exact .inr ⟨ended, tokens_append_word (by decide) nonempty ended⟩

/-- What a line that is no comment does, by its tokens. -/
theorem readLine_data {name : CStr} (data : ¬ IsComment line)
    (tokens : makeargv line ':' = name :: names) :
    readLine linecounter table line =
      if linecounter = 0 then some (addLine (table.modify 0 fun node => { node with name }) 0 names)
      else (table.nodes.tail.findIdx? fun node => node.name == name).map fun k =>
        addLine table (k + 1) names := by
  have noComment : ¬ line.head? = some '#' := data
  rw [readLine, if_neg noComment, tokens]
  simp only
  split
  · rfl
  · split
    · rename_i missing
      rw [missing]
      rfl
    · rename_i found
      rw [found]
      rfl

theorem isComment_newline : IsComment (line ++ ['\n']) ↔ IsComment line := by
  cases line with
  | nil => simp [IsComment]
  | cons c rest => simp [IsComment]

/-- Behind a colon the newline is a token of its own, and one more child. -/
theorem readLine_colon (data : ¬ IsComment line) (stillData : ¬ IsComment (line ++ ['\n']))
    (tokens : makeargv (line ++ ['\n']) ':' = makeargv line ':' ++ [['\n']])
    (read : readLine linecounter table line = some after) :
    readLine linecounter table (line ++ ['\n']) ≠ some after := by
  intro same
  cases own : makeargv line ':' with
  | nil =>
      have noComment : ¬ line.head? = some '#' := data
      rw [readLine, if_neg noComment, own] at read
      cases read
  | cons name names =>
      rw [own, List.cons_append] at tokens
      rw [readLine_data data own] at read
      rw [readLine_data stillData tokens, ← read] at same
      have grown : ∀ (table : Table) (region : Nat),
          addLine table region (names ++ [['\n']]) ≠ addLine table region names := by
        intro table region equal
        have sizes := congrArg Table.size equal
        rw [addLine_size, addLine_size, List.length_append, List.length_singleton] at sizes
        omega
      split at same
      · exact grown _ _ (Option.some.inj same)
      · cases found : table.nodes.tail.findIdx? fun node => node.name == name with
        | none => simp [*] at read
        | some k =>
            rw [found] at same
            exact grown _ _ (Option.some.inj same)

/-- Behind a heading without children the newline is part of the name. -/
theorem readLine_heading {name : CStr} (plain : PlainNames table) (data : ¬ IsComment line)
    (stillData : ¬ IsComment (line ++ ['\n'])) (before : makeargv line ':' = [name])
    (tokens : makeargv (line ++ ['\n']) ':' = [name ++ ['\n']])
    (read : readLine linecounter table line = some after) :
    readLine linecounter table (line ++ ['\n']) ≠ some after := by
  intro same
  rw [readLine_data data before] at read
  rw [readLine_data stillData tokens] at same
  split at same
  · rename_i first
    rw [if_pos first, ← same] at read
    have names := congrArg (fun table => (table.node 0).name) (Option.some.inj read)
    simp only [addLine_name, Table.size_modify, plain.inhabited, Table.node_modify_self] at names
    simp at names
  · have missing : (table.nodes.tail.findIdx? fun node => node.name == name ++ ['\n']) = none := by
      rw [List.findIdx?_eq_none_iff]
      intro node member
      have nodeFree : '\n' ∉ node.name := plain.behind node.name (by
        rw [Table.names, ← List.map_tail]
        exact List.mem_map_of_mem member)
      have different : node.name ≠ name ++ ['\n'] := by
        intro same
        rw [same] at nodeFree
        simp at nodeFree
      simpa using different
    rw [missing] at same
    cases same

/-- Behind a child's name the newline is cut off. -/
theorem readLine_child {name last : CStr} (data : ¬ IsComment line)
    (stillData : ¬ IsComment (line ++ ['\n']))
    (free : '\n' ∉ last) (before : makeargv line ':' = name :: (names ++ [last]))
    (tokens : makeargv (line ++ ['\n']) ':' = name :: (names ++ [last ++ ['\n']]))
    (read : readLine linecounter table line = some after) :
    readLine linecounter table (line ++ ['\n']) = some after := by
  have trimmed :
      (names ++ [last ++ ['\n']]).map trimlastenter = (names ++ [last]).map trimlastenter := by
    simp [trimlastenter_line, trimlastenter_of_free free]
  rw [readLine_data data before] at read
  rw [readLine_data stillData tokens, ← read]
  simp only [addLine_congr trimmed]

theorem readLine_newline_iff (free : '\n' ∉ line) (nonempty : line ≠ []) (data : ¬ IsComment line)
    (plain : PlainNames table)
    (read : readLine linecounter table line = some after) :
    readLine linecounter table (line ++ ['\n']) = some after ↔ Closable line := by
  have stillData : ¬ IsComment (line ++ ['\n']) := fun comment =>
    data (isComment_newline.mp comment)
  rcases makeargv_newline free nonempty with ⟨ended, tokens⟩ | ⟨ended, front, last, before, tokens⟩
  · have notClosable : ¬ Closable line := fun closable => closable.2 ended
    exact iff_of_false (readLine_colon data stillData tokens read) notClosable
  · cases front with
    | nil =>
        rw [List.nil_append] at before tokens
        have notClosable : ¬ Closable line := by simp [Closable, before]
        exact iff_of_false (readLine_heading plain data stillData before tokens read) notClosable
    | cons name front =>
        rw [List.cons_append] at before tokens
        have closable : Closable line := ⟨by simp [before], ended⟩
        have lastFree : '\n' ∉ last := fun member =>
          free (mem_of_mem_tokens (by rw [← makeargv, before]; simp) member)
        exact iff_of_true (readLine_child data stillData lastFree before tokens read) closable

theorem trimlastenter_token {text token : CStr} (isLine : line ∈ getlines text)
    (member : token ∈ makeargv line ':') : '\n' ∉ trimlastenter token := by
  have plain : ∀ {body token : CStr}, '\n' ∉ body → token ∈ makeargv body ':' →
      '\n' ∉ trimlastenter token := by
    intro body token free member
    have tokenFree : '\n' ∉ token := fun inside => free (mem_of_mem_tokens member inside)
    rwa [trimlastenter_of_free tokenFree]
  obtain ⟨body, free, ⟨rfl, _⟩ | rfl⟩ := mem_getlines isLine
  · exact plain free member
  · by_cases blank : body = []
    · subst blank
      obtain rfl : token = ['\n'] := by simpa [makeargv, tokens_word] using member
      decide
    · rcases makeargv_newline free blank with ⟨_, tokens⟩ | ⟨_, front, final, before, tokens⟩
      · rw [tokens] at member
        rcases List.mem_append.mp member with own | last
        · exact plain free own
        · obtain rfl := List.mem_singleton.mp last
          decide
      · rw [tokens] at member
        rcases List.mem_append.mp member with own | last
        · exact plain free (before ▸ List.mem_append_left _ own)
        · obtain rfl := List.mem_singleton.mp last
          rw [trimlastenter_line]
          exact fun inside => free (mem_of_mem_tokens (by rw [← makeargv, before]; simp) inside)

theorem PlainNames.addLine (plain : PlainNames table)
    (free : ∀ name ∈ names, '\n' ∉ trimlastenter name) :
    PlainNames (addLine table region names) where
  inhabited := by
    rw [addLine_size]
    exact Nat.add_pos_left plain.inhabited _
  behind := by
    have nonempty : table.names ≠ [] := by
      intro none
      have length := congrArg List.length none
      simp only [Table.names, List.length_map, List.length_nil] at length
      exact absurd plain.inhabited (by rw [Table.size, length]; omega)
    rw [addLine_names, List.tail_append_of_ne_nil nonempty]
    intro name member
    rcases List.mem_append.mp member with old | new
    · exact plain.behind name old
    · obtain ⟨token, held, rfl⟩ := List.mem_map.mp new
      exact free token held

theorem PlainNames.readLine {text : CStr} (plain : PlainNames table) (isLine : line ∈ getlines text)
    (read : readLine linecounter table line = some after) : PlainNames after := by
  by_cases data : IsComment line
  · rw [readLine_comment data] at read
    cases read
    exact plain
  · cases tokens : makeargv line ':' with
    | nil =>
        have noComment : ¬ line.head? = some '#' := data
        rw [Server.readLine, if_neg noComment, tokens] at read
        cases read
    | cons name names =>
        have free : ∀ name ∈ names, '\n' ∉ trimlastenter name := fun name member =>
          trimlastenter_token isLine (tokens ▸ List.mem_cons_of_mem _ member)
        rw [readLine_data data tokens] at read
        split at read
        · cases read
          have renamed : PlainNames (table.modify 0 fun node => { node with name }) := by
            refine ⟨by simpa using plain.inhabited, ?_⟩
            have same :
                (table.modify 0 fun node => { node with name }).names.tail = table.names.tail := by
              obtain ⟨nodes⟩ := table
              cases nodes <;> rfl
            rw [same]
            exact plain.behind
          exact renamed.addLine free
        · obtain ⟨k, _, rfl⟩ := Option.map_eq_some_iff.mp read
          exact plain.addLine free

theorem endSafe_nil : EndSafe [] new := by
  intro line last
  cases last

theorem endSafe_comment (inserted : Commented old new) :
    EndSafe old (line :: new) ↔ EndSafe old new := by
  by_cases nothing : new = []
  · have none : old = [] := by
      by_contra nonempty
      exact inserted.ne_nil nonempty nothing
    subst none
    exact iff_of_true endSafe_nil endSafe_nil
  · rw [EndSafe, EndSafe, List.getLast?_cons_of_ne_nil nothing]

theorem endSafe_kept {other : CStr} (inserted : Commented old new)
    (lines : line :: new <:+ getlines other) :
    EndSafe (line :: old) (line :: new) ↔ EndSafe old new := by
  by_cases last : old = []
  · subst last
    refine iff_of_true (fun final same free _ different => ?_) endSafe_nil
    obtain rfl := Option.some.inj same
    cases new with
    | nil => exact absurd rfl different
    | cons next rest =>
        obtain ⟨front, whole⟩ := lines
        obtain ⟨body, rfl⟩ := getlines_terminated whole.symm
        simp at free
  · rw [EndSafe, EndSafe, List.getLast?_cons_of_ne_nil last,
      List.getLast?_cons_of_ne_nil (inserted.ne_nil last)]

/-- A line that gets a newline holds no other one. -/
theorem free_of_ended {text other : CStr} (isLine : line ∈ getlines text)
    (endedLine : line ++ ['\n'] ∈ getlines other) : '\n' ∉ line ∧ line ≠ [] := by
  have free : '\n' ∉ line := by
    obtain ⟨body, free, ⟨whole, _⟩ | whole⟩ := mem_getlines endedLine
    · exact absurd (whole ▸ List.mem_append_right _ (List.mem_singleton_self _)) free
    · exact List.append_cancel_right whole ▸ free
  refine ⟨free, ?_⟩
  rintro rfl
  obtain ⟨body, _, ⟨whole, nonempty⟩ | whole⟩ := mem_getlines isLine
  · exact nonempty whole.symm
  · cases body <;> cases whole

theorem endSafe_ended (data : ¬ IsComment line) (free : '\n' ∉ line) (nonempty : new ≠ [])
    (comments : ∀ other ∈ new, IsComment other) :
    EndSafe [line] ((line ++ ['\n']) :: new) ↔ Closable line := by
  constructor
  · intro safe
    refine safe line rfl free data fun last => ?_
    rw [List.getLast?_cons_of_ne_nil nonempty] at last
    exact data (comments line (List.mem_of_getLast? last))
  · intro closable other same _ _ _
    obtain rfl := Option.some.inj same
    exact closable

theorem readLine_ended {text other : CStr} (inserted : Commented [] new) (nonempty : new ≠ [])
    (isLine : line ∈ getlines text) (endedLine : line ++ ['\n'] ∈ getlines other)
    (plain : PlainNames table) (read : readLine linecounter table line = some start) :
    readLines linecounter table ((line ++ ['\n']) :: new) = some start ↔
      EndSafe [line] ((line ++ ['\n']) :: new) := by
  obtain ⟨free, lineNonempty⟩ := free_of_ended isLine endedLine
  have comments := inserted.of_nil
  have single : readLines linecounter table ((line ++ ['\n']) :: new) =
      readLine linecounter table (line ++ ['\n']) := by
    rw [readLines]
    cases first : readLine linecounter table (line ++ ['\n']) with
    | none => rfl
    | some middle => exact readLines_comments comments
  rw [single]
  by_cases data : IsComment line
  · have still : IsComment (line ++ ['\n']) := by
      rw [IsComment, List.head?_append_of_ne_nil _ lineNonempty]
      exact data
    rw [readLine_comment data] at read
    rw [readLine_comment still]
    refine iff_of_true read fun other same _ notComment => ?_
    obtain rfl := Option.some.inj same
    exact absurd data notComment
  · rw [readLine_newline_iff free lineNonempty data plain read,
      endSafe_ended data free nonempty comments]

theorem readLines_commented {file other : CStr} (inserted : Commented old new)
    (oldLines : old <:+ getlines file) (newLines : new <:+ getlines other) (plain : PlainNames table)
    (later : linecounter ≠ 0) (read : readLines linecounter table old = some start) :
    readLines linecounter table new = some start ↔ EndSafe old new := by
  induction inserted generalizing table linecounter with
  | nil => exact iff_of_true read endSafe_nil
  | @comment old new line isComment inserted ih =>
      have rest := ih oldLines ((List.suffix_cons line new).trans newLines) plain later read
      rw [readLines, readLine_comment isComment, endSafe_comment inserted, ← rest,
        readLines_later later (Nat.succ_ne_zero linecounter)]
      rfl
  | @kept old new line inserted ih =>
      obtain ⟨middle, first, remaining⟩ := Option.bind_eq_some_iff.mp read
      have rest :=
        ih ((List.suffix_cons line old).trans oldLines) ((List.suffix_cons line new).trans newLines)
        (plain.readLine (oldLines.subset List.mem_cons_self) first) (Nat.succ_ne_zero _) remaining
      rw [readLines, first, endSafe_kept inserted newLines, ← rest]
      rfl
  | @ended new line nonempty inserted =>
      obtain ⟨middle, first, remaining⟩ := Option.bind_eq_some_iff.mp read
      obtain rfl : middle = start := Option.some.inj remaining
      exact readLine_ended inserted nonempty (oldLines.subset List.mem_cons_self)
        (newLines.subset List.mem_cons_self) plain first

theorem Commented.comments_iff (inserted : Commented old new) :
    (∀ line ∈ new, IsComment line) ↔ ∀ line ∈ old, IsComment line := by
  induction inserted with
  | nil => exact Iff.rfl
  | comment isComment _ ih => rw [List.forall_mem_cons, ih, and_iff_right isComment]
  | kept _ ih => rw [List.forall_mem_cons, List.forall_mem_cons, ih]
  | ended _ comments =>
      rw [List.forall_mem_cons, isComment_newline, List.forall_mem_singleton]
      exact and_iff_left comments.of_nil

/-- Behind a root without children no line finds its region. -/
theorem comments_of_unrooted (unrooted : table.nodes.tail = []) (later : linecounter ≠ 0)
    (read : readLines linecounter table old = some start) : ∀ line ∈ old, IsComment line := by
  induction old generalizing linecounter with
  | nil => simp
  | cons line rest ih =>
      obtain ⟨middle, first, remaining⟩ := Option.bind_eq_some_iff.mp read
      by_cases comment : IsComment line
      · rw [readLine_comment comment] at first
        obtain rfl := Option.some.inj first
        exact List.forall_mem_cons.mpr ⟨comment, ih (Nat.succ_ne_zero _) remaining⟩
      · cases tokens : makeargv line ':' with
        | nil =>
            have noComment : ¬ line.head? = some '#' := comment
            rw [readLine, if_neg noComment, tokens] at first
            cases first
        | cons name names =>
            rw [readLine_data comment tokens, if_neg later, unrooted] at first
            cases first

/-- A file of comments only is the empty file. -/
theorem commentSafe_of_comments (inserted : Commented old new) (comments : ∀ line ∈ old, IsComment line)
    (read : readLines linecounter table old = some start) :
    readLines linecounter table new = some start ↔ CommentSafe old new := by
  rw [readLines_comments comments] at read
  rw [readLines_comments (inserted.comments_iff.mpr comments)]
  refine iff_of_true read ⟨fun _ _ _ => comments, fun line last _ data => ?_⟩
  exact absurd (comments line (List.mem_of_getLast? last)) data

theorem readLines_commented_root {file other : CStr} (inserted : Commented old new)
    (oldLines : old <:+ getlines file) (newLines : new <:+ getlines other) (plain : PlainNames table)
    (unrooted : table.nodes.tail = []) (read : readLines 0 table old = some start) :
    readLines 0 table new = some start ↔ CommentSafe old new := by
  by_cases comments : ∀ line ∈ old, IsComment line
  · exact commentSafe_of_comments inserted comments read
  · cases inserted with
    | nil => simp at comments
    | @comment _ new line isComment inserted =>
        have broken : ¬ CommentSafe old (line :: new) :=
          fun safe => comments (safe.root line rfl isComment)
        refine iff_of_false (fun same => ?_) broken
        obtain ⟨middle, first, remaining⟩ := Option.bind_eq_some_iff.mp same
        obtain rfl := Option.some.inj ((readLine_comment isComment).symm.trans first)
        exact comments (inserted.comments_iff.mp
          (comments_of_unrooted unrooted (Nat.succ_ne_zero 0) remaining))
    | @kept old new line inserted =>
        obtain ⟨middle, first, remaining⟩ := Option.bind_eq_some_iff.mp read
        have data : ¬ IsComment line := by
          intro isComment
          obtain rfl := Option.some.inj ((readLine_comment isComment).symm.trans first)
          exact comments (List.forall_mem_cons.mpr
            ⟨isComment, comments_of_unrooted unrooted (Nat.succ_ne_zero 0) remaining⟩)
        have rest := readLines_commented inserted ((List.suffix_cons line old).trans oldLines)
          ((List.suffix_cons line new).trans newLines)
          (plain.readLine (oldLines.subset List.mem_cons_self) first) (Nat.succ_ne_zero 0) remaining
        have step : readLines 0 table (line :: new) = readLines 1 middle new := by
          rw [readLines, first]
          rfl
        rw [step, rest, ← endSafe_kept inserted newLines]
        constructor
        · intro safe
          refine ⟨fun other same isComment => ?_, safe⟩
          exact absurd (Option.some.inj same ▸ isComment) data
        · exact CommentSafe.last
    | @ended new line nonempty inserted =>
        obtain ⟨middle, first, remaining⟩ := Option.bind_eq_some_iff.mp read
        obtain rfl : middle = start := Option.some.inj remaining
        have data : ¬ IsComment line := fun isComment => comments (by simpa using isComment)
        rw [readLine_ended inserted nonempty (oldLines.subset List.mem_cons_self)
          (newLines.subset List.mem_cons_self) plain first]
        constructor
        · intro safe
          refine ⟨fun other same isComment => ?_, safe⟩
          exact absurd (isComment_newline.mp (Option.some.inj same ▸ isComment)) data
        · exact CommentSafe.last

end Comments

/-- A region file with comments is accepted with the same regions exactly where no comment comes
before the line of the root, and a last line that gets a newline declares the same with it. -/
theorem comments_transparent_iff {file other : CStr} {start : Table}
    (created : createDAG file = some start)
    (inserted : Commented (getlines file) (getlines other)) :
    createDAG other = some start ↔ CommentSafe (getlines file) (getlines other) :=
  readLines_commented_root inserted (List.suffix_refl _) (List.suffix_refl _)
    ⟨by decide, by decide⟩ rfl created

theorem comments_transparent_iff_sample :
    createDAG "R:A\nA:B\n# leaves\n".toList = createDAG "R:A\nA:B".toList ∧
      (createDAG "R:A\nA:B\n# leaves\n".toList =
          some ⟨[{ name := ['R'], children := [1] }, { name := ['A'], children := [2] },
            { name := ['B'] }]⟩ ↔
        CommentSafe (getlines "R:A\nA:B".toList) (getlines "R:A\nA:B\n# leaves\n".toList)) := by
  refine ⟨by decide, comments_transparent_iff (by decide) ?_⟩
  exact .kept (.ended (by decide) (.comment rfl .nil))

/-- A comment before the first line makes the root an unknown region. -/
theorem comments_not_transparent : ∃ (file other : CStr) (start : Table), createDAG file = some start ∧
    Commented (getlines file) (getlines other) ∧ createDAG other = none :=
  ⟨"R:A\n".toList, "# regions\nR:A\n".toList, ⟨[{ name := ['R'], children := [1] }, { name := ['A'] }]⟩,
    by decide, .comment rfl (.kept .nil), by decide⟩

end VoteCounting.Server
