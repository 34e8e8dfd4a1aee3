import VoteCounting.Nodes.Capacity

namespace VoteCounting.Nodes

open CString Relation

/-- A region name as it may stand in a line. -/
structure PlainName (name : CStr) : Prop where
  nonempty : name ≠ []
  noBlank : ∀ c ∈ name, ¬ isspace c
  noNull : NUL ∉ name

/-- Plain names with single blanks between them, and the newline if there is one. -/
def PlainLine (line : CStr) : Prop :=
  ∃ names, (∀ name ∈ names, PlainName name) ∧ (line = spaced names ∨ line = spaced names ++ ['\n'])

def Declares (lines : List CStr) (parent child : CStr) : Prop := (parent, child) ∈ declared lines

/-- The relation is a tree with this root. -/
structure DeclaredTree (lines : List CStr) (root : CStr) : Prop where
  parentless : ∀ parent, ¬ Declares lines parent root
  single : ∀ {parent other child}, Declares lines parent child → Declares lines other child →
    parent = other
  reached : ∀ {parent child}, Declares lines parent child → ReflTransGen (Declares lines) root parent

section Checking

variable {lines : List CStr} {line name token ending : CStr} {names : List CStr} {root : CStr}

theorem PlainName.noDelim (plain : PlainName name) : ∀ c ∈ name, delim.contains c = false := by
  intro c member
  have notBlank := plain.noBlank c member
  by_contra found
  have listed : c = ' ' ∨ c = '\t' := by simpa [delim, or_iff_not_imp_left] using found
  rcases listed with rfl | rfl
  · exact notBlank (by decide)
  · exact notBlank (by decide)

theorem NUL_notMem_spaced (plain : ∀ name ∈ names, PlainName name) : NUL ∉ spaced names := by
  cases names with
  | nil => simp [spaced]
  | cons first rest =>
      intro member
      rcases List.mem_append.mp member with inside | later
      · exact (plain first List.mem_cons_self).noNull inside
      · obtain ⟨name, held, inside⟩ := List.mem_flatMap.mp later
        rcases List.mem_cons.mp inside with blank | inside
        · revert blank
          decide
        · exact (plain name (List.mem_cons_of_mem _ held)).noNull inside

/-- The tokens of a plain line are its names, the last one with the newline. -/
theorem argv_spaced (plain : ∀ name ∈ names, PlainName name) (nonempty : names ≠ [])
    (last : ending = [] ∨ ending = ['\n']) (member : token ∈ argv (spaced names ++ ending)) :
    ∃ name ∈ names, token = name ∨ token = name ++ ['\n'] := by
  have noNull : NUL ∉ spaced names ++ ending := by
    have free := NUL_notMem_spaced plain
    have newline : NUL ≠ '\n' := by decide
    rcases last with rfl | rfl <;> simp [free, newline]
  have tail : ∀ c ∈ ending, delim.contains c = false := by
    rcases last with rfl | rfl <;> simp [delim]
  obtain ⟨first, rest, rfl⟩ := List.exists_cons_of_ne_nil nonempty
  obtain ⟨front, final, same, split⟩ := words_spaced (by decide)
    (fun name held => (plain name held).noDelim) (fun name held => (plain name held).nonempty) tail
  rw [argv, strcpy_of_free noNull, makeargv, split] at member
  rcases List.mem_append.mp member with earlier | final
  · exact ⟨token, by rw [same]; exact List.mem_append_left _ earlier, .inl rfl⟩
  · obtain rfl := List.mem_singleton.mp final
    refine ⟨_, by rw [same]; exact List.mem_append_right _ List.mem_cons_self, ?_⟩
    rcases last with rfl | rfl
    · exact .inl (List.append_nil _)
    · exact .inr rfl

/-- In a plain line `visited` gets the tokens as `creatTree` does. -/
theorem buffer_of_plain (plain : PlainLine line) (member : token ∈ childTokens line) :
    trimwhitespaceBuffer token = trimwhitespace token := by
  obtain ⟨names, named, either⟩ := plain
  obtain ⟨ending, last, rfl⟩ : ∃ ending :
    CStr, (ending = [] ∨ ending = ['\n']) ∧ line = spaced names ++ ending := by
    rcases either with rfl | rfl
    · exact ⟨[], .inl rfl, (List.append_nil _).symm⟩
    · exact ⟨['\n'], .inr rfl, rfl⟩
  cases names with
  | nil =>
      have short : childTokens ending = [] := by
        rcases last with rfl | rfl <;> decide
      rw [spaced, List.nil_append, short] at member
      cases member
  | cons first rest =>
      obtain ⟨name, held, either⟩ := argv_spaced named (by simp) last (List.mem_of_mem_drop member)
      have nonempty := (named name held).nonempty
      refine trimwhitespaceBuffer_of_front fun c front => (named name held).noBlank c ?_
      rcases either with rfl | rfl
      · exact List.mem_of_head? front
      · rw [List.head?_append_of_ne_nil _ nonempty] at front
        exact List.mem_of_head? front

theorem visited_eq (plain : ∀ line ∈ childLines lines, PlainLine line) :
    (outcome lines).visited = (declared lines).map Prod.snd := by
  have line : ∀ line ∈ childLines lines,
      (childTokens line).map trimwhitespaceBuffer = (edges line).map Prod.snd := by
    intro line member
    rw [edges, List.map_map]
    exact List.map_congr_left fun token held => buffer_of_plain (plain line member) held
  rw [outcome, declared, List.map_flatMap, List.map_flatMap]
  exact List.flatMap_congr line

theorem nodup_iff (plain : ∀ line ∈ childLines lines, PlainLine line) :
    (whoWon :: (outcome lines).visited).Nodup ↔
      (∀ parent, ¬ Declares lines parent whoWon) ∧ ((declared lines).map Prod.snd).Nodup := by
  rw [visited_eq plain, List.nodup_cons]
  refine and_congr_left' ?_
  simp [Declares]

/-- Without a repeated name every region has one parent. -/
theorem single_of_nodup (unique : ((declared lines).map Prod.snd).Nodup) {parent other child : CStr}
    (first : Declares lines parent child) (second : Declares lines other child) : parent = other := by
  have same : (parent, child) = (other, child) := List.inj_on_of_nodup_map unique first second rfl
  exact congrArg Prod.fst same

theorem DeclaredTree.nodup_iff (tree : DeclaredTree lines root) :
    ((declared lines).map Prod.snd).Nodup ↔ (declared lines).Nodup := by
  refine ⟨fun unique => unique.of_map, fun unique =>
    unique.map_on fun first held second alsoHeld same => ?_⟩
  obtain ⟨parent, child⟩ := first
  obtain ⟨other, again⟩ := second
  obtain rfl : child = again := same
  rw [tree.single held alsoHeld]

theorem readLines_outcome {text : List Char} {parse : Parse}
    (read : readLines 0 {} (getlines text) = some parse) : parse = outcome (getlines text) := by
  have leads : Leads (getlines text) := by
    by_contra notLeads
    rw [readLines_eq_none notLeads] at read
    cases read
  rw [readLines_eq leads, Option.some.injEq] at read
  exact read.symm

/-- A region that is reached from `Who_Won` comes back to itself. -/
def CycleBelow (lines : List CStr) (root : CStr) : Prop :=
  ∃ region, ReflTransGen (Declares lines) root region ∧ TransGen (Declares lines) region region

theorem findDAGLoop_of_cycle (plain : ∀ line ∈ childLines lines, PlainLine line)
    (found : CycleBelow lines whoWon) : findDAGLoop (whoWon :: (outcome lines).visited) = 1 := by
  obtain ⟨region, path, cycle⟩ := found
  rw [findDAGLoop_eq_one_iff, nodup_iff plain]
  rintro ⟨parentless, unique⟩
  exact no_cycle_below parentless (fun first second => single_of_nodup unique first second) path cycle

theorem DeclaredTree.findDAGLoop_iff (tree : DeclaredTree lines whoWon)
    (plain : ∀ line ∈ childLines lines, PlainLine line) :
    findDAGLoop (whoWon :: (outcome lines).visited) = 0 ↔ (declared lines).Nodup := by
  rw [findDAGLoop_eq_zero_iff, Nodes.nodup_iff plain, tree.nodup_iff]
  exact and_iff_right tree.parentless

end Checking

/-- Cycles below `Who_Won` are found, and of a tree it is said that it has none, just where no line of
a tree lists a child that has been listed before.  The parser does not check that the names have room
in `visited`. -/
theorem findDAGLoop_right_iff {text : List Char} {parse : Parse}
    (read : readLines 0 {} (getlines text) = some parse)
    (plain : ∀ line ∈ childLines (getlines text), PlainLine line)
    (_room : parse.visited.length < maxNodes) :
    ((CycleBelow (getlines text) whoWon → findDAGLoop (whoWon :: parse.visited) = 1) ∧
      (DeclaredTree (getlines text) whoWon → findDAGLoop (whoWon :: parse.visited) = 0)) ↔
    (DeclaredTree (getlines text) whoWon → (declared (getlines text)).Nodup) := by
  obtain rfl := readLines_outcome read
  constructor
  · rintro ⟨_, trees⟩ tree
    exact (tree.findDAGLoop_iff plain).mp (trees tree)
  · intro once
    exact ⟨findDAGLoop_of_cycle plain, fun tree => (tree.findDAGLoop_iff plain).mpr (once tree)⟩

def chainFile : List Char := "1 X\nWho_Won A B\nWho_Won : A\nA : B\n".toList

theorem plainName_of_letters {name : CStr} (nonempty : name ≠ [])
    (letters : name.all fun c => !isspace c && c != NUL) :
    PlainName name := by
  simp only [List.all_eq_true, Bool.and_eq_true, Bool.not_eq_true', bne_iff_ne] at letters
  exact ⟨nonempty, fun c member => by simp [(letters c member).1], fun member =>
    (letters NUL member).2 rfl⟩

theorem findDAGLoop_right_iff_sample :
    ((CycleBelow (getlines chainFile) whoWon →
        findDAGLoop (whoWon :: (outcome (getlines chainFile)).visited) = 1) ∧
      (DeclaredTree (getlines chainFile) whoWon →
        findDAGLoop (whoWon :: (outcome (getlines chainFile)).visited) = 0)) ↔
    (DeclaredTree (getlines chainFile) whoWon → (declared (getlines chainFile)).Nodup) := by
  refine findDAGLoop_right_iff (readLines_eq (by decide)) (fun line member => ?_) (by decide)
  have lines : childLines (getlines chainFile) = ["Who_Won : A\n".toList, "A : B\n".toList] := by decide
  rw [lines] at member
  simp only [List.mem_cons, List.not_mem_nil, or_false] at member
  rcases member with rfl | rfl
  · refine ⟨["Who_Won".toList, ":".toList, "A".toList], fun name held => ?_, .inr (by decide)⟩
    refine plainName_of_letters ?_ ?_ <;> revert name <;> decide
  · refine ⟨["A".toList, ":".toList, "B".toList], fun name held => ?_, .inr (by decide)⟩
    refine plainName_of_letters ?_ ?_ <;> revert name <;> decide

/-- The root lists its only child twice. -/
theorem tree_called_loop :
    ∃ (text : List Char) (parse : Parse), readLines 0 {} (getlines text) = some parse ∧
    (∀ line ∈ childLines (getlines text), PlainLine line) ∧ parse.visited.length < maxNodes ∧
    DeclaredTree (getlines text) whoWon ∧ findDAGLoop (whoWon :: parse.visited) = 1 := by
  let text : List Char := "1 X\nWho_Won A\nWho_Won : A A\n".toList
  have pairs : declared (getlines text) = [(whoWon, ['A']), (whoWon, ['A'])] := by decide
  have declares : ∀ {parent child}, Declares (getlines text) parent child ↔ parent = whoWon ∧
      child = ['A'] := by
    intro parent child
    simp [Declares, pairs]
  refine ⟨text, _, readLines_eq (by decide), fun line member => ?_, by decide, ⟨?_, ?_, ?_⟩,
    by decide⟩
  · have lines : childLines (getlines text) = ["Who_Won : A A\n".toList] := by decide
    rw [lines, List.mem_singleton] at member
    subst member
    refine ⟨["Who_Won".toList, ":".toList, "A".toList, "A".toList], fun name held => ?_,
      .inr (by decide)⟩
    refine plainName_of_letters ?_ ?_ <;> revert name <;> decide
  · intro parent held
    have same := (declares.mp held).2
    revert same
    decide
  · intro parent other child first second
    rw [(declares.mp first).1, (declares.mp second).1]
  · intro parent child held
    rw [(declares.mp held).1]

end VoteCounting.Nodes
