import VoteCounting.Programs.Directories

namespace VoteCounting.Programs

open Counters CString

/-- The counts in the leaves below a directory. -/
def cast (items : Directory → List Item) (dir : Directory) : List Count :=
  (leaves dir).flatMap fun leaf => (items leaf).map Item.entry

/-- The result file of a leaf starts with a line of these items. -/
structure Lists (sort : List (List Char) → List (List Char)) (leaf : Directory)
    (items : List Item) : Prop where
  filled : items ≠ []
  printed : ∀ item ∈ items, item.Printed
  named : ∀ item ∈ items, item.name ≠ []
  starts : ∃ text, (run sort leaf).result = some text ∧ StartsWith items text

/-- Every name of the leaves once, with the sum of its counts. -/
structure Totals (entries amounts : List Count) : Prop where
  unique : (names entries).Nodup
  listed : ∀ name, name ∈ names entries ↔ name ∈ names amounts
  exact : ∀ name, total entries name = total amounts name

/-- What the parent reads in a directory agrees with its leaves, up to overflow. -/
structure Reports (sort : List (List Char) → List (List Char)) (items : Directory → List Item)
    (dir : Directory) (pairs : List Count) : Prop where
  read : ∀ counters, readResult counters (run sort dir) = some (creditAll (2 ^ 32) counters pairs)
  filled : pairs ≠ []
  listed : ∀ name, name ∈ names pairs ↔ name ∈ names (cast items dir)
  congruent : ∀ name, total pairs name ≡ total (cast items dir) name [ZMOD (2 ^ 32 : Nat)]
  fits : ∀ pair ∈ pairs, Fits (2 ^ 32) pair.count

section Totals

variable {sort : List (List Char) → List (List Char)} {items : Directory → List Item}
  {dir leaf sub : Directory} {subdirs : List Directory} {counters entries : List Count}
  {text : List Char}
  {name : CStr} {line : List Item} {pairsOf : Directory → List Count}

theorem readResult_of_text (free : blocked dir.name dir.subdirs = false)
    (written : (run sort dir).result = some text) (printed : ∀ item ∈ line, item.Printed)
    (named : ∀ item ∈ line, item.name ≠ []) (filled : line ≠ []) (starts : StartsWith line text) :
    readResult counters (run sort dir) = some (creditAll (2 ^ 32) counters (line.map Item.entry)) := by
  have read : readPairs text = some (line.map Item.entry) := by
    rw [readPairs_startsWith printed filled starts, mapM_read_eq_some_iff]
    exact named
  have open_ : ¬ blocked (run sort dir).name (run sort dir).subdirs := by
    rw [blocked_run, free]
    decide
  rw [readResult, if_neg open_, written, Option.bind_some, addFile_eq, read]
  rfl

theorem cast_leaf (leaf : dir.subdirs = []) : cast items dir = (items dir).map Item.entry := by
  rw [cast, leaves_of_leaf leaf, List.flatMap_singleton]

theorem cast_inner (inside : dir.subdirs ≠ []) : cast items dir = dir.subdirs.flatMap (cast items) := by
  rw [cast, leaves_of_inner inside, List.flatMap_assoc]
  rfl

theorem fits_entry (item : Item) : Fits (2 ^ 32) item.entry.count := by
  obtain ⟨lower, upper⟩ := atoi_range item.digits
  exact toInt_of_range lower upper

theorem Lists.reports (lists : Lists sort dir (items dir)) (leaf : dir.subdirs = []) :
    Reports sort items dir ((items dir).map Item.entry) where
  read counters := by
    have free : blocked dir.name dir.subdirs = false := by
      rw [leaf]
      rfl
    obtain ⟨text, written, starts⟩ := lists.starts
    exact readResult_of_text free written lists.printed lists.named lists.filled starts
  filled := by simpa using lists.filled
  listed name := by rw [cast_leaf leaf]
  congruent name := by rw [cast_leaf leaf]
  fits pair member := by
    obtain ⟨item, _, rfl⟩ := List.mem_map.mp member
    exact fits_entry item

theorem aggr_reports (reports : ∀ sub ∈ subdirs, Reports sort items sub (pairsOf sub)) :
    aggr sort false counters subdirs =
      (subdirs.map (run sort), some (creditAll (2 ^ 32) counters (subdirs.flatMap pairsOf))) := by
  induction subdirs generalizing counters with
  | nil => rfl
  | cons sub rest ih =>
      have first := (reports sub List.mem_cons_self).read counters
      rw [aggr]
      simp only [Bool.false_eq_true, if_false, first]
      rw [ih fun later member => reports later (List.mem_cons_of_mem _ member)]
      simp [creditAll]

theorem names_cast (lists : ∀ leaf ∈ leaves dir, Lists sort leaf (items leaf))
    (member : name ∈ names (cast items dir)) : Plain name ∧ name ≠ [] := by
  obtain ⟨leaf, under, listed⟩ := mem_names_flatMap.mp member
  obtain ⟨entry, held, rfl⟩ := List.mem_map.mp listed
  obtain ⟨item, inside, rfl⟩ := List.mem_map.mp held
  exact ⟨((lists leaf under).printed item inside).name, (lists leaf under).named item inside⟩

theorem writeResults_of_filled (filled : entries ≠ []) :
    writeResults false (some entries) = some (lineText (printed entries) ++ ['\n']) := by
  cases entries with
  | nil => exact absurd rfl filled
  | cons first rest =>
      simp only [writeResults, Bool.false_eq_true, if_false, printed, lineText, List.map_cons,
        List.flatMap_map]
      rfl

/-- What a directory writes, if all of its sub-directories report. -/
theorem run_of_reports (free : blocked dir.name dir.subdirs = false) (inside : dir.subdirs ≠ [])
    (lists : ∀ leaf ∈ leaves dir, Lists sort leaf (items leaf))
    (reports : ∀ sub ∈ dir.subdirs, Reports sort items sub (pairsOf sub))
    (whole : entries = creditAll (2 ^ 32) [] (dir.subdirs.flatMap pairsOf)) :
    (run sort dir).subdirs = dir.subdirs.map (run sort) ∧
      (run sort dir).result = some (lineText (printed entries) ++ ['\n']) ∧
        (names entries).Nodup ∧ Reports sort items dir entries := by
  have ran : aggr sort false [] dir.subdirs = (dir.subdirs.map (run sort), some entries) := by
    rw [whole]
    exact aggr_reports reports
  obtain ⟨subdirs, written⟩ : (run sort dir).subdirs = _ ∧ (run sort dir).result = _ := run_inner inside
  rw [free, ran] at subdirs written
  have listed : ∀ name, name ∈ names entries ↔ name ∈ names (cast items dir) := by
    intro name
    rw [whole, mem_names_creditAll, cast_inner inside, mem_names_flatMap, mem_names_flatMap]
    simp only [names_nil, List.not_mem_nil, false_or]
    exact exists_congr fun sub => and_congr_right fun member => (reports sub member).listed name
  have fits : ∀ entry ∈ entries, Fits (2 ^ 32) entry.count := by
    rw [whole]
    refine fits_creditAll (by simp) fun entry member => ?_
    obtain ⟨sub, held, own⟩ := List.mem_flatMap.mp member
    exact (reports sub held).fits entry own
  have filled : entries ≠ [] := by
    obtain ⟨sub, held⟩ := List.exists_mem_of_ne_nil _ inside
    obtain ⟨pair, own⟩ := List.exists_mem_of_ne_nil _ (reports sub held).filled
    have member : pair.name ∈ names entries := by
      rw [whole, mem_names_creditAll]
      exact .inr (mem_names_flatMap.mpr ⟨sub, held, List.mem_map_of_mem own⟩)
    exact fun none => by simp [none] at member
  rw [writeResults_of_filled filled] at written
  have items_printed : ∀ item ∈ printed entries, item.Printed :=
    printed_printed fun name member => (names_cast lists ((listed name).mp member)).1
  have items_named : ∀ item ∈ printed entries, item.name ≠ [] := by
    intro item member
    obtain ⟨entry, held, rfl⟩ := List.mem_map.mp member
    exact (names_cast lists ((listed entry.name).mp (List.mem_map_of_mem held))).2
  refine ⟨subdirs, written, whole ▸ nodup_creditAll (by simp), fun counters => ?_, filled,
    listed, ?_, fits⟩
  · rw [readResult_of_text free written items_printed items_named (by simpa [printed] using filled)
      ⟨['\n'], rfl, .inr rfl⟩, map_entry_printed fits]
  · intro name
    rw [whole, cast_inner inside, total_flatMap]
    refine total_creditAll_modEq.trans ?_
    rw [total_nil, zero_add, total_flatMap]
    exact sum_modEq fun sub member => (reports sub member).congruent name

/-- Every directory reports, and those with sub-directories write what they report. -/
theorem run_reports (lists : ∀ leaf ∈ leaves dir, Lists sort leaf (items leaf))
    (free : ∀ inner ∈ directories dir, blocked inner.name inner.subdirs = false) :
    ∃ pairs, Reports sort items dir pairs ∧ (dir.subdirs ≠ [] →
      (run sort dir).subdirs = dir.subdirs.map (run sort) ∧
        (run sort dir).result = some (lineText (printed pairs) ++ ['\n']) ∧ (names pairs).Nodup) := by
  induction dir using Directory.induction with
  | step dir ih =>
      by_cases leaf : dir.subdirs = []
      · have own : dir ∈ leaves dir := by simp [leaves_of_leaf leaf]
        exact ⟨_, (lists dir own).reports leaf, fun inside => absurd leaf inside⟩
      · have each : ∀ sub ∈ dir.subdirs, ∃ pairs, Reports sort items sub pairs := by
          intro sub member
          obtain ⟨pairs, reports, _⟩ := ih sub member
            (fun leaf under => lists leaf
              (mem_leaves_of_mem (mem_directories_sub member mem_directories_self) under))
            fun inner under => free inner (mem_directories_sub member under)
          exact ⟨pairs, reports⟩
        choose! pairsOf reports using each
        obtain ⟨subdirs, written, unique, all⟩ :=
          run_of_reports (free dir mem_directories_self) leaf lists reports rfl
        exact ⟨_, all, fun _ => ⟨subdirs, written, unique⟩⟩

theorem blocked_eq_false (apart : ∀ sub ∈ dir.subdirs, sub.name ≠ dir.name ++ ".txt".toList) :
    blocked dir.name dir.subdirs = false := by
  rw [blocked, List.any_eq_false]
  intro sub member same
  exact apart sub member (of_decide_eq_true same)

/-- The runs leave the tree as it was. -/
theorem directories_run (lists : ∀ leaf ∈ leaves dir, Lists sort leaf (items leaf))
    (free : ∀ inner ∈ directories dir, blocked inner.name inner.subdirs = false) :
    directories (run sort dir) = (directories dir).map (run sort) := by
  induction dir using Directory.induction with
  | step dir ih =>
      have kept : (run sort dir).subdirs = dir.subdirs.map (run sort) := by
        by_cases leaf : dir.subdirs = []
        · rw [run_leaf leaf, leaf]
          rfl
        · obtain ⟨_, _, inner⟩ := run_reports lists free
          exact (inner leaf).1
      have each :
          ∀ sub ∈ dir.subdirs, directories (run sort sub) = (directories sub).map (run sort) := by
        intro sub member
        have below := mem_directories_sub member mem_directories_self
        exact ih sub member (fun leaf under => lists leaf (mem_leaves_of_mem below under))
          fun inner under => free inner (mem_directories_sub member under)
      rw [directories_eq, kept, List.flatMap_map]
      conv_rhs => rw [directories_eq]
      rw [List.map_cons, List.map_flatMap]
      exact congrArg _ (List.flatMap_congr each)

/-- Every directory with sub-directories gets the totals of the leaves below it, unless a result
file has the name of a sub-directory. -/
theorem run_totals
    (lists : ∀ leaf ∈ leaves dir, Lists sort leaf (items leaf))
    (apart : ∀ inner ∈ directories dir, ∀ sub ∈ inner.subdirs, sub.name ≠ inner.name ++ ".txt".toList)
    (range : ∀ inner ∈ directories dir, inner.subdirs ≠ [] → ∀ name,
      -2 ^ 31 ≤ total (cast items inner) name ∧ total (cast items inner) name < 2 ^ 31) :
    directories (run sort dir) = (directories dir).map (run sort) ∧
      ∀ inner ∈ directories dir, inner.subdirs ≠ [] → ∃ entries,
        (run sort inner).result = some (lineText (printed entries) ++ ['\n']) ∧
          Totals entries (cast items inner) := by
  have free : ∀ inner ∈ directories dir, blocked inner.name inner.subdirs = false :=
    fun inner member => blocked_eq_false (apart inner member)
  refine ⟨directories_run lists free, fun inner member inside => ?_⟩
  obtain ⟨pairs, reports, own⟩ :=
    run_reports (fun leaf under => lists leaf (mem_leaves_of_mem member under))
    fun deeper under => free deeper (directories_trans member under)
  obtain ⟨_, written, unique⟩ := own inside
  refine ⟨pairs, written, unique, reports.listed, fun name => ?_⟩
  obtain ⟨lower, upper⟩ := range inner member inside name
  exact (fits_total unique reports.fits).eq_of_modEq (toInt_of_range lower upper)
    (reports.congruent name)

def oneVote (name : CStr) : Directory := .mk name (some "Al\n".toList) none []

def aboveVote (name : CStr) : Directory := .mk "D".toList none none [oneVote name]

def oneItem (_ : Directory) : List Item := [⟨"Al".toList, "1".toList⟩]

theorem plain_of_all {word : CStr}
    (free : (word.all fun c => c ≠ ',' && c ≠ ':' && c ≠ '\n' && c ≠ NUL) = true) : Plain word := by
  have each : ∀ c ∈ word, ((c ≠ ',' ∧ c ≠ ':') ∧ c ≠ '\n') ∧ c ≠ NUL := by simpa using free
  exact ⟨fun member => (each _ member).1.1.1 rfl, fun member => (each _ member).1.1.2 rfl,
    fun member => (each _ member).1.2 rfl, fun member => (each _ member).2 rfl⟩

theorem leaves_aboveVote : leaves (aboveVote name) = [oneVote name] := rfl

theorem lists_aboveVote : ∀ leaf ∈ leaves (aboveVote name), Lists sortLines leaf (oneItem leaf) := by
  intro leaf member
  rw [leaves_aboveVote, List.mem_singleton] at member
  subst member
  refine ⟨by simp [oneItem], fun item member => ?_, fun item member => ?_, "Al:1\n".toList, rfl,
    ['\n'], rfl, .inr rfl⟩
  · obtain rfl := List.mem_singleton.mp member
    exact ⟨plain_of_all (by decide), plain_of_all (by decide), by decide⟩
  · obtain rfl := List.mem_singleton.mp member
    decide

theorem directories_aboveVote : directories (aboveVote name) = [aboveVote name, oneVote name] := rfl

theorem range_aboveVote : ∀ inner ∈ directories (aboveVote name), inner.subdirs ≠ [] → ∀ other,
    -2 ^ 31 ≤ total (cast oneItem inner) other ∧ total (cast oneItem inner) other < 2 ^ 31 := by
  intro inner member inside other
  rw [directories_aboveVote] at member
  have same : cast oneItem inner = [⟨"Al".toList, 1⟩] := by
    rcases List.mem_cons.mp member with rfl | last
    · rfl
    · exact absurd (List.mem_singleton.mp last ▸ rfl) inside
  rw [same, total_cons, total_nil]
  split <;> decide

def ward (name votes : CStr) : Directory := .mk name (some votes) none []

def twoWards : Directory :=
  .mk "Who_Won".toList none none [ward ['A'] "Al\nBo\n".toList, ward ['B'] "Bo\n".toList]

/-- Both wards have a vote for `Bo`. -/
def wardItems (leaf : Directory) : List Item :=
  if leaf.name = ['A'] then [⟨"Al".toList, ['1']⟩, ⟨"Bo".toList, ['1']⟩] else [⟨"Bo".toList, ['1']⟩]

theorem leaves_twoWards :
    leaves twoWards = [ward ['A'] "Al\nBo\n".toList, ward ['B'] "Bo\n".toList] := rfl

theorem directories_twoWards : directories twoWards =
    [twoWards, ward ['A'] "Al\nBo\n".toList, ward ['B'] "Bo\n".toList] := rfl

theorem lists_twoWards : ∀ leaf ∈ leaves twoWards, Lists sortLines leaf (wardItems leaf) := by
  have printed : ∀ item ∈ wardItems (ward ['A'] []), item.Printed := by
    simp only [wardItems, ward, Directory.name, if_true, List.forall_mem_cons]
    exact ⟨⟨plain_of_all (by decide), plain_of_all (by decide), by decide⟩,
      ⟨plain_of_all (by decide), plain_of_all (by decide), by decide⟩, by simp⟩
  rw [leaves_twoWards, List.forall_mem_cons, List.forall_mem_singleton]
  exact ⟨⟨by decide, printed, by decide, "Al:1,Bo:1\n".toList, by decide, ['\n'], rfl, .inr rfl⟩,
    by decide, fun item member => printed item (List.mem_cons_of_mem _ member), by decide,
    "Bo:1\n".toList, by decide, ['\n'], rfl, .inr rfl⟩

theorem run_totals_sample : directories (run sortLines twoWards) =
      (directories twoWards).map (run sortLines) ∧
    ∀ inner ∈ directories twoWards, inner.subdirs ≠ [] → ∃ entries,
      (run sortLines inner).result = some (lineText (printed entries) ++ ['\n']) ∧
        Totals entries (cast wardItems inner) := by
  refine run_totals lists_twoWards ?_ ?_
  · rw [directories_twoWards]
    simp only [List.forall_mem_cons, twoWards, ward, Directory.subdirs, Directory.name,
      List.not_mem_nil, false_imp_iff, implies_true, and_true]
    decide
  · rw [directories_twoWards]
    simp only [List.forall_mem_cons, ward, Directory.subdirs, ne_eq, not_true_eq_false,
      false_imp_iff, List.not_mem_nil, implies_true, and_true]
    intro _ name
    have votes : cast wardItems twoWards =
      [⟨"Al".toList, 1⟩, ⟨"Bo".toList, 1⟩, ⟨"Bo".toList, 1⟩] := by decide
    rw [votes]
    simp only [total_cons, total_nil]
    split_ifs <;> omega

/-- `D` cannot write its results next to a sub-directory `D.txt`. -/
theorem run_not_totals : ¬ ∀ (sort : List (List Char) → List (List Char))
    (items : Directory → List Item) (dir : Directory), (∀ lines, (sort lines).Perm lines) →
    (∀ leaf ∈ leaves dir, Lists sort leaf (items leaf)) →
    (∀ inner ∈ directories dir, inner.subdirs ≠ [] → ∀ name,
      -2 ^ 31 ≤ total (cast items inner) name ∧ total (cast items inner) name < 2 ^ 31) →
    ∀ inner ∈ directories dir, inner.subdirs ≠ [] → ∃ entries,
      (run sort inner).result = some (lineText (printed entries) ++ ['\n']) ∧
        Totals entries (cast items inner) := by
  intro claim
  have first :=
    claim sortLines oneItem (aboveVote "D.txt".toList)
      (fun lines => List.perm_insertionSort _ lines)
    lists_aboveVote range_aboveVote (aboveVote "D.txt".toList) mem_directories_self
      (by simp [aboveVote, Directory.subdirs])
  obtain ⟨entries, written, _⟩ := first
  have second : (run sortLines (aboveVote "D.txt".toList)).result = none := by decide
  rw [second] at written
  cases written

end Totals

end VoteCounting.Programs
