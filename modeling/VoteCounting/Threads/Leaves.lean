import VoteCounting.Threads.Decryption
import VoteCounting.Threads.Merging

namespace VoteCounting.Threads

open Counters CString

/-! The list `aggregate` builds from the file of a leaf and takes up to the root.

Leaf files and result files are read by the same loop, which tells their lines apart by the
length.
-/

/-- A decrypted file with one vote on each line; a blank line is an empty vote. -/
def voteText (votes : List CStr) : List Char := votes.flatMap fun name => name ++ ['\n']

/-- Each candidate once, with the number of its lines. -/
structure Counted (counters : List Count) (votes : List CStr) : Prop where
  once : (names counters).Nodup
  exact : ∀ entry, entry ∈ counters ↔
    entry.name ≠ [] ∧ entry.name ∈ votes ∧ entry.count = votes.count entry.name

/-- The first call of a thread; it ends with the list of the leaf. -/
def LeafCall (nodes : List DirNode) (votes : List CStr) (first : Worker) : Prop :=
  ∃ filename path files written, getPath nodes filename = some path ∧
    files path = some (voteText votes) ∧
    aggregate nodes files ⟨filename, []⟩ = some (written, first)

/-- A file with a line for each of some entries. -/
def IsResultText (text : List Char) : Prop :=
  ∃ entries : List Count, (∀ entry ∈ entries, '\n' ∉ entry.name) ∧ text = countText entries

/-- The further calls of one thread; other threads change the files between them. -/
inductive Calls (nodes : List DirNode) : Worker → Worker → Prop
  | refl (worker : Worker) : Calls nodes worker worker
  | next {first worker after : Worker} {files written : Files} : Calls nodes first worker →
      (∀ path text, getPath nodes worker.filename = some path → files path = some text →
        IsResultText text) →
      aggregate nodes files worker = some (written, after) → Calls nodes first after

section Leaves

variable {nodes : List DirNode} {votes : List CStr} {text : List Char}
  {worker after first last : Worker} {files written : Files} {name : CStr}

/-- `readInput` writes files of this form. -/
theorem readInput_voteText : readInput text = voteText ((getlines text).map decryptString) := by
  rw [readInput, voteText, List.flatMap_map]

/-- The votes that `aggregate` takes for votes. -/
def single (votes : List CStr) : List CStr := votes.filter fun name => name.length = 1

theorem countFile_voteText (lines : ∀ name ∈ votes, '\n' ∉ name) :
    countFile [] (voteText votes) = creditAll (2 ^ 32) [] (units (single votes)) :=
  countFile_lines lines List.nodup_nil

theorem mem_single : name ∈ single votes ↔ name ∈ votes ∧ name.length = 1 := by
  simp [single]

theorem count_single (one : name.length = 1) : (single votes).count name = votes.count name := by
  rw [single, List.count_filter]
  simpa using one

theorem aggregate_counters (called : aggregate nodes files worker = some (written, after)) :
    ∃ path text, getPath nodes worker.filename = some path ∧ files path = some text ∧
      after.counters = countFile worker.counters text := by
  simp only [aggregate, Option.bind_eq_bind, Option.bind_eq_some_iff, Option.pure_def,
    Option.some.injEq, Prod.mk.injEq] at called
  obtain ⟨path, found, text, read, _, _, _, _, _, _, _, rfl⟩ := called
  exact ⟨path, text, found, read, rfl⟩

/-- Nothing is added above the leaf. -/
theorem Calls.counters_eq (calls : Calls nodes first last) : last.counters = first.counters := by
  induction calls with
  | refl => rfl
  | next _ results called ih =>
      obtain ⟨path, text, found, read, list⟩ := aggregate_counters called
      obtain ⟨entries, free, rfl⟩ := results path text found read
      rw [list, countFile_countText free, ih]

theorem LeafCall.counters_eq (call : LeafCall nodes votes first) :
    first.counters = countFile [] (voteText votes) := by
  obtain ⟨filename, path, files, written, found, read, called⟩ := call
  obtain ⟨_, _, alsoFound, alsoRead, list⟩ := aggregate_counters called
  rw [found, Option.some.injEq] at alsoFound
  subst alsoFound
  rw [read, Option.some.injEq] at alsoRead
  rw [list, alsoRead]

/-- Single bytes are counted, as far as an `int` reaches. -/
theorem counted_of_short (lines : ∀ name ∈ votes, '\n' ∉ name)
    (short : ∀ name ∈ votes, name ≠ [] → name.length = 1 ∧ votes.count name < 2 ^ 31) :
    Counted (countFile [] (voteText votes)) votes := by
  have fit : ∀ name, Fits (2 ^ 32) ((single votes).count name : Int) := by
    intro name
    by_cases held : name ∈ single votes
    · obtain ⟨member, one⟩ := mem_single.mp held
      have nonempty : name ≠ [] := List.ne_nil_of_length_eq_add_one one
      rw [count_single one]
      exact fits_int_iff.mpr (short name member nonempty).2
    · rw [List.count_eq_zero_of_not_mem held]
      exact fits_zero _
  rw [countFile_voteText lines]
  refine ⟨nodup_creditAll List.nodup_nil, fun entry => ?_⟩
  have one : Fits (2 ^ 32) 1 := by decide
  rw [mem_creditAll_units one fit, mem_single]
  constructor
  · intro ⟨⟨member, one⟩, count⟩
    exact ⟨List.ne_nil_of_length_eq_add_one one, member, by rw [count, count_single one]⟩
  · intro ⟨nonempty, member, count⟩
    have one := (short entry.name member nonempty).1
    exact ⟨⟨member, one⟩, by rw [count, count_single one]⟩

theorem short_of_counted (lines : ∀ name ∈ votes, '\n' ∉ name)
    (counted : Counted (countFile [] (voteText votes)) votes) (member : name ∈ votes)
    (nonempty : name ≠ []) :
    name.length = 1 ∧ votes.count name < 2 ^ 31 := by
  have listed := (counted.exact ⟨name, votes.count name⟩).mpr ⟨nonempty, member, rfl⟩
  rw [countFile_voteText lines] at listed
  have named : name ∈ names (creditAll (2 ^ 32) [] (units (single votes))) := List.mem_map_of_mem listed
  rw [mem_names_creditAll, names_units] at named
  have one := (mem_single.mp (named.resolve_left (by simp))).2
  have allFit : ∀ entry ∈ creditAll (2 ^ 32) [] (units (single votes)), Fits (2 ^ 32) entry.count :=
    fits_creditAll (by simp) (fits_units (by decide))
  exact ⟨one, fits_int_iff.mp (allFit ⟨name, votes.count name⟩ listed)⟩

end Leaves

/-- The list of a leaf is right exactly where every candidate's name is a single byte; the calls
for the regions above leave it as it is in any case. -/
theorem leaf_counts_iff (nodes : List DirNode) {votes : List CStr}
    (lines : ∀ name ∈ votes, '\n' ∉ name) :
    (Counted (countFile [] (voteText votes)) votes ∧
        ∀ first last, LeafCall nodes votes first → Calls nodes first last →
          last.counters = countFile [] (voteText votes)) ↔
      ∀ name ∈ votes, name ≠ [] → name.length = 1 ∧ votes.count name < 2 ^ 31 := by
  constructor
  · intro ⟨counted, _⟩ name member nonempty
    exact short_of_counted lines counted member nonempty
  · intro short
    refine ⟨counted_of_short lines short, fun first last call calls => ?_⟩
    rw [calls.counters_eq, call.counters_eq]

def oneLeaf : List DirNode := [⟨['R'], "out/R".toList⟩, ⟨['A'], "out/R/A".toList⟩]

theorem leafCall_oneLeaf : ∃ first, LeafCall oneLeaf [['C'], [], ['D'], ['C']] first := by
  let files : Files := Function.update (fun _ => none) "out/R/A/A.txt".toList
    (some (voteText [['C'], [], ['D'], ['C']]))
  have called : (aggregate oneLeaf files ⟨['A'], []⟩).isSome := by decide
  obtain ⟨⟨written, first⟩, done⟩ := Option.isSome_iff_exists.mp called
  exact ⟨first, ['A'], "out/R/A/A.txt".toList, files, written, by decide,
    Function.update_self .., done⟩

theorem leaf_counts_iff_sample :
    (∃ first, LeafCall oneLeaf [['C'], [], ['D'], ['C']] first) ∧
    ((Counted (countFile [] (voteText [['C'], [], ['D'], ['C']])) [['C'], [], ['D'], ['C']] ∧
        ∀ first last, LeafCall oneLeaf [['C'], [], ['D'], ['C']] first → Calls oneLeaf first last →
          last.counters = countFile [] (voteText [['C'], [], ['D'], ['C']])) ↔
      ∀ name ∈ [['C'], [], ['D'], ['C']], name ≠ [] →
        name.length = 1 ∧ [['C'], [], ['D'], ['C']].count name < 2 ^ 31) :=
  ⟨leafCall_oneLeaf, leaf_counts_iff oneLeaf (by simp)⟩

/-- Lines of two bytes and a newline are taken for lines of a count file. -/
theorem leaf_not_counted : ∃ votes : List CStr, (∀ name ∈ votes, '\n' ∉ name ∧ ':' ∉ name) ∧
    ¬ Counted (countFile [] (voteText votes)) votes := by
  refine ⟨[['C', 'D']], by simp, fun counted => ?_⟩
  have listed := (counted.exact ⟨['C', 'D'], 1⟩).mpr ⟨by simp, by simp, by decide⟩
  exact absurd listed (by decide)

end VoteCounting.Threads
