import VoteCounting.Programs.Results

namespace VoteCounting.Programs

open Counters CString

/-! `Leaf_Counter`: the votes of one directory, one candidate a line, become a result file.

The file is sorted by `/usr/bin/sort`, of which only the set of lines matters here.
-/

/-- The list starts with this node, which is no candidate. -/
def rootNode : Count := ⟨"ROOT_NODE".toList, 1⟩

/-- `sort` writes a newline after the last line, too. -/
def endLine (line : List Char) : List Char := if line.getLast? = some '\n' then line else line ++ ['\n']

def sortFile (sort : List (List Char) → List (List Char)) (text : List Char) : List Char :=
  (sort ((getlines text).map endLine)).flatten

/-- The search starts at the root. -/
def canidateCounter (root : List Count) (vote : CStr) : List Count := credit (2 ^ 32) root vote 1

def vote (buf : List Char) : CStr := trimwhitespace (strcpy buf)

/-- The list after all votes.  The size of a pointer is never zero, so that no line is left out. -/
def fileOpener (sort : List (List Char) → List (List Char)) (text : List Char) : List Count :=
  (getlines (sortFile sort text)).foldl (fun root buf => canidateCounter root (vote buf)) [rootNode]

def printNode (node : Count) : CStr := node.name ++ ':' :: decimal node.count

/-- The root is not printed. -/
def printResults : List Count → CStr
  | _ :: first :: rest => printNode first ++ rest.flatMap (fun node => ',' :: printNode node) ++ ['\n']
  | _ => ['\n']

def printed (counters : List Count) : List Item :=
  counters.map fun node => ⟨node.name, decimal node.count⟩

theorem rootNode_named : rootNode.name ≠ [] := by decide

section Votes

variable {sort : List (List Char) → List (List Char)} {text line body : List Char} {name : CStr}
  {counters : List Count} {node : Count}

theorem vote_newline : vote (body ++ ['\n']) = vote body := by
  rw [vote, vote, strcpy, strcpy]
  rw [List.takeWhile_append]
  split
  · rename_i whole
    have blank : ∀ c ∈ ['\n'].takeWhile (· ≠ NUL), isspace c := by
      intro c member
      obtain rfl := List.mem_singleton.mp (List.takeWhile_subset _ member)
      rfl
    rw [List.IsPrefix.eq_of_length (List.takeWhile_prefix _) whole]
    exact trim_append_blanks blank
  · rfl

theorem vote_endLine : vote (endLine line) = vote line := by
  rw [endLine]
  split
  · rfl
  · exact vote_newline

theorem vote_noNewline (member : line ∈ getlines text) : '\n' ∉ vote line := by
  obtain ⟨body, free, whole⟩ := mem_getlines member
  have same : vote line = vote body := by
    rcases whole with ⟨rfl, _⟩ | rfl
    · rfl
    · exact vote_newline
  rw [same]
  exact fun inside => free ((List.takeWhile_subset _) (mem_trim inside))

theorem vote_noNull : NUL ∉ vote line := fun inside => nul_not_mem_strcpy line (mem_trim inside)

theorem endLine_line (member : line ∈ getlines text) :
    ∃ body, '\n' ∉ body ∧ endLine line = body ++ ['\n'] := by
  obtain ⟨body, free, ⟨rfl, _⟩ | rfl⟩ := mem_getlines member
  · have last : line.getLast? ≠ some '\n' := fun last => free (List.mem_of_getLast? last)
    exact ⟨line, free, if_neg last⟩
  · exact ⟨body, free, if_pos (by simp)⟩

theorem getlines_sortFile (sorts : ∀ lines, (sort lines).Perm lines) :
    getlines (sortFile sort text) = sort ((getlines text).map endLine) := by
  have line : ∀ line ∈ sort ((getlines text).map endLine), '\n' ∉ line.dropLast ∧
      line.dropLast ++ ['\n'] = line := by
    intro line member
    obtain ⟨source, held, rfl⟩ := List.mem_map.mp ((sorts _).mem_iff.mp member)
    obtain ⟨body, free, whole⟩ := endLine_line held
    simp [whole, free]
  have whole : (sort ((getlines text).map endLine)).map (fun line => line.dropLast ++ ['\n']) =
      sort ((getlines text).map endLine) := by
    conv_rhs => rw [← List.map_id (sort _)]
    exact List.map_congr_left fun l member => (line l member).2
  have read := getlines_flatMap List.dropLast (sort ((getlines text).map endLine)) fun l member =>
    (line l member).1
  rw [whole, List.flatMap_def, whole] at read
  exact read

theorem votes_perm (sorts : ∀ lines, (sort lines).Perm lines) :
    ((getlines (sortFile sort text)).map vote).Perm ((getlines text).map vote) := by
  rw [getlines_sortFile sorts]
  refine ((sorts _).map vote).trans (List.Perm.of_eq ?_)
  rw [List.map_map]
  exact List.map_congr_left fun _ _ => vote_endLine

theorem fileOpener_eq : fileOpener sort text =
    creditAll (2 ^ 32) [rootNode] (units ((getlines (sortFile sort text)).map vote)) := by
  rw [fileOpener, units, List.map_map, creditAll, List.foldl_map]
  rfl

theorem fileOpener_cons :
    ∃ count counters, fileOpener sort text = ⟨rootNode.name, count⟩ :: counters := by
  have whole : names [rootNode] <+: names (fileOpener sort text) := by
    rw [fileOpener_eq]
    exact names_creditAll_prefix
  cases found : fileOpener sort text with
  | nil => simp [found] at whole
  | cons first counters =>
      rw [found, names_cons, names_cons, List.cons_prefix_cons] at whole
      exact ⟨first.count, counters, by rw [whole.1]⟩

theorem mem_names_fileOpener (sorts : ∀ lines, (sort lines).Perm lines) :
    name ∈ names (fileOpener sort text) ↔ name = rootNode.name ∨ ∃ line ∈ getlines text,
      vote line = name := by
  rw [fileOpener_eq, mem_names_creditAll, names_units, (votes_perm sorts).mem_iff, List.mem_map]
  simp

theorem fileOpener_nodup : (names (fileOpener sort text)).Nodup := by
  rw [fileOpener_eq]
  exact nodup_creditAll (by simp)

theorem fileOpener_fits : ∀ node ∈ fileOpener sort text, Fits (2 ^ 32) node.count := by
  rw [fileOpener_eq]
  exact fits_creditAll (by decide) (fits_units (by decide))

/-- The candidates behind the root are the votes that do not name the root. -/
theorem mem_names_candidates (sorts : ∀ lines, (sort lines).Perm lines) :
    name ∈ names (fileOpener sort text).tail ↔
      name ≠ rootNode.name ∧ ∃ line ∈ getlines text, vote line = name := by
  have all : name ∈ names (fileOpener sort text) ↔ _ := mem_names_fileOpener sorts
  have unique : (names (fileOpener sort text)).Nodup := fileOpener_nodup
  obtain ⟨count, counters, whole⟩ : ∃ count counters,
      fileOpener sort text = ⟨rootNode.name, count⟩ :: counters := fileOpener_cons
  rw [whole, names_cons, List.mem_cons] at all
  rw [whole, names_cons, List.nodup_cons] at unique
  rw [whole, List.tail_cons]
  constructor
  · intro member
    have different : name ≠ rootNode.name := fun same => unique.1 (same ▸ member)
    exact ⟨different, (all.mp (.inr member)).resolve_left different⟩
  · intro ⟨different, voted⟩
    exact (all.mpr (.inr voted)).resolve_left different

theorem plain_decimal (value : Int) : Plain (decimal value) where
  noComma member := mem_decimal_ne member (by decide) (by decide) rfl
  noColon member := mem_decimal_ne member (by decide) (by decide) rfl
  noNewline member := mem_decimal_ne member (by decide) (by decide) rfl
  noNull member := mem_decimal_ne member (by decide) (by decide) rfl

theorem entry_printed (fits : Fits (2 ^ 32) node.count) :
    (⟨node.name, decimal node.count⟩ : Item).entry = node := by
  have lower := Int.le_bmod (x := node.count) (m := 2 ^ 32) (by decide)
  have upper := Int.bmod_lt (x := node.count) (m := 2 ^ 32) (by decide)
  rw [Fits] at fits
  rw [fits] at lower upper
  rw [Item.entry, atoi_decimal (by omega) (by omega)]

theorem map_entry_printed (fits : ∀ node ∈ counters, Fits (2 ^ 32) node.count) :
    (printed counters).map Item.entry = counters := by
  rw [printed, List.map_map]
  conv_rhs => rw [← List.map_id counters]
  exact List.map_congr_left fun node member => entry_printed (fits node member)

theorem printed_printed (plain : ∀ name ∈ names counters, Plain name) :
    ∀ item ∈ printed counters, item.Printed := by
  intro item member
  obtain ⟨node, held, rfl⟩ := List.mem_map.mp member
  exact ⟨plain node.name (List.mem_map_of_mem held), plain_decimal _, decimal_ne_nil _⟩

theorem printResults_cons {root : Count} :
    printResults (root :: counters) = lineText (printed counters) ++ ['\n'] := by
  cases counters with
  | nil => rfl
  | cons first rest =>
      simp only [printResults, printed, lineText, List.map_cons, List.flatMap_map]
      rfl

/-- The reader recovers the listed pairs exactly if no line is blank and some vote is not for a
candidate with the name of the root. -/
theorem results_read_back_iff (sorts : ∀ lines, (sort lines).Perm lines)
    (separable : ∀ line ∈ getlines text, ',' ∉ vote line ∧ ':' ∉ vote line) :
    readPairs (printResults (fileOpener sort text)) = some (fileOpener sort text).tail ↔
      (∀ line ∈ getlines text, vote line ≠ []) ∧ ∃ line ∈ getlines text, vote line ≠ rootNode.name := by
  have listed : ∀ name, name ∈ names (fileOpener sort text).tail ↔ _ :=
    fun _ => mem_names_candidates sorts
  have fits : ∀ node ∈ fileOpener sort text, Fits (2 ^ 32) node.count := fileOpener_fits
  obtain ⟨count, counters, whole⟩ : ∃ count counters,
      fileOpener sort text = ⟨rootNode.name, count⟩ :: counters := fileOpener_cons
  rw [whole, List.tail_cons] at listed
  rw [whole] at fits
  have plain : ∀ name ∈ names counters, Plain name := by
    intro name member
    obtain ⟨_, line, held, rfl⟩ := (listed name).mp member
    exact ⟨(separable line held).1, (separable line held).2, vote_noNewline held, vote_noNull⟩
  have same : (printed counters).map Item.entry = counters :=
    map_entry_printed fun node member => fits node (List.mem_cons_of_mem _ member)
  have named : (∀ item ∈ printed counters, item.name ≠ []) ↔ ∀ line ∈ getlines text,
      vote line ≠ [] := by
    have items : (∀ item ∈ printed counters, item.name ≠ []) ↔ [] ∉ names counters := by
      simp [printed, names]
    rw [items, listed, not_and]
    exact ⟨fun none line held blank => none rootNode_named.symm ⟨line, held, blank⟩,
      fun filled _ blank => blank.elim fun line found => filled line found.1 found.2⟩
  have filled : printed counters ≠ [] ↔ ∃ line ∈ getlines text, vote line ≠ rootNode.name := by
    constructor
    · intro filled
      obtain ⟨node, held⟩ := List.exists_mem_of_ne_nil counters fun none => filled (by rw [none]; rfl)
      obtain ⟨other, line, present, voted⟩ := (listed node.name).mp (List.mem_map_of_mem held)
      exact ⟨line, present, voted ▸ other⟩
    · rintro ⟨line, present, other⟩ none
      have member := (listed (vote line)).mpr ⟨other, line, present, rfl⟩
      rw [List.map_eq_nil_iff.mp none] at member
      cases member
  rw [whole, List.tail_cons, printResults_cons, ← named, ← filled]
  by_cases unlisted : printed counters = []
  · have blank : readPairs (lineText [] ++ ['\n']) = none := by decide
    rw [unlisted, blank]
    simp
  · have ending : StartsWith (printed counters) (lineText (printed counters) ++ ['\n']) :=
      ⟨['\n'], rfl, .inr rfl⟩
    have read : (printed counters).mapM Item.read = some ((printed counters).map Item.entry) ↔ _ :=
      mapM_read_eq_some_iff
    rw [same] at read
    rw [readPairs_startsWith (printed_printed plain) unlisted ending, read, and_iff_left unlisted]

def lineLe : List Char → List Char → Bool
  | [], _ => true
  | _ :: _, [] => false
  | c :: rest, d :: other => c.toNat < d.toNat || (c == d && lineLe rest other)

def sortLines (lines : List (List Char)) : List (List Char) := lines.insertionSort (lineLe · ·)

theorem results_read_back_iff_sample :
    readPairs (printResults (fileOpener sortLines "Bo\nAl\nBo\n".toList)) =
        some (fileOpener sortLines "Bo\nAl\nBo\n".toList).tail ↔
      (∀ line ∈ getlines "Bo\nAl\nBo\n".toList, vote line ≠ []) ∧
        ∃ line ∈ getlines "Bo\nAl\nBo\n".toList, vote line ≠ rootNode.name :=
  results_read_back_iff (fun lines => List.perm_insertionSort _ lines) (by decide)

/-- A blank line is counted as a vote for a candidate without a name, and the reader exits. -/
theorem results_not_read_back : ¬ ∀ (sort : List (List Char) → List (List Char)) (text : List Char),
    (∀ lines, (sort lines).Perm lines) →
    (∀ line ∈ getlines text, ',' ∉ vote line ∧ ':' ∉ vote line) →
      readPairs (printResults (fileOpener sort text)) = some (fileOpener sort text).tail := by
  intro claim
  have first :=
    claim sortLines "Al\n\n".toList (fun lines => List.perm_insertionSort _ lines) (by decide)
  have second : readPairs (printResults (fileOpener sortLines "Al\n\n".toList)) = none := by decide
  rw [second] at first
  cases first

/-- Each vote once, with the number of its lines, and nothing else. -/
structure Tallied (counters : List Count) (votes : List CStr) : Prop where
  once : (names counters).Nodup
  exact : ∀ node, node ∈ counters ↔ node.name ∈ votes ∧ node.count = votes.count node.name

/-- The nodes that are printed are those behind the root. -/
theorem printResults_fileOpener : printResults (fileOpener sort text) =
    lineText (printed (fileOpener sort text).tail) ++ ['\n'] := by
  obtain ⟨count, counters, whole⟩ : ∃ count counters,
      fileOpener sort text = ⟨rootNode.name, count⟩ :: counters := fileOpener_cons
  rw [whole, printResults_cons, List.tail_cons]

theorem filter_units (votes : List CStr) (name : CStr) :
    (units votes).filter (fun amount => amount.name ≠ name) = units (votes.filter (· ≠ name)) := by
  rw [units, units, List.filter_map]
  rfl

/-- The votes that name the root never reach the printed nodes. -/
theorem fileOpener_tail : (fileOpener sort text).tail = creditAll (2 ^ 32) []
    (units (((getlines (sortFile sort text)).map vote).filter (· ≠ rootNode.name))) := by
  rw [fileOpener_eq, creditAll_cons_tail, filter_units]

theorem tallied_of_unrooted (sorts : ∀ lines, (sort lines).Perm lines)
    (unrooted : ∀ line ∈ getlines text, vote line ≠ rootNode.name)
    (few : ∀ name, ((getlines text).map vote).count name < 2 ^ 31) :
    Tallied (fileOpener sort text).tail ((getlines text).map vote) := by
  have sorted : ((getlines (sortFile sort text)).map vote).Perm ((getlines text).map vote) :=
    votes_perm sorts
  have kept : ((getlines (sortFile sort text)).map vote).filter (· ≠ rootNode.name) =
      (getlines (sortFile sort text)).map vote := by
    rw [List.filter_eq_self]
    intro name member
    obtain ⟨line, held, rfl⟩ := List.mem_map.mp (sorted.mem_iff.mp member)
    simpa using unrooted line held
  rw [fileOpener_tail, kept]
  refine ⟨nodup_creditAll List.nodup_nil, fun node => ?_⟩
  have one : Fits (2 ^ 32) 1 := by decide
  rw [mem_creditAll_units one fun name => fits_int_iff.mpr (sorted.count_eq name ▸ few name),
    sorted.mem_iff, sorted.count_eq]

theorem unrooted_of_tallied (sorts : ∀ lines, (sort lines).Perm lines)
    (tallied : Tallied (fileOpener sort text).tail ((getlines text).map vote)) :
    (∀ line ∈ getlines text, vote line ≠ rootNode.name) ∧
      ∀ name, ((getlines text).map vote).count name < 2 ^ 31 := by
  have listed : ∀ name ∈ (getlines text).map vote,
      (⟨name, ((getlines text).map vote).count name⟩ : Count) ∈ (fileOpener sort text).tail :=
    fun name member => (tallied.exact ⟨name, _⟩).mpr ⟨member, rfl⟩
  constructor
  · intro line held
    have named : vote line ∈ names (fileOpener sort text).tail :=
      List.mem_map_of_mem (listed _ (List.mem_map_of_mem held))
    exact ((mem_names_candidates sorts).mp named).1
  · intro name
    by_cases member : name ∈ (getlines text).map vote
    · have fits : ∀ node ∈ fileOpener sort text, Fits (2 ^ 32) node.count := fileOpener_fits
      exact fits_int_iff.mp (fits ⟨name, _⟩ (List.mem_of_mem_tail (listed name member)))
    · rw [List.count_eq_zero_of_not_mem member]
      positivity

/-- The printed line is right exactly where nobody votes for a candidate with the name of the
root, as far as an `int` reaches. -/
theorem printed_tally_iff (sorts : ∀ lines, (sort lines).Perm lines) (text : List Char) :
    (printResults (fileOpener sort text) = lineText (printed (fileOpener sort text).tail) ++ ['\n'] ∧
        Tallied (fileOpener sort text).tail ((getlines text).map vote)) ↔
      (∀ line ∈ getlines text, vote line ≠ rootNode.name) ∧
        ∀ name, ((getlines text).map vote).count name < 2 ^ 31 := by
  constructor
  · intro ⟨_, tallied⟩
    exact unrooted_of_tallied sorts tallied
  · intro ⟨unrooted, few⟩
    exact ⟨printResults_fileOpener, tallied_of_unrooted sorts unrooted few⟩

theorem printed_tally_iff_sample :
    (printResults (fileOpener sortLines " Bo\nAl\nBo\n".toList) =
          lineText (printed (fileOpener sortLines " Bo\nAl\nBo\n".toList).tail) ++ ['\n'] ∧
        Tallied (fileOpener sortLines " Bo\nAl\nBo\n".toList).tail
          ((getlines " Bo\nAl\nBo\n".toList).map vote)) ↔
      (∀ line ∈ getlines " Bo\nAl\nBo\n".toList, vote line ≠ rootNode.name) ∧
        ∀ name, ((getlines " Bo\nAl\nBo\n".toList).map vote).count name < 2 ^ 31 :=
  printed_tally_iff (fun lines => List.perm_insertionSort _ lines) _

/-- A vote for `ROOT_NODE` is counted at the root, which is not printed. -/
theorem vote_not_printed :
    (∀ line ∈ getlines "Al\nROOT_NODE\n".toList, vote line ≠ []) ∧
      printResults (fileOpener sortLines "Al\nROOT_NODE\n".toList) = "Al:1\n".toList ∧
      ¬ Tallied (fileOpener sortLines "Al\nROOT_NODE\n".toList).tail
        ((getlines "Al\nROOT_NODE\n".toList).map vote) := by
  refine ⟨by decide, by decide, fun tallied => ?_⟩
  have listed := (tallied.exact ⟨"ROOT_NODE".toList, 1⟩).mpr (by decide)
  have nodes : (fileOpener sortLines "Al\nROOT_NODE\n".toList).tail = [⟨"Al".toList, 1⟩] := by decide
  rw [nodes] at listed
  cases List.mem_singleton.mp listed

end Votes

end VoteCounting.Programs
