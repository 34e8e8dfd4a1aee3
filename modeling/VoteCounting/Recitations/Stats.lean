import VoteCounting.Data.CString

namespace VoteCounting.Recitations.Stats

open CString

/-- The entries of a directory, in the order in which `readdir` returns them. -/
inductive Listing where
  | nil
  | dots (rest : Listing)
  | directory (name : CStr) (inside rest : Listing)
  | file (name : CStr) (size : Nat) (rest : Listing)
  | other (rest : Listing)
deriving DecidableEq, Repr

/-- What is kept of a file: its size is stored in an `int`. -/
structure File where
  name : CStr
  size : Int
deriving DecidableEq, Repr

/-- The files printed for a directory, with the total their shares are computed from. -/
structure Report where
  path : CStr
  listed : List File
  totalsize : Int
deriving DecidableEq, Repr

/-- The variables of the loop, and what the calls in it print. -/
structure Scan where
  listed : List File := []
  totalsize : Int := 0
  printed : List Report := []
deriving DecidableEq, Repr

/-- Conversion to a 64-bit `long long`. -/
def toLong (value : Int) : Int := value.bmod (2 ^ 64)

/-- After the loop: the result is an `int`. -/
def Scan.finish (scan : Scan) (path : CStr) : Int × List Report :=
  (toInt scan.totalsize, scan.printed ++ [⟨path, scan.listed, scan.totalsize⟩])

def readEntries (max : Int) (path : CStr) : Listing → Scan → Scan
  | .nil, scan => scan
  | .dots rest, scan => readEntries max path rest scan
  | .directory name inside rest, scan =>
      let next_dir := path ++ '/' :: name
      let result := (readEntries max next_dir inside {}).finish next_dir
      readEntries max path rest { scan with
        totalsize := toLong (scan.totalsize + result.1)
        printed := scan.printed ++ result.2 }
  | .file name size rest, scan =>
      readEntries max path rest { scan with
        listed := if scan.listed.length < max then scan.listed ++ [⟨name, toInt size⟩] else scan.listed
        totalsize := toLong (scan.totalsize + size) }
  | .other rest, scan => readEntries max path rest scan

def printStats (path : CStr) (max : Int) (entries : Listing) : Int × List Report :=
  (readEntries max path entries {}).finish path

namespace Listing

/-- The sizes of the regular files in a directory and below. -/
def sum : Listing → Int
  | nil => 0
  | dots rest => rest.sum
  | directory _ inside rest => inside.sum + rest.sum
  | file _ size rest => size + rest.sum
  | other rest => rest.sum

/-- Whether there is a regular file in the directory itself. -/
def HasFile : Listing → Prop
  | nil => False
  | dots rest => rest.HasFile
  | directory _ _ rest => rest.HasFile
  | file .. => True
  | other rest => rest.HasFile

/-- The directories directly in a directory. -/
def subdirectories : Listing → List Listing
  | nil => []
  | dots rest => rest.subdirectories
  | directory _ inside rest => inside :: rest.subdirectories
  | file _ _ rest => rest.subdirectories
  | other rest => rest.subdirectories

/-- All directories below a directory, in the order in which their calls end. -/
def calls (path : CStr) : Listing → List (CStr × Listing)
  | nil => []
  | dots rest => rest.calls path
  | directory name inside rest => inside.calls (path ++ '/' :: name) ++
      (path ++ '/' :: name, inside) :: rest.calls path
  | file _ _ rest => rest.calls path
  | other rest => rest.calls path

/-- The sum as the directory sees it: from each directory in it comes an `int`. -/
def seen : Listing → Int
  | nil => 0
  | dots rest => rest.seen
  | directory _ inside rest => toInt inside.sum + rest.seen
  | file _ size rest => size + rest.seen
  | other rest => rest.seen

end Listing

/-- The directories a call visits. -/
def visited (path : CStr) (entries : Listing) : List (CStr × Listing) :=
  entries.calls path ++ [(path, entries)]

/-- Wherever shares are printed they are computed from the exact sum, if a `long long` can hold
it. -/
def Exact (path : CStr) (max : Int) (entries : Listing) : Prop :=
  List.Forall₂ (fun (report : Report) (directory : CStr × Listing) => report.path = directory.1 ∧
      (report.listed ≠ [] → directory.2.sum ≤ 2 ^ 63 - 1 → report.totalsize = directory.2.sum))
    (printStats path max entries).2 (visited path entries)

/-- No directory beside a listed file holds more than an `int` can. -/
def Narrow (path : CStr) (max : Int) (entries : Listing) : Prop :=
  0 < max → ∀ directory ∈ visited path entries, directory.2.HasFile →
    directory.2.sum ≤ 2 ^ 63 - 1 → ∀ sub ∈ directory.2.subdirectories, sub.sum ≤ 2 ^ 31 - 1

section Conversions

variable {value other : Int}

theorem toInt_toLong_add : toInt (toLong value + other) = toInt (value + other) := by
  have narrower : (value.bmod (2 ^ 64)).bmod (2 ^ 32) = value.bmod (2 ^ 32) :=
    Int.bmod_bmod_of_dvd (by decide)
  rw [toInt, toInt, toLong, ← Int.bmod_add_bmod, narrower, Int.bmod_add_bmod]

theorem toInt_le (nonneg : 0 ≤ value) : toInt value ≤ value := by
  rw [toInt, Int.bmod_def]
  split <;> omega

theorem neg_le_toInt (nonneg : 0 ≤ value) : -value ≤ toInt value := by
  rw [toInt, Int.bmod_def]
  split <;> omega

theorem toInt_eq_self_iff (nonneg : 0 ≤ value) : toInt value = value ↔ value ≤ 2 ^ 31 - 1 := by
  rw [toInt, Int.bmod_def]
  split <;> omega

end Conversions

section Totals

variable {max : Int} {path : CStr} {entries : Listing} {scan : Scan}

theorem sum_nonneg (entries : Listing) : 0 ≤ entries.sum := by
  induction entries with
  | nil => exact le_rfl
  | dots rest ih | other rest ih => exact ih
  | directory name inside rest ihInside ih => exact add_nonneg ihInside ih
  | file name size rest ih => exact add_nonneg (Int.natCast_nonneg size) ih

/-- What a call passes up is the exact sum, as an `int`. -/
theorem toInt_readEntries : toInt (readEntries max path entries scan).totalsize =
    toInt (scan.totalsize + entries.sum) := by
  induction entries generalizing path scan with
  | nil => rw [readEntries, Listing.sum, add_zero]
  | dots rest ih | other rest ih => rw [readEntries, ih, Listing.sum]
  | directory name inside rest ihInside ih =>
      have result : toInt (readEntries max (path ++ '/' :: name) inside {}).totalsize =
          toInt inside.sum := by
        rw [ihInside, zero_add]
      simp only [readEntries, Scan.finish, ih, result, toInt_toLong_add, Listing.sum]
      rw [add_right_comm, toInt, toInt, toInt, Int.add_bmod_bmod]
      congr 1
      ring
  | file name size rest ih =>
      simp only [readEntries, ih, toInt_toLong_add, Listing.sum, add_assoc]

theorem toLong_toLong (value : Int) : toLong (toLong value) = toLong value := Int.bmod_bmod

theorem toLong_toLong_add (value other : Int) :
    toLong (toLong value + other) = toLong (value + other) := Int.bmod_add_bmod

theorem totalsize_readEntries (fits : toLong scan.totalsize = scan.totalsize) :
    (readEntries max path entries scan).totalsize = toLong (scan.totalsize + entries.seen) := by
  induction entries generalizing path scan with
  | nil => rw [readEntries, Listing.seen, add_zero, fits]
  | dots rest ih | other rest ih => rw [readEntries, ih fits, Listing.seen]
  | directory name inside rest ihInside ih =>
      have result : toInt (readEntries max (path ++ '/' :: name) inside {}).totalsize =
          toInt inside.sum := by
        rw [toInt_readEntries, zero_add]
      rw [readEntries, ih, Scan.finish, result, toLong_toLong_add, add_assoc, Listing.seen]
      exact toLong_toLong _
  | file name size rest ih =>
      rw [readEntries, ih, toLong_toLong_add, add_assoc, Listing.seen]
      exact toLong_toLong _

theorem seen_bounds (entries : Listing) :
    -entries.sum ≤ entries.seen ∧ entries.seen ≤ entries.sum := by
  induction entries with
  | nil => exact ⟨le_rfl, le_rfl⟩
  | dots rest ih | other rest ih => exact ih
  | directory name inside rest ihInside ih =>
      have nonneg := sum_nonneg inside
      have most := toInt_le nonneg
      have least := neg_le_toInt nonneg
      simp only [Listing.sum, Listing.seen]
      omega
  | file name size rest ih =>
      simp only [Listing.sum, Listing.seen]
      omega

/-- The directory sees the exact sum if that of each directory in it fits an `int`. -/
theorem seen_eq_sum_iff (entries : Listing) : entries.seen = entries.sum ↔
    ∀ sub ∈ entries.subdirectories, sub.sum ≤ 2 ^ 31 - 1 := by
  induction entries with
  | nil => simp [Listing.seen, Listing.sum, Listing.subdirectories]
  | dots rest ih | other rest ih => exact ih
  | directory name inside rest ihInside ih =>
      have nonneg := sum_nonneg inside
      have most := toInt_le nonneg
      have bounds := seen_bounds rest
      rw [Listing.seen, Listing.sum, Listing.subdirectories, List.forall_mem_cons, ← ih,
        ← toInt_eq_self_iff nonneg]
      omega
  | file name size rest ih =>
      rw [Listing.seen, Listing.sum, Listing.subdirectories, ← ih]
      omega

/-- The total of a directory whose exact sum a `long long` can hold. -/
theorem totalsize_eq_sum_iff (fits : entries.sum ≤ 2 ^ 63 - 1) :
    (readEntries max path entries {}).totalsize = entries.sum ↔
      ∀ sub ∈ entries.subdirectories, sub.sum ≤ 2 ^ 31 - 1 := by
  have bounds := seen_bounds entries
  have total : (readEntries max path entries {}).totalsize = entries.seen := by
    rw [totalsize_readEntries rfl, zero_add, toLong, Int.bmod_def]
    split <;> omega
  rw [total, seen_eq_sum_iff]

end Totals

section Reports

variable {max : Int} {path : CStr} {entries : Listing} {scan : Scan}

/-- What a call prints for its own directory. -/
def report (max : Int) (directory : CStr × Listing) : Report :=
  let scan := readEntries max directory.1 directory.2 {}
  ⟨directory.1, scan.listed, scan.totalsize⟩

theorem printed_readEntries : (readEntries max path entries scan).printed =
    scan.printed ++ (entries.calls path).map (report max) := by
  induction entries generalizing path scan with
  | nil => simp [readEntries, Listing.calls]
  | dots rest ih | other rest ih | file _ _ rest ih => rw [readEntries, ih, Listing.calls]
  | directory name inside rest ihInside ih =>
      simp only [readEntries, ih, Scan.finish, ihInside, Listing.calls, List.map_append,
        List.map_cons, List.append_assoc, List.nil_append, List.singleton_append]
      rfl

theorem printed_printStats :
    (printStats path max entries).2 = (visited path entries).map (report max) := by
  rw [printStats, Scan.finish, printed_readEntries, visited, List.map_append]
  rfl

/-- A file is listed if there is one, and one may be. -/
theorem listed_readEntries : (readEntries max path entries scan).listed ≠ [] ↔
    scan.listed ≠ [] ∨ 0 < max ∧ entries.HasFile := by
  induction entries generalizing path scan with
  | nil => simp [readEntries, Listing.HasFile]
  | dots rest ih | other rest ih | directory _ _ rest _ ih => rw [readEntries, ih, Listing.HasFile]
  | file name size rest ih =>
      rw [readEntries, ih, Listing.HasFile]
      by_cases earlier : scan.listed = []
      · rw [earlier, List.length_nil, Nat.cast_zero]
        split <;> simp [*]
      · split <;> simp [earlier]

theorem exact_iff_visited : Exact path max entries ↔
    ∀ directory ∈ visited path entries, (readEntries max directory.1 directory.2 {}).listed ≠ [] →
      directory.2.sum ≤ 2 ^ 63 - 1 →
        (readEntries max directory.1 directory.2 {}).totalsize = directory.2.sum := by
  rw [Exact, printed_printStats, List.forall₂_map_left_iff, List.forall₂_same]
  simp only [report, true_and]

/-- The shares are computed from the exact sums if and only if no directory beside a listed file
holds more than an `int` can. -/
theorem printStats_exact_iff : Exact path max entries ↔ Narrow path max entries := by
  rw [exact_iff_visited]
  constructor
  · intro exact_sums positive directory held file fits
    have listed : (readEntries max directory.1 directory.2 {}).listed ≠ [] :=
      listed_readEntries.mpr (.inr ⟨positive, file⟩)
    exact (totalsize_eq_sum_iff fits).mp (exact_sums directory held listed fits)
  · intro narrow directory held listed fits
    rcases listed_readEntries.mp listed with none | ⟨positive, file⟩
    · exact absurd rfl none
    · exact (totalsize_eq_sum_iff fits).mpr (narrow positive directory held file fits)

/-- A file beside a directory with 2 GiB in it. -/
def large : Listing :=
  .directory "sub".toList (.file "large".toList (2 ^ 31) .nil) (.file "small".toList 1 .nil)

theorem printStats_wraps : ¬ Exact ".".toList 1 large := by
  intro exact_sums
  have own : (".".toList, large) ∈ visited ".".toList large :=
    List.mem_append_right _ (List.mem_singleton_self _)
  have listed : (readEntries 1 ".".toList large {}).listed ≠ [] :=
    listed_readEntries.mpr (.inr ⟨one_pos, trivial⟩)
  have fits : large.sum ≤ 2 ^ 63 - 1 := by decide
  have total := exact_iff_visited.mp exact_sums _ own listed fits
  have narrow := (totalsize_eq_sum_iff fits).mp total _ List.mem_cons_self
  exact absurd narrow (by decide)

end Reports

end VoteCounting.Recitations.Stats
