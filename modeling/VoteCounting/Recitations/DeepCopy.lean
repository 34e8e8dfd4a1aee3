import VoteCounting.Data.Buffer
import VoteCounting.Data.CString
import Mathlib.Logic.Function.Basic

namespace VoteCounting.Recitations.DeepCopy

open Buffer

abbrev Bytes := List UInt8

inductive Kind where
  | directory
  | regular
  | other
deriving DecidableEq, Repr

/-- An entry that `readdir` returns, with its content and what each `read` of it returns; behind
the list it returns 0. -/
structure Entry where
  name : CStr
  kind : Kind
  content : Bytes := []
  reads : List Int := []
deriving DecidableEq, Repr

def Entry.Skipped (entry : Entry) : Prop :=
  entry.kind = .directory ∨ entry.name = ".".toList ∨ entry.name = "..".toList

instance : DecidablePred Entry.Skipped := fun _ => inferInstanceAs (Decidable (_ ∨ _ ∨ _))

/-- The buffer, and the files of the new directory. -/
structure Copy where
  buff : Bytes
  new : CStr → Option Bytes

/-- The loop over one file: what is left to read, the buffer, the new file and the offset in it. -/
def copyFile : List Int → Bytes → Bytes → Bytes → Nat → Bytes × Bytes
  | [], _, buff, file, _ => (buff, file)
  | len :: reads, content, buff, file, offset =>
      -- 0 ends the loop, and an error leaves it
      if len = 0 ∨ len = -1 then (buff, file)
      else
        let buff := fill buff (content.take len.toNat)
        -- `sizeof(buff)` bytes are written, not `len`
        copyFile reads (content.drop len.toNat) buff (write file offset buff) (offset + buff.length)

/-- The new file is opened without `O_TRUNC`. -/
def copyEntry (copy : Copy) (entry : Entry) : Copy :=
  let buff := fill copy.buff [0]
  if entry.Skipped then { copy with buff }
  else
    let result := copyFile entry.reads entry.content buff ((copy.new entry.name).getD []) 0
    ⟨result.1, Function.update copy.new entry.name (some result.2)⟩

def deepCopy (old : List Entry) (new : CStr → Option Bytes) : CStr → Option Bytes :=
  (old.foldl copyEntry ⟨List.replicate 1024 0, new⟩).new

/-- Reads of at most `count` bytes each that come to the end of a file. -/
structure ReadsAll (count : Nat) (content : Bytes) (reads : List Int) : Prop where
  positive : ∀ len ∈ reads, 0 < len
  few : ∀ len ∈ reads, len ≤ count
  whole : reads.sum = content.length

/-- A directory as the loop finds it. -/
structure Listing (old : List Entry) : Prop where
  distinct : (old.map Entry.name).Nodup
  few : ∀ entry ∈ old, ∀ len ∈ entry.reads, len ≤ 1024
  regular : ∀ entry ∈ old, entry.kind = .regular →
    ¬ entry.Skipped ∧ ReadsAll 1024 entry.content entry.reads

/-- Under the name of each regular file is a file with its bytes. -/
def Copied (old : List Entry) (new : CStr → Option Bytes) : Prop :=
  ∀ entry ∈ old, entry.kind = .regular → new entry.name = some entry.content

section Files

variable {count offset : Nat} {content buff file : Bytes} {reads : List Int}

theorem length_copyFile (size : buff.length = count) (few : ∀ len ∈ reads, len ≤ count) :
    (copyFile reads content buff file offset).1.length = count := by
  induction reads generalizing content buff file offset with
  | nil => exact size
  | cons len reads ih =>
      rw [copyFile]
      split
      · exact size
      · apply ih
        · have most := few len List.mem_cons_self
          rw [length_fill, List.length_take, size]
          omega
        · exact fun other held => few other (List.mem_cons_of_mem _ held)

namespace ReadsAll

theorem head {len : Int} (all : ReadsAll count content (len :: reads)) :
    0 < len ∧ len ≤ count ∧ len.toNat ≤ content.length := by
  have positive := all.positive len List.mem_cons_self
  have rest : 0 ≤ reads.sum :=
    List.sum_nonneg fun other held => le_of_lt (all.positive other (List.mem_cons_of_mem _ held))
  have whole := all.whole
  rw [List.sum_cons] at whole
  exact ⟨positive, all.few len List.mem_cons_self, by omega⟩

theorem tail {len : Int} (all : ReadsAll count content (len :: reads)) :
    ReadsAll count (content.drop len.toNat) reads where
  positive other held := all.positive other (List.mem_cons_of_mem _ held)
  few other held := all.few other (List.mem_cons_of_mem _ held)
  whole := by
    obtain ⟨positive, _, inside⟩ := all.head
    have whole := all.whole
    rw [List.sum_cons] at whole
    rw [List.length_drop]
    omega

theorem length_le (all : ReadsAll count content reads) :
    content.length ≤ count * reads.length := by
  have most := List.sum_le_card_nsmul reads count all.few
  rw [nsmul_eq_mul, all.whole, mul_comm] at most
  exact_mod_cast most

/-- All reads fill the buffer exactly if they are as few as the file allows. -/
theorem full_iff (all : ReadsAll count content reads) :
    (∀ len ∈ reads, len = count) ↔ count * reads.length ≤ content.length := by
  induction reads generalizing content with
  | nil => simp
  | cons len reads ih =>
      obtain ⟨positive, few, inside⟩ := all.head
      have rest := ih all.tail
      rw [List.length_drop] at rest
      rw [List.forall_mem_cons, rest, List.length_cons, Nat.mul_succ]
      constructor
      · rintro ⟨rfl, fits⟩
        omega
      · intro fits
        have most := all.tail.length_le
        rw [List.length_drop] at most
        omega

end ReadsAll

/-- Each round writes a whole buffer; the file has its content if each read filled the buffer. -/
theorem copyFile_written (size : buff.length = count) (all : ReadsAll count content reads)
    (inside : offset ≤ file.length) :
    ∃ written, (copyFile reads content buff file offset).2 = write file offset written ∧
      written.length = count * reads.length ∧
      ((∀ len ∈ reads, len = count) → written = content) := by
  induction reads generalizing content buff file offset with
  | nil =>
      have empty : content = [] := by
        have whole := all.whole
        rw [List.sum_nil] at whole
        exact List.eq_nil_of_length_eq_zero (by omega)
      exact ⟨[], write_nil.symm, rfl, fun _ => empty.symm⟩
  | cons len reads ih =>
      obtain ⟨positive, few, within⟩ := all.head
      have taken : (content.take len.toNat).length = len.toNat := by
        rw [List.length_take]
        omega
      have filled : (fill buff (content.take len.toNat)).length = count := by
        rw [length_fill]
        omega
      obtain ⟨written, result, length, complete⟩ := ih filled all.tail
        (le_length_write inside)
      refine ⟨fill buff (content.take len.toNat) ++ written, ?_, ?_, ?_⟩
      · rw [copyFile, if_neg (by omega), result, write_write inside]
      · rw [List.length_append, filled, length, List.length_cons, Nat.mul_succ, Nat.add_comm]
      · intro full
        obtain ⟨own, others⟩ := List.forall_mem_cons.mp full
        rw [fill_exact (by omega), complete others, List.take_append_drop]

/-- A copy is exact if each read filled the buffer and the old file was not longer. -/
theorem copyFile_exact_iff (size : buff.length = count) (all : ReadsAll count content reads) :
    (copyFile reads content buff file 0).2 = content ↔
      (∀ len ∈ reads, len = count) ∧ file.length ≤ content.length := by
  obtain ⟨written, result, length, complete⟩ := copyFile_written size all (Nat.zero_le file.length)
  rw [result, write_start]
  constructor
  · intro same
    have longest := congrArg List.length same
    rw [length_fill, length] at longest
    exact ⟨all.full_iff.mpr (by omega), by omega⟩
  · rintro ⟨full, short⟩
    have own := complete full
    subst own
    exact fill_exact short

end Files

section Directories

variable {old before after : List Entry} {entry : Entry} {copy : Copy} {name : CStr}
  {new : CStr → Option Bytes}

/-- A file under another name is left alone. -/
theorem copyEntry_other (other : entry.name ≠ name) :
    (copyEntry copy entry).new name = copy.new name := by
  rw [copyEntry]
  split
  · rfl
  · exact Function.update_of_ne other.symm _ _

theorem foldl_copyEntry_other (others : name ∉ old.map Entry.name) :
    (old.foldl copyEntry copy).new name = copy.new name := by
  induction old generalizing copy with
  | nil => rfl
  | cons first rest ih =>
      rw [List.map_cons, List.mem_cons, not_or] at others
      rw [List.foldl_cons, ih others.2, copyEntry_other (Ne.symm others.1)]

theorem length_copyEntry (size : copy.buff.length = 1024) (few : ∀ len ∈ entry.reads, len ≤ 1024) :
    (copyEntry copy entry).buff.length = 1024 := by
  have cleared : (fill copy.buff [0]).length = 1024 := by
    rw [length_fill, size]
    rfl
  rw [copyEntry]
  split
  · exact cleared
  · exact length_copyFile cleared few

theorem length_foldl_copyEntry (size : copy.buff.length = 1024)
    (few : ∀ entry ∈ old, ∀ len ∈ entry.reads, len ≤ 1024) :
    (old.foldl copyEntry copy).buff.length = 1024 := by
  induction old generalizing copy with
  | nil => exact size
  | cons first rest ih =>
      obtain ⟨own, others⟩ := List.forall_mem_cons.mp few
      exact ih (length_copyEntry size own) others

/-- The file of one entry is what the loop over it makes of the earlier one. -/
theorem deepCopy_entry (new : CStr → Option Bytes) (listing : Listing old) (held : entry ∈ old)
    (regular : entry.kind = .regular) :
    ∃ buff, buff.length = 1024 ∧ deepCopy old new entry.name = some
      (copyFile entry.reads entry.content buff ((new entry.name).getD []) 0).2 := by
  obtain ⟨before, after, rfl⟩ := List.append_of_mem held
  have distinct := listing.distinct
  rw [List.map_append, List.map_cons, List.nodup_append] at distinct
  obtain ⟨_, later, apart⟩ := distinct
  have notBefore : entry.name ∉ before.map Entry.name := fun found =>
    apart _ found _ List.mem_cons_self rfl
  have notAfter : entry.name ∉ after.map Entry.name := (List.nodup_cons.mp later).1
  have start : (Copy.mk (List.replicate 1024 0) new).buff.length = 1024 := List.length_replicate
  have size := length_foldl_copyEntry start fun other found =>
    listing.few other (List.mem_append_left _ found)
  rw [deepCopy, List.foldl_append, List.foldl_cons, foldl_copyEntry_other notAfter, copyEntry,
    if_neg (listing.regular entry held regular).1, foldl_copyEntry_other notBefore]
  exact ⟨_, by rw [length_fill, size]; rfl, Function.update_self ..⟩

/-- The earlier file under the name of a regular file is not longer, and each read of the file
fills the buffer. -/
def Fits (old : List Entry) (new : CStr → Option Bytes) : Prop :=
  ∀ entry ∈ old, entry.kind = .regular →
    (∀ len ∈ entry.reads, len = 1024) ∧
      ∀ earlier, new entry.name = some earlier → earlier.length ≤ entry.content.length

theorem entry_exact_iff (listing : Listing old) (held : entry ∈ old)
    (regular : entry.kind = .regular) :
    deepCopy old new entry.name = some entry.content ↔ (∀ len ∈ entry.reads, len = 1024) ∧
      ∀ earlier, new entry.name = some earlier → earlier.length ≤ entry.content.length := by
  obtain ⟨buff, size, result⟩ := deepCopy_entry new listing held regular
  have all : ReadsAll 1024 entry.content entry.reads := (listing.regular entry held regular).2
  rw [result, Option.some.injEq, copyFile_exact_iff size all]
  cases new entry.name <;> simp

/-- The copy of a directory is exact if and only if every read of a regular file filled the buffer
and no longer file was in its place. -/
theorem deepCopy_exact_iff (listing : Listing old) :
    Copied old (deepCopy old new) ↔ Fits old new :=
  forall₂_congr fun _ held => forall_congr' fun regular => entry_exact_iff listing held regular

/-- A file that one `read` returns whole. -/
def readme (content : Bytes) : Entry :=
  ⟨"README.md".toList, .regular, content, [content.length]⟩

theorem readme_kept {content : Bytes} : ¬ (readme content).Skipped := by
  have name : (readme content).name = "README.md".toList := rfl
  rintro (kind | dot | dots)
  · cases kind
  · exact absurd (name.symm.trans dot) (by decide)
  · exact absurd (name.symm.trans dots) (by decide)

theorem readme_listing {content : Bytes} (some_bytes : 0 < content.length)
    (short : content.length ≤ 1024) : Listing [readme content] where
  distinct := List.nodup_singleton _
  few := List.forall_mem_singleton.mpr (List.forall_mem_singleton.mpr (by omega))
  regular := List.forall_mem_singleton.mpr fun _ => ⟨readme_kept, {
    positive := List.forall_mem_singleton.mpr (by omega)
    few := List.forall_mem_singleton.mpr (by omega)
    whole := List.sum_singleton }⟩

theorem deepCopy_exact_full : Copied [readme (List.replicate 1024 7)]
    (deepCopy [readme (List.replicate 1024 7)] fun _ => none) := by
  have size : (List.replicate 1024 (7 : UInt8)).length = 1024 := List.length_replicate
  apply (deepCopy_exact_iff (readme_listing (by omega) (by omega))).mpr
  exact List.forall_mem_singleton.mpr fun _ =>
    ⟨List.forall_mem_singleton.mpr (congrArg Nat.cast size), fun _ absent => by cases absent⟩

/-- The bytes of `# CSCI4061-rec6`. -/
def title : Bytes := [35, 32, 67, 83, 67, 73, 52, 48, 54, 49, 45, 114, 101, 99, 54]

/-- A file shorter than the buffer is not copied as it is. -/
theorem deepCopy_pads : Listing [readme title] ∧
    ¬ Copied [readme title] (deepCopy [readme title] fun _ => none) := by
  have listing : Listing [readme title] := readme_listing (by decide) (by decide)
  have held : readme title ∈ [readme title] := List.mem_singleton_self _
  refine ⟨listing, fun copied => ?_⟩
  have full := ((entry_exact_iff listing held rfl).mp (copied (readme title) held rfl)).1
  have filled : (15 : Int) = 1024 := full 15 (List.mem_singleton_self _)
  omega

end Directories

end VoteCounting.Recitations.DeepCopy
