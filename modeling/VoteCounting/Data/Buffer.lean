import Mathlib.Tactic

namespace VoteCounting.Buffer

universe u

variable {α : Type u} {buffer file bytes first second : List α} {offset : Nat}

/-- The bytes go to the front, what they do not cover stays. -/
def fill (buffer bytes : List α) : List α := bytes ++ buffer.drop bytes.length

/-- A write at an offset within the file. -/
def write (file : List α) (offset : Nat) (bytes : List α) : List α :=
  file.take offset ++ fill (file.drop offset) bytes

theorem length_fill : (fill buffer bytes).length = max buffer.length bytes.length := by
  rw [fill, List.length_append, List.length_drop]
  omega

theorem fill_exact (covered : buffer.length ≤ bytes.length) : fill buffer bytes = bytes := by
  rw [fill, List.drop_of_length_le covered, List.append_nil]

@[simp]
theorem fill_nil : fill buffer [] = buffer := by simp [fill]

@[simp]
theorem write_nil : write file offset [] = file := by simp [write]

/-- What is written where it was read changes nothing. -/
theorem write_own (file : List α) (offset count : Nat) :
    write file offset ((file.drop offset).take count) = file := by
  have whole : fill (file.drop offset) ((file.drop offset).take count) = file.drop offset := by
    rw [fill, List.length_take]
    rcases le_total count (file.drop offset).length with inside | beyond
    · rw [min_eq_left inside, List.take_append_drop]
    · rw [min_eq_right beyond, List.take_of_length_le beyond, List.drop_length, List.append_nil]
  rw [write, whole, List.take_append_drop]

theorem write_start : write file 0 bytes = fill file bytes := by simp [write]

theorem le_length_write (inside : offset ≤ file.length) :
    offset + bytes.length ≤ (write file offset bytes).length := by
  rw [write, List.length_append, List.length_take, length_fill]
  omega

/-- Two writes, the second where the first ended, are one. -/
theorem write_write (inside : offset ≤ file.length) :
    write (write file offset first) (offset + first.length) second =
      write file offset (first ++ second) := by
  have front : (file.take offset).length = offset := by
    rw [List.length_take]
    omega
  have kept : (write file offset first).take (offset + first.length) =
      file.take offset ++ first := by
    rw [write, fill, ← List.append_assoc, List.take_left' (by simp [front])]
  have rest : (write file offset first).drop (offset + first.length) =
      (file.drop offset).drop first.length := by
    rw [write, fill, ← List.append_assoc, List.drop_left' (by simp [front])]
  rw [write, kept, rest]
  simp [write, fill, Nat.add_assoc]

end VoteCounting.Buffer
