import Mathlib.Data.List.Infix
import Mathlib.Tactic

namespace VoteCounting

namespace Paths

universe u

variable {α : Type u} {sep : α} {path other : List α} {word last : List α}

/-- `path` is a directory somewhere above `other`. -/
def Inside (sep : α) (path other : List α) : Prop := path ++ [sep] <+: other

instance [DecidableEq α] : Decidable (Inside sep path other) :=
  inferInstanceAs (Decidable (_ <+: _))

theorem inside_append (word : List α) : Inside sep path (path ++ sep :: word) :=
  ⟨word, by simp⟩

theorem Inside.length_lt (inside : Inside sep path other) : path.length < other.length := by
  have bound := inside.length_le
  simp at bound
  omega

theorem Inside.leads (inside : Inside sep path other) : path <+: other :=
  (List.prefix_append path [sep]).trans inside

theorem Inside.of_leads {deep : List α} (inside : Inside sep path other) (before : other <+: deep) :
    Inside sep path deep :=
  List.IsPrefix.trans inside before

/-- A directory above `path ++ sep :: word` is `path` or above it. -/
theorem Inside.length_le (inside : Inside sep other (path ++ sep :: word)) (free : sep ∉ word) :
    other.length ≤ path.length := by
  by_contra longer
  obtain ⟨rest, whole⟩ := inside
  have first : (other ++ [sep] ++ rest)[other.length]? = some sep := by simp
  rw [whole, List.getElem?_append_right (by omega)] at first
  obtain ⟨k, offset⟩ : ∃ k, other.length - path.length = k + 1 :=
    ⟨other.length - path.length - 1, by omega⟩
  rw [offset, List.getElem?_cons_succ] at first
  exact free (List.mem_of_getElem? first)

theorem append_sep_inj (same : path ++ sep :: word = other ++ sep :: last) (free : sep ∉ word)
    (otherFree : sep ∉ last) : path = other ∧ word = last := by
  have first : path.length ≤ other.length :=
    Inside.length_le (same ▸ inside_append word) otherFree
  have second : other.length ≤ path.length :=
    Inside.length_le (same ▸ inside_append last) free
  obtain ⟨paths, rest⟩ := List.append_inj same (le_antisymm first second)
  exact ⟨paths, (List.cons.inj rest).2⟩

/-- Directories above one path are one above the other. -/
theorem Inside.of_length_lt {deep : List α} (first : Inside sep path deep) (second : other <+: deep)
    (shorter : path.length < other.length) : Inside sep path other :=
  List.prefix_of_prefix_length_le first second (by simp; omega)

/-- A word without the separator is found on one side of it. -/
theorem infix_append_sep (found : word <:+: path ++ sep :: other) (free : sep ∉ word) :
    word <:+: path ∨ word <:+: other := by
  obtain ⟨before, after, whole⟩ := found
  rw [List.append_assoc] at whole
  rcases List.append_eq_append_iff.mp whole with ⟨front, rfl, rest⟩ | ⟨front, rfl, rest⟩
  · rcases List.append_eq_append_iff.mp rest with ⟨back, rfl, _⟩ | ⟨back, rfl, behind⟩
    · exact .inl ⟨before, back, by simp⟩
    · cases back with
      | nil => exact .inl ⟨before, [], by simp⟩
      | cons c back =>
          obtain ⟨rfl, _⟩ := List.cons.inj behind
          exact absurd (by simp) free
  · cases front with
    | nil =>
        cases word with
        | nil => exact .inl ⟨path, [], by simp⟩
        | cons c word =>
            obtain ⟨rfl, _⟩ := List.cons.inj rest
            exact absurd List.mem_cons_self free
    | cons c front =>
        obtain ⟨_, whole⟩ := List.cons.inj rest
        exact .inr ⟨front, after, by simp [whole]⟩

end Paths

end VoteCounting
