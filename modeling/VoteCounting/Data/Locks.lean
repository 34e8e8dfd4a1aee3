import Mathlib.Logic.Function.Basic
import Mathlib.Tactic

namespace VoteCounting

universe u v

/-- A lock is taken or free; it does not record who took it. -/
abbrev Locks (κ : Type v) := κ → Bool

namespace Locks

variable {ι : Type u} {κ : Type v}

def take [DecidableEq κ] (locks : Locks κ) (lock : κ) : Locks κ := Function.update locks lock true

def release [DecidableEq κ] (locks : Locks κ) (lock : κ) : Locks κ := Function.update locks lock false

/-- Every taken lock has one holder, and only taken locks have one. -/
structure Held (locks : Locks κ) (holds : ι → κ → Prop) : Prop where
  single : ∀ {thread other lock}, holds thread lock → holds other lock → thread = other
  taken_iff : ∀ {lock}, locks lock = true ↔ ∃ thread, holds thread lock

namespace Held

variable {locks : Locks κ} {holds after : ι → κ → Prop} {thread : ι} {lock : κ}

theorem congr (held : Held locks holds) (same : ∀ other key, after other key ↔ holds other key) :
    Held locks after where
  single left right := held.single ((same _ _).mp left) ((same _ _).mp right)
  taken_iff := by
    intro key
    simp only [same, held.taken_iff]

theorem nobody (held : Held locks holds) (free : locks lock = false) : ¬ holds thread lock := by
  intro mine
  rw [held.taken_iff.mpr ⟨thread, mine⟩] at free
  cases free

/-- Where no holder is stopped and only a taken lock stops a thread, some thread goes on. -/
theorem progress (held : Held locks holds) {enabled : ι → Prop}
    (stopped : ¬ enabled thread → ∃ key, locks key = true)
    (holders : ∀ other key, holds other key → enabled other) : ∃ other, enabled other := by
  by_cases free : enabled thread
  · exact ⟨thread, free⟩
  · obtain ⟨key, taken⟩ := stopped free
    obtain ⟨holder, holding⟩ := held.taken_iff.mp taken
    exact ⟨holder, holders holder key holding⟩

variable [DecidableEq κ]

theorem take (held : Held locks holds) (free : locks lock = false)
    (grown : ∀ other key, after other key ↔ holds other key ∨ other = thread ∧ key = lock) :
    Held (locks.take lock) after where
  single left right := by
    rcases (grown _ _).mp left with left | ⟨rfl, rfl⟩ <;>
      rcases (grown _ _).mp right with right | ⟨rfl, same⟩
    · exact held.single left right
    · exact absurd (same ▸ left) (held.nobody free)
    · exact absurd right (held.nobody free)
    · rfl
  taken_iff := by
    intro key
    by_cases same : key = lock
    · subst same
      simp only [Locks.take, Function.update_self, true_iff]
      exact ⟨thread, (grown _ _).mpr (.inr ⟨rfl, rfl⟩)⟩
    · simp [Locks.take, grown, same, held.taken_iff]

theorem release (held : Held locks holds) (mine : holds thread lock)
    (shrunk : ∀ other key, after other key ↔ holds other key ∧ ¬ (other = thread ∧ key = lock)) :
    Held (locks.release lock) after where
  single left right := held.single ((shrunk _ _).mp left).1 ((shrunk _ _).mp right).1
  taken_iff := by
    intro key
    by_cases same : key = lock
    · subst same
      simp only [Locks.release, Function.update_self, Bool.false_eq_true, false_iff]
      rintro ⟨other, remains⟩
      obtain ⟨still, not_mine⟩ := (shrunk _ _).mp remains
      exact not_mine ⟨held.single still mine, rfl⟩
    · simp [Locks.release, shrunk, same, held.taken_iff]

end Held

end Locks

end VoteCounting
