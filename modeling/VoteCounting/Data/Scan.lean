import VoteCounting.Data.Counters

namespace VoteCounting

universe u v

namespace Scan

variable {α : Type u} {β : Type v} [LinearOrder β] {value : α → β} {start item other winner : α}
  {items : List α}

/-- An item takes the lead only from one of a smaller value. -/
def overtake (value : α → β) (best item : α) : α := if value best < value item then item else best

def leader (value : α → β) (start : α) (items : List α) : α := items.foldl (overtake value) start

/-- The items before are smaller, and those behind are not larger. -/
def First (value : α → β) (items : List α) (winner : α) : Prop :=
  ∃ before after, items = before ++ winner :: after ∧
    (∀ item ∈ before, value item < value winner) ∧ ∀ item ∈ after, value item ≤ value winner

theorem First.mem (first : First value items winner) : winner ∈ items := by
  obtain ⟨before, after, rfl, _, _⟩ := first
  simp

theorem First.bound (first : First value items winner) (member : item ∈ items) :
    value item ≤ value winner := by
  obtain ⟨before, after, rfl, smaller, bounded⟩ := first
  rcases List.mem_append.mp member with early | late
  · exact (smaller item early).le
  · rcases List.mem_cons.mp late with rfl | behind
    · exact le_refl _
    · exact bounded item behind

theorem First.cons (first : First value items winner) (smaller : value item < value winner) :
    First value (item :: items) winner := by
  obtain ⟨before, after, rfl, before_lt, after_le⟩ := first
  refine ⟨item :: before, after, rfl, fun other member => ?_, after_le⟩
  rcases List.mem_cons.mp member with rfl | early
  · exact smaller
  · exact before_lt other early

/-- An item that does not overtake the one before it changes nothing. -/
theorem First.insert (first : First value (start :: items) winner) (bounded : value item ≤ value start) :
    First value (start :: item :: items) winner := by
  obtain ⟨before, after, whole, before_lt, after_le⟩ := first
  cases before with
  | nil =>
      rw [List.nil_append, List.cons.injEq] at whole
      obtain ⟨rfl, rfl⟩ := whole
      refine ⟨[], item :: items, rfl, by simp, fun other member => ?_⟩
      rcases List.mem_cons.mp member with rfl | behind
      · exact bounded
      · exact after_le other behind
  | cons head before =>
      rw [List.cons_append, List.cons.injEq] at whole
      obtain ⟨rfl, rfl⟩ := whole
      have front := before_lt start List.mem_cons_self
      refine ⟨start :: item :: before, after, rfl, fun other member => ?_, after_le⟩
      rcases List.mem_cons.mp member with rfl | later
      · exact front
      · rcases List.mem_cons.mp later with rfl | early
        · exact lt_of_le_of_lt bounded front
        · exact before_lt other (List.mem_cons_of_mem _ early)

theorem first_leader (value : α → β) (start : α) (items : List α) :
    First value (start :: items) (leader value start items) := by
  induction items generalizing start with
  | nil => exact ⟨[], [], rfl, by simp, by simp⟩
  | cons item rest ih =>
      have later := ih (overtake value start item)
      rw [leader, List.foldl_cons, ← leader]
      by_cases overtaken : value start < value item
      · rw [overtake, if_pos overtaken] at later ⊢
        exact later.cons (lt_of_lt_of_le overtaken (later.bound List.mem_cons_self))
      · rw [overtake, if_neg overtaken] at later ⊢
        exact later.insert (not_lt.mp overtaken)

theorem leader_bound (member : item ∈ items) : value item ≤ value (leader value start items) :=
  (first_leader value start items).bound (List.mem_cons_of_mem _ member)

end Scan

namespace Counters

open Scan

variable {κ : Type u} [DecidableEq κ] {entries : List (Entry κ)} {start : Entry κ}

/-- Where names are listed once and some total is positive, the scan finds a largest total. -/
theorem total_leader (start : Entry κ) (unique : (names entries).Nodup) (zero : start.count = 0)
    (positive : ∃ name, 0 < total entries name) :
    0 < total entries (leader Entry.count start entries).name ∧
      ∀ other, total entries other ≤ total entries (leader Entry.count start entries).name := by
  have counted : ∀ other, total entries other ≤ (leader Entry.count start entries).count ∨
      total entries other = 0 := by
    intro other
    by_cases listed : other ∈ names entries
    · obtain ⟨entry, member, rfl⟩ := List.mem_map.mp listed
      rw [total_of_mem unique member]
      exact .inl (leader_bound member)
    · exact .inr (total_of_absent listed)
  obtain ⟨name, some⟩ := positive
  have above : 0 < (leader Entry.count start entries).count := by
    rcases counted name with le | none <;> omega
  rcases List.mem_cons.mp (first_leader Entry.count start entries).mem with same | member
  · rw [same, zero] at above
    exact absurd above (lt_irrefl 0)
  · rw [total_of_mem unique member]
    refine ⟨above, fun other => ?_⟩
    rcases counted other with le | none
    · exact le
    · rw [none]
      exact above.le

end Counters

end VoteCounting
