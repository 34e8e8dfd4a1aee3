import Mathlib.Tactic
import Mathlib.Data.List.FinRange

namespace VoteCounting.ExchangeSort

/-! The sort whose two loops both run over all positions.

The comparison goes one way whichever of the two positions is the lower.  A pass leaves a
greatest item at its own position, so the prefix in front of the next pass is sorted; no pass
relies on what the passes before it left behind the prefix.
-/

universe u v

variable {α : Type u} {β : Type v} [LinearOrder β] {n : ℕ}

/-- A loop over all positions keeps what speaks of the number of positions done. -/
theorem foldl_invariant {σ : Type*} {body : σ → Fin n → σ} (Inv : ℕ → σ → Prop) {start : σ}
    (initial : Inv 0 start)
    (kept : ∀ (k : Fin n) (state : σ), Inv k state → Inv (k + 1) (body state k)) :
    Inv n (Fin.foldl n body start) := by
  induction n with
  | zero => simpa using initial
  | succ n ih =>
      rw [Fin.foldl_succ_last]
      exact kept (Fin.last n) _ (ih fun k state holds => kept k.castSucc state holds)

/-- Two loops in step. -/
theorem foldl_hom {σ τ : Type*} (view : σ → τ) {body : σ → Fin n → σ}
    {image : τ → Fin n → τ} {start : σ}
    (same : ∀ state k, view (body state k) = image (view state) k) :
    view (Fin.foldl n body start) = Fin.foldl n image (view start) := by
  induction n with
  | zero => simp
  | succ n ih =>
      have front : view (Fin.foldl n (fun state k => body state k.castSucc) start) =
          Fin.foldl n (fun state k => image state k.castSucc) (view start) :=
        ih fun state k => same state k.castSucc
      rw [Fin.foldl_succ_last, Fin.foldl_succ_last, same, front]

/-- The two items change places where the first key is the smaller one. -/
def exchange (key : α → β) (items : Fin n → α) (i j : Fin n) : Fin n → α :=
  if key (items i) < key (items j) then items ∘ Equiv.swap i j else items

def pass (key : α → β) (items : Fin n → α) (i : Fin n) : Fin n → α :=
  Fin.foldl n (fun items j => exchange key items i j) items

def sort (key : α → β) (items : Fin n → α) : Fin n → α := Fin.foldl n (pass key) items

section Sorting

variable {key : α → β} {items start : Fin n → α} {i j : Fin n}

/-- The same items in another order. -/
def Rearranged (items start : Fin n → α) : Prop := ∃ order : Equiv.Perm (Fin n), items = start ∘ order

theorem Rearranged.refl (items : Fin n → α) : Rearranged items items := ⟨Equiv.refl _, rfl⟩

theorem Rearranged.perm (same : Rearranged items start) : (List.ofFn items).Perm (List.ofFn start) := by
  obtain ⟨order, rfl⟩ := same
  exact order.ofFn_comp_perm start

theorem Rearranged.exchange (same : Rearranged items start) (i j : Fin n) :
    Rearranged (exchange key items i j) start := by
  obtain ⟨order, rfl⟩ := same
  rw [ExchangeSort.exchange]
  split
  · exact ⟨(Equiv.swap i j).trans order, rfl⟩
  · exact ⟨order, rfl⟩

theorem Rearranged.pass (same : Rearranged items start) (i : Fin n) :
    Rearranged (pass key items i) start :=
  foldl_invariant (fun _ items => Rearranged items start) same fun j _ same => same.exchange i j

theorem sort_perm (key : α → β) (items : Fin n → α) :
    (List.ofFn (sort key items)).Perm (List.ofFn items) := by
  have same : Rearranged (sort key items) items :=
    foldl_invariant (fun _ after => Rearranged after items) (.refl items) fun i _ same => same.pass i
  exact same.perm

/-- The keys of the first `k` positions ascend. -/
def SortedTo (key : α → β) (k : ℕ) (items : Fin n → α) : Prop :=
  ∀ p q : Fin n, p ≤ q → (q : ℕ) < k → key (items p) ≤ key (items q)

/-- Pass `i` after `k` comparisons: the item at `i` is as great as those it was compared with. -/
structure Passing (key : α → β) (i : Fin n) (k : ℕ) (items : Fin n → α) : Prop where
  sorted : SortedTo key i items
  greatest : ∀ p : Fin n, (p : ℕ) < k → key (items p) ≤ key (items i)

theorem exchange_of_le (ordered : key (items j) ≤ key (items i)) : exchange key items i j = items := by
  rw [exchange, if_neg (not_lt.mpr ordered)]

theorem exchange_own (smaller : key (items i) < key (items j)) :
    exchange key items i j i = items j := by
  rw [exchange, if_pos smaller]
  simp

theorem exchange_met (smaller : key (items i) < key (items j)) :
    exchange key items i j j = items i := by
  rw [exchange, if_pos smaller]
  simp

theorem exchange_other {p : Fin n} (notOwn : p ≠ i) (notMet : p ≠ j) :
    exchange key items i j p = items p := by
  rw [exchange]
  split
  · simp [Equiv.swap_apply_of_ne_of_ne notOwn notMet]
  · rfl

/-- The smaller item that goes to `j` is as great as what stands in front of `j`. -/
theorem Passing.sorted_exchange (passing : Passing key i j items)
    (smaller : key (items i) < key (items j)) :
    SortedTo key i (exchange key items i j) := by
  intro p q below inside
  have qOwn : q ≠ i := by
    rintro rfl
    exact lt_irrefl _ inside
  have pOwn : p ≠ i := by
    rintro rfl
    exact absurd inside (by simpa using below)
  by_cases qMet : q = j
  · subst qMet
    rw [exchange_met smaller]
    by_cases pMet : p = q
    · rw [pMet, exchange_met smaller]
    · -- What stands before `j` was compared with the item at `i` already.
      rw [exchange_other pOwn pMet]
      exact passing.greatest p (Fin.lt_def.mp (lt_of_le_of_ne below pMet))
  · rw [exchange_other qOwn qMet]
    by_cases pMet : p = j
    · rw [pMet, exchange_met smaller]
      exact smaller.le.trans (passing.sorted j q (pMet ▸ below) inside)
    · rw [exchange_other pOwn pMet]
      exact passing.sorted p q below inside

theorem Passing.greatest_exchange (passing : Passing key i j items)
    (smaller : key (items i) < key (items j)) {p : Fin n} (early : (p : ℕ) < j + 1) :
    key (exchange key items i j p) ≤ key (exchange key items i j i) := by
  rw [exchange_own smaller]
  by_cases pMet : p = j
  · rw [pMet, exchange_met smaller]
    exact smaller.le
  · by_cases pOwn : p = i
    · rw [pOwn, exchange_own smaller]
    · rw [exchange_other pOwn pMet]
      have before : (p : ℕ) < j := by
        have unequal : (p : ℕ) ≠ j := fun same => pMet (Fin.ext same)
        omega
      exact (passing.greatest p before).trans smaller.le

theorem Passing.step (passing : Passing key i j items) :
    Passing key i (j + 1) (exchange key items i j) := by
  by_cases smaller : key (items i) < key (items j)
  · exact ⟨passing.sorted_exchange smaller, fun p early => passing.greatest_exchange smaller early⟩
  · rw [exchange_of_le (not_lt.mp smaller)]
    refine ⟨passing.sorted, fun p early => ?_⟩
    rcases Nat.lt_succ_iff_lt_or_eq.mp early with before | last
    · exact passing.greatest p before
    · rw [Fin.ext last]
      exact not_lt.mp smaller

theorem pass_sortedTo (sorted : SortedTo key i items) : SortedTo key (i + 1) (pass key items i) := by
  have done : Passing key i n (pass key items i) :=
    foldl_invariant (Passing key i) ⟨sorted, fun _ early => absurd early (Nat.not_lt_zero _)⟩
      fun _ _ passing => passing.step
  intro p q below inside
  rcases Nat.lt_succ_iff_lt_or_eq.mp inside with before | last
  · exact done.sorted p q below before
  · rw [Fin.ext last]
    exact done.greatest p p.isLt

theorem sort_sorted (key : α → β) (items : Fin n → α) {p q : Fin n} (below : p ≤ q) :
    key (sort key items p) ≤ key (sort key items q) := by
  have sorted : SortedTo key n (sort key items) :=
    foldl_invariant (SortedTo key) (fun _ _ _ inside => absurd inside (Nat.not_lt_zero _))
      fun _ _ sorted => pass_sortedTo sorted
  exact sorted p q below q.isLt

end Sorting

end VoteCounting.ExchangeSort
