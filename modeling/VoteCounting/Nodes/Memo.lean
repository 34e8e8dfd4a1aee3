import VoteCounting.Nodes.Root

namespace VoteCounting.Nodes

/-- A forest whose finished nodes have their count, and whose other nodes have only their children
counted. -/
structure Memoised (size : Nat) (node : NodeArray) : Prop where
  forest : Branching size (kids node)
  counted : ∀ y < size, (node y).status = true → (node y).numDescendant = numBelow size (kids node) y
  finished : ∀ y < size, (node y).status = true →
    ∀ z, Below (kids node) y z → (node z).status = true
  fresh : ∀ y < size, (node y).status = false → (node y).numDescendant = (kids node y).length

section Memo

variable {size fuel num : Nat} {node : NodeArray}

/-- What is to be counted is the number of descendants. -/
theorem Memoised.values (memo : Memoised size node) (inside : num < size) :
    Values node num (numBelow size (kids node)) where
  settled y under _ status := (memo.counted y (memo.forest.below_inside inside under) status).symm
  fresh y under _ status := by
    have present := memo.forest.below_inside inside under
    rw [memo.fresh y present status, numBelow_eq memo.forest present]
  closed y under status child held :=
    memo.finished y (memo.forest.below_inside inside under) status child (.single held)

/-- A finished node keeps its count. -/
theorem Memoised.kept {after : NodeArray} (memo : Memoised size node) (inside : num < size)
    (fresh : (node num).status = false)
    (counted : Counted node num (numBelow size (kids node)) after) {y : Nat}
    (status : (node y).status = true) : (after y).numDescendant = (node y).numDescendant := by
  by_cases under : Below (kids node) num y
  · have other : y ≠ num := by
      rintro rfl
      rw [fresh] at status
      cases status
    have present := memo.forest.below_inside inside under
    rw [counted.under under other, memo.counted y present status]
    rfl
  · rw [counted.kept y under]

/-- The array is as before, with more nodes finished. -/
theorem Memoised.after {after : NodeArray} (memo : Memoised size node) (inside : num < size)
    (fresh : (node num).status = false)
    (counted : Counted node num (numBelow size (kids node)) after) : Memoised size after where
  forest := counted.kids_eq ▸ memo.forest
  counted y present status := by
    rw [counted.kids_eq]
    rcases counted.status_iff.mp status with under | before
    · by_cases own : y = num
      · rw [own, counted.own, memo.fresh num inside fresh, ← numBelow_eq memo.forest inside]
        rfl
      · rw [counted.under under own]
        rfl
    · rw [memo.kept inside fresh counted before, memo.counted y present before]
  finished y present status z below := by
    rw [counted.kids_eq] at below
    apply counted.status_iff.mpr
    rcases counted.status_iff.mp status with under | before
    · exact .inl (under.trans below)
    · exact .inr (memo.finished y present before z below)
  fresh y present status := by
    have apart : ¬ Below (kids node) num y := fun under => by
      rw [counted.status_iff.mpr (.inl under)] at status
      cases status
    rw [counted.kids_eq, counted.kept y apart]
    rw [counted.kept y apart] at status
    exact memo.fresh y present status

/-- A call for an unfinished node counts its descendants, finishes them with it, and leaves the
finished nodes their counts. -/
theorem numOfDescendant_memoised (memo : Memoised size node) (inside : num < size)
    (fresh : (node num).status = false) (enough : size ≤ fuel) :
    ∃ after, numOfDescendant fuel node num = some (numBelow size (kids node) num, after) ∧
      (∀ y, (after y).status = true ↔ Below (kids node) num y ∨ (node y).status = true) ∧
      (∀ y, (node y).status = true → (after y).numDescendant = (node y).numDescendant) ∧
      Memoised size after := by
  have few : (descendants size (kids node) num).card ≤ fuel := card_descendants_le.trans enough
  obtain ⟨after, computed, counted⟩ :=
    numOfDescendant_counted memo.forest inside (memo.values inside) few
  rw [memo.fresh num inside fresh, ← numBelow_eq memo.forest inside] at computed
  exact ⟨after, computed, fun _ => counted.status_iff,
    fun _ status => memo.kept inside fresh counted status, memo.after inside fresh counted⟩

/-- Node 1 is finished, its parent is not. -/
def halfCounted : NodeArray := fun i =>
  if i = 0 then { children := [1], numDescendant := 1 }
  else if i = 1 then { status := true } else {}

theorem mem_kids_halfCounted {i c : Nat} : c ∈ kids halfCounted i ↔ i = 0 ∧ c = 1 := by
  rw [kids, halfCounted]
  split
  · simp [*]
  · split <;> simp [*]

theorem halfCounted_branching : Branching 2 (kids halfCounted) where
  inside held := by
    rw [mem_kids_halfCounted] at held
    omega
  single left right := by
    rw [mem_kids_halfCounted] at left right
    omega
  unique i := by
    rw [kids, halfCounted]
    split
    · simp
    · split <;> simp
  acyclic i cycle := by
    obtain ⟨second, first, rest⟩ := Relation.TransGen.head'_iff.mp cycle
    obtain ⟨_, last, final⟩ := Relation.TransGen.tail'_iff.mp cycle
    rw [mem_kids_halfCounted] at first final
    omega

theorem status_halfCounted {y : Nat} : (halfCounted y).status = true ↔ y = 1 := by
  rw [halfCounted]
  split
  · simp [*]
  · split <;> simp [*]

theorem halfCounted_memoised : Memoised 2 halfCounted where
  forest := halfCounted_branching
  counted y present status := by
    obtain rfl := status_halfCounted.mp status
    rw [numBelow_eq halfCounted_branching present]
    rfl
  finished y _ status z below := by
    obtain rfl := status_halfCounted.mp status
    rcases Relation.ReflTransGen.cases_head below with rfl | ⟨c, held, _⟩
    · exact status
    · simp [mem_kids_halfCounted] at held
  fresh y present status := by
    obtain rfl : y = 0 := by
      have other : y ≠ 1 := fun same => by simp [status_halfCounted.mpr same] at status
      omega
    rfl

theorem numOfDescendant_memoised_sample : ∃ after,
    numOfDescendant 2 halfCounted 0 = some (numBelow 2 (kids halfCounted) 0, after) ∧
      (∀ y, (after y).status = true ↔
        Below (kids halfCounted) 0 y ∨ (halfCounted y).status = true) ∧
      (∀ y, (halfCounted y).status = true →
        (after y).numDescendant = (halfCounted y).numDescendant) ∧
      Memoised 2 after :=
  numOfDescendant_memoised halfCounted_memoised (by omega) rfl (by omega)

end Memo

end VoteCounting.Nodes
