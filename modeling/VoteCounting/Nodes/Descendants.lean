import VoteCounting.Data.Branching
import VoteCounting.Data.Loop

namespace VoteCounting.Nodes

/-- The children are the first `num_children` entries of the array. -/
structure Node where
  children : List Nat := []
  numDescendant : Int := 0
  status : Bool := false
deriving DecidableEq, Repr

abbrev NodeArray := Nat → Node

def kids (node : NodeArray) (i : Nat) : List Nat := (node i).children

def addDescendants (node : NodeArray) (num : Nat) (count : Int) : NodeArray :=
  Function.update node num { node num with numDescendant := (node num).numDescendant + count }

def setStatus (node : NodeArray) (num : Nat) : NodeArray :=
  Function.update node num { node num with status := true }

def numOfDescendant : Nat → NodeArray → Nat → Option (Int × NodeArray)
  | 0, _, _ => none
  | fuel + 1, node, num =>
      ((node num).children.foldlM (fun node child =>
        if !(node child).status then
          (numOfDescendant fuel node child).map fun result => addDescendants result.2 num result.1
        else some (addDescendants node num (node child).numDescendant)) node).map
        fun node => ((node num).numDescendant, setStatus node num)

def countChild (fuel num : Nat) (node : NodeArray) (child : Nat) : Option NodeArray :=
  if !(node child).status then
    (numOfDescendant fuel node child).map fun result => addDescendants result.2 num result.1
  else some (addDescendants node num (node child).numDescendant)

theorem numOfDescendant_succ {fuel num : Nat} {node : NodeArray} :
    numOfDescendant (fuel + 1) node num = ((kids node num).foldlM (countChild fuel num) node).map
      fun node => ((node num).numDescendant, setStatus node num) := rfl

def Node.settle (node : Node) (count : Int) : Node :=
  { node with numDescendant := count, status := true }

/-- The values the nodes below `num` get: settled counts stay, and the others are built up
from the children. -/
structure Values (node : NodeArray) (num : Nat) (value : Nat → Int) : Prop where
  settled : ∀ y, Below (kids node) num y → y ≠ num → (node y).status = true →
    value y = (node y).numDescendant
  fresh : ∀ y, Below (kids node) num y → y ≠ num → (node y).status = false →
    value y = (node y).numDescendant + ((kids node y).map value).sum
  closed : ∀ y, Below (kids node) num y → (node y).status = true →
    ∀ child ∈ kids node y, (node child).status = true

/-- What a call for `num` leaves behind. -/
structure Counted (node : NodeArray) (num : Nat) (value : Nat → Int) (after : NodeArray) : Prop where
  own : after num = (node num).settle ((node num).numDescendant + ((kids node num).map value).sum)
  below : ∀ child ∈ kids node num, ∀ y, Below (kids node) child y → after y = (node y).settle (value y)
  kept : ∀ y, ¬ Below (kids node) num y → after y = node y

/-- The loop of a call for `num` after some of the children. -/
structure Counting (node : NodeArray) (num : Nat) (value : Nat → Int) (done : List Nat)
    (state : NodeArray) : Prop where
  own : state num = { node num with
    numDescendant := (node num).numDescendant + (done.map value).sum }
  below : ∀ child ∈ done, ∀ y, Below (kids node) child y → state y = (node y).settle (value y)
  kept : ∀ y, y ≠ num → (∀ child ∈ done, ¬ Below (kids node) child y) → state y = node y

section Counting

variable {size fuel : Nat} {node state after : NodeArray} {num child y : Nat} {value : Nat → Int}
  {done : List Nat} {count : Int}

theorem addDescendants_self :
    addDescendants node num count num =
      { node num with numDescendant := (node num).numDescendant + count } :=
  Function.update_self ..

theorem addDescendants_of_ne (other : y ≠ num) : addDescendants node num count y = node y :=
  Function.update_of_ne other ..

theorem setStatus_self : setStatus node num num = { node num with status := true } :=
  Function.update_self ..

theorem setStatus_of_ne (other : y ≠ num) : setStatus node num y = node y :=
  Function.update_of_ne other ..

theorem Counting.kids_eq (sofar : Counting node num value done state) : kids state = kids node := by
  funext y
  by_cases own : y = num
  · rw [kids, own, sofar.own]
    rfl
  · by_cases under : ∃ child ∈ done, Below (kids node) child y
    · obtain ⟨child, member, below⟩ := under
      rw [kids, sofar.below child member y below]
      rfl
    · rw [kids, sofar.kept y own fun child member below => under ⟨child, member, below⟩]
      rfl

theorem Counting.untouched (tree : Branching size (kids node))
    (sofar : Counting node num value done state)
    (earlier : ∀ c ∈ done, c ∈ kids node num) (held : child ∈ kids node num) (fresh : child ∉ done)
    (under : Below (kids node) child y) : state y = node y := by
  apply sofar.kept
  · intro same
    exact tree.not_below_parent held (same ▸ under)
  · intro c member path
    exact fresh (tree.siblings_apart (earlier c member) held path under ▸ member)

theorem settle_of_settled (status : (node y).status = true) (same : value y = (node y).numDescendant) :
    (node y).settle (value y) = node y := by
  rw [Node.settle, same, ← status]

theorem Values.narrow (values : Values node num value) (tree : Branching size (kids node))
    (held : child ∈ kids node num) : Values node child value := by
  have proper : ∀ y, Below (kids node) child y → y ≠ num := fun y under same =>
    tree.not_below_parent held (same ▸ under)
  exact ⟨fun y under _ => values.settled y (.head held under) (proper y under),
    fun y under _ => values.fresh y (.head held under) (proper y under),
    fun y under => values.closed y (.head held under)⟩

theorem Values.congr (values : Values node num value) (kidsEq : kids state = kids node)
    (same : ∀ y, Below (kids node) num y → state y = node y) : Values state num value where
  settled y under proper status := by
    rw [kidsEq] at under
    rw [same y under] at status ⊢
    exact values.settled y under proper status
  fresh y under proper status := by
    rw [kidsEq] at under ⊢
    rw [same y under] at status ⊢
    exact values.fresh y under proper status
  closed y under status c held := by
    rw [kidsEq] at under held
    rw [same y under] at status
    rw [same c (under.tail held)]
    exact values.closed y under status c held

theorem Values.settled_below (values : Values node num value) (tree : Branching size (kids node))
    (held : child ∈ kids node num) (status : (node child).status = true)
    (under : Below (kids node) child y) : (node y).settle (value y) = node y := by
  have all : (node y).status = true := by
    induction under with
    | refl => exact status
    | tail path step ih => exact values.closed _ (.head held path) ih _ step
  have proper : y ≠ num := fun same => tree.not_below_parent held (same ▸ under)
  exact settle_of_settled all (values.settled y (.head held under) proper all)

theorem Counting.add (tree : Branching size (kids node)) (sofar : Counting node num value done state)
    (earlier : ∀ c ∈ done, c ∈ kids node num) (held : child ∈ kids node num) {next : NodeArray}
    (below : ∀ y, Below (kids node) child y → next y = (node y).settle (value y))
    (kept : ∀ y, ¬ Below (kids node) child y → next y = state y) (counted : count = value child) :
    Counting node num value (done ++ [child]) (addDescendants next num count) := by
  have apart : ∀ c ∈ kids node num, ∀ y, Below (kids node) c y → y ≠ num := fun c member y under same =>
    tree.not_below_parent member (same ▸ under)
  refine ⟨?_, fun c member y under => ?_, fun y other none => ?_⟩
  · rw [addDescendants_self, kept num fun under => apart child held num under rfl, sofar.own, counted]
    simp [add_assoc]
  · by_cases again : Below (kids node) child y
    · rw [addDescendants_of_ne (apart child held y again)]
      exact below y again
    · rcases List.mem_append.mp member with before | last
      · rw [addDescendants_of_ne (apart c (earlier c before) y under), kept y again]
        exact sofar.below c before y under
      · exact absurd (List.mem_singleton.mp last ▸ under) again
  · rw [addDescendants_of_ne other, kept y (none child (by simp))]
    exact sofar.kept y other fun c member => none c (by simp [member])

theorem Counting.finish (sofar : Counting node num value (kids node num) state)
    (tree : Branching size (kids node)) : Counted node num value (setStatus state num) where
  own := by
    rw [setStatus_self, sofar.own]
    rfl
  below c held y under := by
    have other : y ≠ num := by
      intro same
      exact tree.not_below_parent held (same ▸ under)
    rw [setStatus_of_ne other]
    exact sofar.below c held y under
  kept y apart := by
    have other : y ≠ num := fun same => apart (same ▸ .refl)
    rw [setStatus_of_ne other]
    exact sofar.kept y other fun c held under => apart (.head held under)

/-- One round of the loop, if a call for an unsettled child does what it should. -/
theorem Counting.round (tree : Branching size (kids node)) (values : Values node num value)
    (sofar : Counting node num value done state) (earlier : ∀ c ∈ done, c ∈ kids node num)
    (held : child ∈ kids node num) (fresh : child ∉ done)
    (inner : Values state child value → ∃ next, numOfDescendant fuel state child =
        some ((state child).numDescendant + ((kids state child).map value).sum, next) ∧
      Counted state child value next) :
    ∃ after, countChild fuel num state child = some after ∧
      Counting node num value (done ++ [child]) after := by
  have untouched : ∀ y, Below (kids node) child y → state y = node y :=
    fun y under => sofar.untouched tree earlier held fresh under
  have own := untouched child .refl
  have sameKids := sofar.kids_eq
  cases status : (node child).status with
  | true =>
      have settled := values.settled_below tree held status .refl
      refine ⟨addDescendants state num (state child).numDescendant,
        by simp [countChild, own, status], ?_⟩
      refine sofar.add tree earlier held (fun y under => ?_) (fun _ _ => rfl) ?_
      · rw [untouched y under, values.settled_below tree held status under]
      · rw [own]
        exact (congrArg Node.numDescendant settled).symm
  | false =>
      obtain ⟨next, computed, counted⟩ := inner ((values.narrow tree held).congr sameKids untouched)
      have proper : child ≠ num := by
        intro same
        exact tree.not_below_parent held (same ▸ .refl)
      have total : (state child).numDescendant + ((kids state child).map value).sum = value child := by
        rw [own, sameKids, values.fresh child (.single held) proper status]
      rw [total] at computed
      refine ⟨addDescendants next num (value child), by simp [countChild, own, status, computed], ?_⟩
      refine sofar.add tree earlier held (fun y under => ?_) (fun y apart => ?_) rfl
      · rcases Relation.ReflTransGen.cases_head under with rfl | ⟨c, cHeld, below⟩
        · rw [counted.own, total, own]
        · rw [counted.below c (by rw [sameKids]; exact cHeld) y (by rw [sameKids]; exact below),
            untouched y under]
      · exact counted.kept y (by rw [sameKids]; exact apart)

/-- A call with enough fuel returns, and this is everything it does. -/
theorem numOfDescendant_counted (tree : Branching size (kids node)) (inside : num < size)
    (values : Values node num value) (enough : (descendants size (kids node) num).card ≤ fuel) :
    ∃ after, numOfDescendant fuel node num =
        some ((node num).numDescendant + ((kids node num).map value).sum, after) ∧
      Counted node num value after := by
  induction fuel generalizing node num with
  | zero =>
      have member : num ∈ descendants size (kids node) num := mem_descendants.mpr ⟨inside, .refl⟩
      rw [Finset.card_eq_zero.mp (Nat.le_zero.mp enough)] at member
      exact absurd member (Finset.notMem_empty num)
  | succ fuel ih =>
      have start : Counting node num value [] node := by
        refine ⟨?_, by simp, fun _ _ _ => rfl⟩
        simp
      have loop : ∃ state, (kids node num).foldlM (countChild fuel num) node = some state ∧
          Counting node num value (kids node num) state := by
        refine Loop.total_invariant (Counting node num value) start fun {done rest child state}
          whole sofar => ?_
        have distinct := tree.unique num
        rw [whole] at distinct
        have held : child ∈ kids node num := by simp [whole]
        have sameKids := sofar.kids_eq
        obtain ⟨present, few⟩ := tree.enough_child enough held
        refine sofar.round tree values (fun c member => by simp [whole, member]) held
          ?_ fun narrow => ?_
        · intro again
          exact (List.nodup_append.mp distinct).2.2 child again child (by simp) rfl
        · refine ih ?_ present narrow ?_
          · rw [sameKids]
            exact tree
          · rw [sameKids]
            exact few
      obtain ⟨state, ran, all⟩ := loop
      have own := congrArg Node.numDescendant all.own
      simp only at own
      exact ⟨setStatus state num, by rw [numOfDescendant_succ, ran, ← own]; rfl, all.finish tree⟩

theorem Counted.under (counted : Counted node num value after) (below : Below (kids node) num y)
    (other : y ≠ num) : after y = (node y).settle (value y) := by
  rcases Relation.ReflTransGen.cases_head below with same | ⟨child, held, path⟩
  · exact absurd same.symm other
  · exact counted.below child held y path

/-- A call changes counts and statuses only. -/
theorem Counted.kids_eq (counted : Counted node num value after) : kids after = kids node := by
  funext y
  by_cases below : Below (kids node) num y
  · by_cases own : y = num
    · rw [kids, own, counted.own]
      rfl
    · rw [kids, counted.under below own]
      rfl
  · rw [kids, counted.kept y below]
    rfl

theorem Counted.status_iff (counted : Counted node num value after) :
    (after y).status = true ↔ Below (kids node) num y ∨ (node y).status = true := by
  by_cases below : Below (kids node) num y
  · by_cases own : y = num
    · subst own
      simp [below, counted.own, Node.settle]
    · simp [below, counted.under below own, Node.settle]
  · simp [below, counted.kept y below]

end Counting

end VoteCounting.Nodes
