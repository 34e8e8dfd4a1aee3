import Mathlib.Algebra.BigOperators.Group.Finset.Basic
import Mathlib.Logic.Relation
import Mathlib.Tactic

namespace VoteCounting

/-! Forests stored as child arrays.

Every node is a number below `size`, its children come later, and no node is a
child twice.  Several roots are allowed.
-/

structure Forest (size : Nat) (children : Nat → List Nat) : Prop where
  later : ∀ {i c}, c ∈ children i → i < c ∧ c < size
  single : ∀ {i j c}, c ∈ children i → c ∈ children j → i = j
  unique : ∀ i, (children i).Nodup

/-- `j` lies in the subtree of `i`. -/
def Below (children : Nat → List Nat) (i j : Nat) : Prop :=
  Relation.ReflTransGen (fun a b => b ∈ children a) i j

/-- The subtree of a node in preorder, down to a bounded depth. -/
def subtree (children : Nat → List Nat) : Nat → Nat → List Nat
  | 0, _ => []
  | fuel + 1, i => i :: (children i).flatMap (subtree children fuel)

/-- Fuel that reaches the bottom of the subtree of `i`. -/
def Enough (size fuel i : Nat) : Prop := size ≤ i + fuel ∧ 0 < fuel

variable {size fuel i j k : Nat} {children : Nat → List Nat}

/-- Where parents are unique, two nodes above the same node lie above each other. -/
theorem below_linear (single : ∀ {i j c}, c ∈ children i → c ∈ children j → i = j)
    (left : Below children i k) (right : Below children j k) :
    Below children i j ∨ Below children j i := by
  induction left with
  | refl => exact .inr right
  | @tail a b path step ih =>
      rcases Relation.ReflTransGen.cases_tail right with rfl | ⟨parent, rest, held⟩
      · exact .inl (path.tail step)
      · rw [single held step] at rest
        exact ih rest

/-- Where parents are unique and no child is above its parent, no node is below two children of
one. -/
theorem siblings_apart_of (single : ∀ {i j c}, c ∈ children i → c ∈ children j → i = j)
    (forward : ∀ {i j}, j ∈ children i → ¬ Below children j i) (left : i ∈ children k)
    (right : j ∈ children k) {node : Nat} (underLeft : Below children i node)
    (underRight : Below children j node) : i = j := by
  have apart : ∀ {a b}, a ∈ children k → b ∈ children k → Below children a b → a = b := by
    intro a b first second below
    rcases Relation.ReflTransGen.cases_tail below with same | ⟨parent, path, held⟩
    · exact same.symm
    · rw [single held second] at path
      exact absurd path (forward first)
  rcases below_linear single underLeft underRight with below | below
  · exact apart left right below
  · exact (apart right left below).symm

namespace Forest

theorem below_le (forest : Forest size children) (below : Below children i j) : i ≤ j := by
  induction below with
  | refl => exact Nat.le_refl i
  | tail _ step ih => exact Nat.le_trans ih (forest.later step).1.le

theorem enough_child (forest : Forest size children) (enough : Enough size (fuel + 1) i)
    (child : k ∈ children i) : Enough size fuel k := by
  have bounds := forest.later child
  unfold Enough at *
  omega

theorem below_of_mem_subtree (member : j ∈ subtree children fuel i) : Below children i j := by
  induction fuel generalizing i with
  | zero => cases member
  | succ fuel ih =>
      rcases List.mem_cons.mp member with rfl | member
      · exact .refl
      · obtain ⟨child, held, inside⟩ := List.mem_flatMap.mp member
        exact .head held (ih inside)

theorem mem_subtree_of_below (forest : Forest size children) (enough : Enough size fuel i)
    (below : Below children i j) : j ∈ subtree children fuel i := by
  induction fuel generalizing i with
  | zero => exact absurd enough.2 (Nat.lt_irrefl 0)
  | succ fuel ih =>
      rcases Relation.ReflTransGen.cases_head below with rfl | ⟨child, held, rest⟩
      · simp [subtree]
      · exact List.mem_cons_of_mem _ (List.mem_flatMap.mpr
          ⟨child, held, ih (forest.enough_child enough held) rest⟩)

theorem mem_subtree_iff (forest : Forest size children) (enough : Enough size fuel i) :
    j ∈ subtree children fuel i ↔ Below children i j :=
  ⟨below_of_mem_subtree, forest.mem_subtree_of_below enough⟩

theorem not_below_parent (forest : Forest size children) (child : j ∈ children i) :
    ¬ Below children j i := by
  intro back
  have ahead := (forest.later child).1
  have behind := forest.below_le back
  omega

theorem siblings_apart (forest : Forest size children) (left : i ∈ children k) (right : j ∈ children k)
    {node : Nat} (underLeft : Below children i node) (underRight : Below children j node) : i = j :=
  siblings_apart_of forest.single forest.not_below_parent left right underLeft underRight

/-- A subtree lists each node once. -/
theorem nodup_subtree (forest : Forest size children) (fuel i : Nat) :
    (subtree children fuel i).Nodup := by
  induction fuel generalizing i with
  | zero => exact List.nodup_nil
  | succ fuel ih =>
      rw [subtree, List.nodup_cons]
      refine ⟨fun again => ?_, List.nodup_flatMap.mpr ⟨fun child _ => ih child, ?_⟩⟩
      · obtain ⟨child, held, inside⟩ := List.mem_flatMap.mp again
        exact forest.not_below_parent held (below_of_mem_subtree inside)
      · refine (forest.unique i).imp_of_mem fun {left right} leftHeld rightHeld different node
          underLeft underRight => ?_
        exact different (forest.siblings_apart leftHeld rightHeld (below_of_mem_subtree underLeft)
          (below_of_mem_subtree underRight))

/-- Induction from the leaves up. -/
theorem bottom_up (forest : Forest size children) {P : Nat → Prop}
    (step : ∀ i, (∀ child ∈ children i, P child) → P i) (i : Nat) : P i := by
  induction rest : size - i using Nat.strong_induction_on generalizing i with
  | _ rest ih =>
      apply step
      intro child held
      have bounds := forest.later held
      exact ih (size - child) (by omega) child rfl

/-- What a node gets from its children does not depend on the fuel once the bottom is reached. -/
theorem fuel_eq {β : Type*} {value : Nat → Nat → β} (forest : Forest size children) {more : Nat}
    (congr : ∀ {fuel more i}, (∀ child ∈ children i, value fuel child = value more child) →
      value (fuel + 1) i = value (more + 1) i)
    (enough : Enough size fuel i) (enoughMore : Enough size more i) :
    value fuel i = value more i := by
  induction fuel generalizing i more with
  | zero => exact absurd enough.2 (Nat.lt_irrefl 0)
  | succ fuel ih =>
      cases more with
      | zero => exact absurd enoughMore.2 (Nat.lt_irrefl 0)
      | succ more =>
          apply congr
          intro child held
          exact ih (forest.enough_child enough held) (forest.enough_child enoughMore held)

theorem subtree_fuel (forest : Forest size children) {more : Nat}
    (enough : Enough size fuel i) (enoughMore : Enough size more i) :
    subtree children fuel i = subtree children more i := by
  apply forest.fuel_eq _ enough enoughMore
  intro fuel more i same
  rw [subtree, subtree, List.flatMap_congr same]

section Sums

variable {M : Type*} [AddCommMonoid M] {weight : Nat → M}

/-- The sum over a subtree is the node's own share and those of its children. -/
theorem sum_subtree (forest : Forest size children) (enough : Enough size fuel i) :
    ((subtree children fuel i).map weight).sum =
      weight i + ((children i).map fun c => ((subtree children fuel c).map weight).sum).sum := by
  cases fuel with
  | zero => exact absurd enough.2 (Nat.lt_irrefl 0)
  | succ fuel =>
      have shares : (children i).map (fun c => ((subtree children fuel c).map weight).sum) =
          (children i).map fun c => ((subtree children (fuel + 1) c).map weight).sum := by
        apply List.map_congr_left
        intro child held
        have enoughChild := forest.enough_child enough held
        rw [forest.subtree_fuel enoughChild ⟨Nat.le_succ_of_le enoughChild.1, Nat.succ_pos _⟩]
      rw [← shares]
      simp only [subtree, List.map_cons, List.sum_cons, List.map_flatMap]
      congr 1
      generalize children i = kids
      induction kids with
      | nil => rfl
      | cons child rest ih => simp [ih]

end Sums

/-- Fresh nodes become children of one node, after some of its old children. -/
theorem graft (forest : Forest size children) {parent count : Nat} (present : parent < size)
    {old : List Nat} (kept : old.Sublist (children parent)) :
    Forest (size + count)
      (Function.update children parent (old ++ List.range' size count)) where
  later {i c} member := by
    by_cases same : i = parent
    · subst same
      rw [Function.update_self] at member
      rcases List.mem_append.mp member with before | fresh
      · have bounds := forest.later (kept.subset before)
        omega
      · have bounds := List.mem_range'_1.mp fresh
        omega
    · rw [Function.update_of_ne same] at member
      have bounds := forest.later member
      omega
  single {i j c} left right := by
    have origin : ∀ {a}, c ∈ Function.update children parent (old ++ List.range' size count) a →
        c ∈ children a ∨ (a = parent ∧ size ≤ c) := by
      intro a member
      by_cases same : a = parent
      · subst same
        rw [Function.update_self] at member
        rcases List.mem_append.mp member with before | fresh
        · exact .inl (kept.subset before)
        · exact .inr ⟨rfl, (List.mem_range'_1.mp fresh).1⟩
      · rw [Function.update_of_ne same] at member
        exact .inl member
    rcases origin left with leftOld | ⟨rfl, leftFresh⟩ <;>
      rcases origin right with rightOld | ⟨rfl, rightFresh⟩
    · exact forest.single leftOld rightOld
    · have bounds := (forest.later leftOld).2
      omega
    · have bounds := (forest.later rightOld).2
      omega
    · rfl
  unique i := by
    by_cases same : i = parent
    · subst same
      rw [Function.update_self]
      refine List.nodup_append.mpr ⟨(forest.unique i).sublist kept, List.nodup_range', ?_⟩
      rintro a before b fresh rfl
      have bounds := (forest.later (kept.subset before)).2
      have beyond := (List.mem_range'_1.mp fresh).1
      omega
    · rw [Function.update_of_ne same]
      exact forest.unique i

section Leaf

variable {parent : Nat}

def addLeaf (children : Nat → List Nat) (parent leaf : Nat) : Nat → List Nat :=
  Function.update children parent (children parent ++ [leaf])

theorem addLeaf_forest (forest : Forest size children) (present : parent < size) :
    Forest (size + 1) (addLeaf children parent size) := by
  have grafted : Forest (size + 1)
      (Function.update children parent (children parent ++ List.range' size 1)) :=
    forest.graft present (List.Sublist.refl (children parent))
  simpa [addLeaf] using grafted

theorem children_of_size_le (forest : Forest size children) (outside : size ≤ i) :
    children i = [] := by
  cases held : children i with
  | nil => rfl
  | cons child rest =>
      have bounds := forest.later (i := i) (c := child) (by simp [held])
      omega

theorem addLeaf_leaf (forest : Forest size children) (present : parent < size) :
    addLeaf children parent size size = [] := by
  rw [addLeaf, Function.update_of_ne (by omega)]
  exact forest.children_of_size_le (Nat.le_refl _)

theorem below_addLeaf (below : Below children i j) :
    Below (addLeaf children parent size) i j := by
  refine Relation.ReflTransGen.mono (fun a b held => ?_) _ _ below
  by_cases same : a = parent
  · subst same
    simp only [addLeaf, Function.update_self]
    exact List.mem_append_left _ held
  · simpa [addLeaf, Function.update_of_ne same] using held

theorem below_of_addLeaf (forest : Forest size children) (present : parent < size)
    (below : Below (addLeaf children parent size) i j) : j = size ∨ Below children i j := by
  induction below with
  | refl => exact .inr .refl
  | @tail a b _ step ih =>
      rcases ih with fresh | old
      · rw [fresh, forest.addLeaf_leaf present] at step
        cases step
      · by_cases same : a = parent
        · subst same
          simp only [addLeaf, Function.update_self] at step
          rcases List.mem_append.mp step with held | fresh
          · exact .inr (.tail old held)
          · exact .inl (List.mem_singleton.mp fresh)
        · simp only [addLeaf, Function.update_of_ne same] at step
          exact .inr (.tail old step)

/-- A new leaf of no weight changes no subtree sum. -/
theorem sum_subtree_addLeaf (forest : Forest size children) (present : parent < size)
    {M : Type*} [AddCommMonoid M] {weight : Nat → M} (weightless : weight size = 0) (fuel i : Nat) :
    ((subtree (addLeaf children parent size) fuel i).map weight).sum =
      ((subtree children fuel i).map weight).sum := by
  induction fuel generalizing i with
  | zero => rfl
  | succ fuel ih =>
      have shares : ∀ kids : List Nat,
          ((kids.flatMap (subtree (addLeaf children parent size) fuel)).map weight).sum =
            ((kids.flatMap (subtree children fuel)).map weight).sum := by
        intro kids
        induction kids with
        | nil => rfl
        | cons child rest restIH => simp [ih, restIH]
      have bottom : ((subtree (addLeaf children parent size) fuel size).map weight).sum = 0 := by
        cases fuel with
        | zero => rfl
        | succ fuel => simp [subtree, forest.addLeaf_leaf present, weightless]
      simp only [subtree, List.map_cons, List.sum_cons]
      congr 1
      by_cases same : i = parent
      · subst same
        have kids : addLeaf children i size i = children i ++ [size] := Function.update_self ..
        rw [kids, List.flatMap_append, List.map_append, List.sum_append, shares]
        simp [bottom]
      · have kids : addLeaf children parent size i = children i := Function.update_of_ne same ..
        rw [kids, shares]

end Leaf

end Forest

end VoteCounting
