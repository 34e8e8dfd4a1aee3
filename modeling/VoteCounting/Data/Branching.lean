import VoteCounting.Data.Forest

namespace VoteCounting

/-! Forests whose nodes are numbered in any order.

Unlike in a `Forest`, a child may come before its parent.
-/

open Relation

structure Branching (size : Nat) (children : Nat → List Nat) : Prop where
  inside : ∀ {i c}, c ∈ children i → i < size ∧ c < size
  single : ∀ {i j c}, c ∈ children i → c ∈ children j → i = j
  unique : ∀ i, (children i).Nodup
  acyclic : ∀ i, ¬ TransGen (fun a b => b ∈ children a) i i

/-- One root, from which every node is reached. -/
structure Rooted (size : Nat) (children : Nat → List Nat) (root : Nat) : Prop where
  inside : ∀ {i c}, c ∈ children i → i < size ∧ c < size
  single : ∀ {i j c}, c ∈ children i → c ∈ children j → i = j
  unique : ∀ i, (children i).Nodup
  present : root < size
  parentless : ∀ i, root ∉ children i
  reached : ∀ i < size, Below children root i

open Classical in
/-- A node and all nodes below it. -/
noncomputable def descendants (size : Nat) (children : Nat → List Nat) (i : Nat) : Finset Nat :=
  (Finset.range size).filter (Below children i)

/-- The nodes below a node, children before their parents, down to a bounded depth. -/
def postorder (children : Nat → List Nat) : Nat → Nat → List Nat
  | 0, _ => []
  | fuel + 1, i => (children i).flatMap (postorder children fuel) ++ [i]

/-- Every child is before its parent. -/
def ChildrenFirst (children : Nat → List Nat) (order : List Nat) : Prop :=
  ∀ before parent after, order = before ++ parent :: after → ∀ child ∈ children parent, child ∈ before

variable {size fuel i j k root : Nat} {children : Nat → List Nat}

theorem childrenFirst_nil : ChildrenFirst children [] := by
  intro before parent after whole
  simp at whole

theorem childrenFirst_append {order more : List Nat} (first : ChildrenFirst children order)
    (last : ChildrenFirst children more) : ChildrenFirst children (order ++ more) := by
  intro before parent after whole child held
  rcases List.append_eq_append_iff.mp whole with ⟨front, rfl, rest⟩ | ⟨back, split, rest⟩
  · exact List.mem_append_right _ (last front parent after rest child held)
  · cases back with
    | nil => exact absurd (last [] parent after rest.symm child held) (by simp)
    | cons other back =>
        obtain ⟨rfl, _⟩ := List.cons.inj rest
        exact first before parent back split child held

theorem childrenFirst_concat {order : List Nat} (first : ChildrenFirst children order)
    (below : ∀ child ∈ children i, child ∈ order) : ChildrenFirst children (order ++ [i]) := by
  intro before parent after whole child held
  rcases List.eq_nil_or_concat after with rfl | ⟨front, last, rfl⟩
  · obtain ⟨rfl, same⟩ := List.append_inj' whole rfl
    obtain rfl := List.singleton_inj.mp same
    exact below child held
  · rw [List.concat_eq_append, ← List.cons_append, ← List.append_assoc] at whole
    exact first before parent front (List.append_inj' whole rfl).1 child held

theorem childrenFirst_flatMap {order : Nat → List Nat} {roots : List Nat}
    (each : ∀ top ∈ roots, ChildrenFirst children (order top)) :
    ChildrenFirst children (roots.flatMap order) := by
  induction roots with
  | nil => exact childrenFirst_nil
  | cons top rest ih =>
      exact childrenFirst_append (each top List.mem_cons_self)
        (ih fun other held => each other (List.mem_cons_of_mem _ held))

theorem mem_descendants : j ∈ descendants size children i ↔ j < size ∧ Below children i j := by
  simp [descendants]

/-- Without cycles there is less below a child. -/
theorem card_descendants_child (acyclic : ¬ TransGen (fun a b => b ∈ children a) i i)
    (inside : i < size) (held : j ∈ children i) :
    (descendants size children j).card < (descendants size children i).card := by
  refine Finset.card_lt_card (Finset.ssubset_iff_of_subset ?_ |>.mpr ⟨i, ?_, ?_⟩)
  · intro node member
    obtain ⟨present, below⟩ := mem_descendants.mp member
    exact mem_descendants.mpr ⟨present, .head held below⟩
  · exact mem_descendants.mpr ⟨inside, .refl⟩
  · intro member
    exact acyclic (TransGen.head' held (mem_descendants.mp member).2)

theorem card_descendants_pos (inside : i < size) : 0 < (descendants size children i).card :=
  Finset.card_pos.mpr ⟨i, mem_descendants.mpr ⟨inside, .refl⟩⟩

theorem card_descendants_le : (descendants size children i).card ≤ size := by
  have few : descendants size children i ⊆ Finset.range size := fun _ member =>
    Finset.mem_range.mpr (mem_descendants.mp member).1
  exact (Finset.card_le_card few).trans_eq (Finset.card_range size)

/-- Where nobody has two parents, nothing below a parentless root comes back to itself. -/
theorem no_cycle_below {α : Type*} {r : α → α → Prop} {top node : α}
    (parentless : ∀ parent, ¬ r parent top)
    (single : ∀ {parent other child}, r parent child → r other child → parent = other)
    (path : ReflTransGen r top node) : ¬ TransGen r node node := by
  intro cycle
  -- The cycle is carried back along the path.
  induction path with
  | refl =>
      obtain ⟨parent, _, held⟩ := TransGen.tail'_iff.mp cycle
      exact parentless parent held
  | @tail above below _ step ih =>
      obtain ⟨parent, back, held⟩ := TransGen.tail'_iff.mp cycle
      have same := single held step
      exact ih (TransGen.head' step (same ▸ back))

theorem Rooted.branching (tree : Rooted size children root) : Branching size children where
  inside := tree.inside
  single := tree.single
  unique := tree.unique
  acyclic i cycle := by
    have inside : i < size := by
      obtain ⟨_, _, held⟩ := TransGen.tail'_iff.mp cycle
      exact (tree.inside held).2
    exact no_cycle_below (r := fun a b => b ∈ children a) tree.parentless tree.single
      (tree.reached i inside) cycle

namespace Branching

theorem not_below_parent (tree : Branching size children) (child : j ∈ children i) :
    ¬ Below children j i := fun back =>
  tree.acyclic i (TransGen.head' child back)

theorem below_inside (tree : Branching size children) (inside : i < size) (below : Below children i j) :
    j < size := by
  cases below with
  | refl => exact inside
  | tail _ held => exact (tree.inside held).2

theorem siblings_apart (tree : Branching size children) (left : i ∈ children k) (right : j ∈ children k)
    {node : Nat} (underLeft : Below children i node) (underRight : Below children j node) : i = j :=
  siblings_apart_of tree.single tree.not_below_parent left right underLeft underRight

theorem card_child (tree : Branching size children) (held : j ∈ children i) :
    (descendants size children j).card < (descendants size children i).card :=
  card_descendants_child (tree.acyclic i) (tree.inside held).1 held

/-- What is enough for a node leaves enough for its children. -/
theorem enough_child (tree : Branching size children)
    (enough : (descendants size children i).card ≤ fuel + 1) (held : j ∈ children i) :
    j < size ∧ (descendants size children j).card ≤ fuel :=
  ⟨(tree.inside held).2, Nat.le_of_lt_succ ((tree.card_child held).trans_le enough)⟩

/-- Induction from the leaves up. -/
theorem bottom_up (tree : Branching size children) {P : Nat → Prop}
    (step : ∀ i, (∀ child ∈ children i, P child) → P i) (i : Nat) : P i := by
  induction rank : (descendants size children i).card using Nat.strong_induction_on generalizing i with
  | _ rank ih =>
      apply step
      intro child held
      exact ih _ (rank ▸ tree.card_child held) child rfl

theorem descendants_eq (inside : i < size) :
    descendants size children i =
      insert i ((children i).toFinset.biUnion (descendants size children)) := by
  ext node
  simp only [Finset.mem_insert, Finset.mem_biUnion, List.mem_toFinset, mem_descendants]
  constructor
  · intro ⟨present, below⟩
    rcases ReflTransGen.cases_head below with rfl | ⟨child, held, rest⟩
    · exact .inl rfl
    · exact .inr ⟨child, held, present, rest⟩
  · intro either
    rcases either with rfl | ⟨child, held, present, rest⟩
    · exact ⟨inside, .refl⟩
    · exact ⟨present, .head held rest⟩

/-- The sum over a node and its descendants is its own share and those of its children. -/
theorem sum_descendants {M : Type*} [AddCommMonoid M] (tree : Branching size children)
    (weight : Nat → M) (inside : i < size) : ∑ node ∈ descendants size children i, weight node =
      weight i + ((children i).map fun c => ∑ node ∈ descendants size children c, weight node).sum := by
  rw [descendants_eq inside, Finset.sum_insert, Finset.sum_biUnion, List.sum_toFinset _ (tree.unique i)]
  · intro left leftHeld right rightHeld different
    rw [Function.onFun, Finset.disjoint_left]
    intro node underLeft underRight
    exact different
      (tree.siblings_apart (List.mem_toFinset.mp leftHeld) (List.mem_toFinset.mp rightHeld)
      (mem_descendants.mp underLeft).2 (mem_descendants.mp underRight).2)
  · intro member
    obtain ⟨child, held, under⟩ := Finset.mem_biUnion.mp member
    exact tree.not_below_parent (List.mem_toFinset.mp held) (mem_descendants.mp under).2

theorem mem_postorder (tree : Branching size children) (inside : i < size)
    (enough : (descendants size children i).card ≤ fuel) :
    j ∈ postorder children fuel i ↔ Below children i j := by
  induction fuel generalizing i with
  | zero => exact absurd (card_descendants_pos inside) (Nat.le_zero.mp enough).not_gt
  | succ fuel ih =>
      rw [postorder, List.mem_append, List.mem_flatMap, List.mem_singleton]
      have each : ∀ c ∈ children i, (j ∈ postorder children fuel c ↔ Below children c j) := by
        intro c held
        obtain ⟨present, few⟩ := tree.enough_child enough held
        exact ih present few
      constructor
      · rintro (⟨c, held, member⟩ | rfl)
        · exact .head held ((each c held).mp member)
        · exact .refl
      · intro below
        rcases ReflTransGen.cases_head below with rfl | ⟨c, held, rest⟩
        · exact .inr rfl
        · exact .inl ⟨c, held, (each c held).mpr rest⟩

theorem nodup_postorder (tree : Branching size children) (inside : i < size)
    (enough : (descendants size children i).card ≤ fuel) : (postorder children fuel i).Nodup := by
  induction fuel generalizing i with
  | zero => exact List.nodup_nil
  | succ fuel ih =>
      have each : ∀ c ∈ children i, c < size ∧ (descendants size children c).card ≤ fuel :=
        fun c held => tree.enough_child enough held
      rw [postorder, List.nodup_append']
      refine ⟨List.nodup_flatMap.mpr ⟨fun c held => ih (each c held).1 (each c held).2, ?_⟩,
        by simp, ?_⟩
      · refine (tree.unique i).imp_of_mem fun {left right} leftHeld rightHeld different node
          underLeft underRight => ?_
        have below := (tree.mem_postorder (each left leftHeld).1 (each left leftHeld).2).mp underLeft
        have alsoBelow :=
          (tree.mem_postorder (each right rightHeld).1 (each right rightHeld).2).mp underRight
        exact different (tree.siblings_apart leftHeld rightHeld below alsoBelow)
      · intro node member own
        obtain rfl := List.mem_singleton.mp own
        obtain ⟨c, held, under⟩ := List.mem_flatMap.mp member
        exact tree.not_below_parent held ((tree.mem_postorder (each c held).1 (each c held).2).mp under)

/-- Every child is before its parent. -/
theorem postorder_childrenFirst (tree : Branching size children) (inside : i < size)
    (enough : (descendants size children i).card ≤ fuel) :
    ChildrenFirst children (postorder children fuel i) := by
  induction fuel generalizing i with
  | zero => exact childrenFirst_nil
  | succ fuel ih =>
      have each : ∀ c ∈ children i, c < size ∧ (descendants size children c).card ≤ fuel :=
        fun c held => tree.enough_child enough held
      rw [postorder]
      refine childrenFirst_concat
        (childrenFirst_flatMap fun c held => ih (each c held).1 (each c held).2) fun c held => ?_
      exact List.mem_flatMap.mpr
        ⟨c, held, (tree.mem_postorder (each c held).1 (each c held).2).mpr .refl⟩

/-- Dropping edges leaves a forest. -/
theorem restrict (tree : Branching size children) {fewer : Nat → List Nat}
    (kept : ∀ i, (fewer i).Sublist (children i)) : Branching size fewer where
  inside held := tree.inside ((kept _).subset held)
  single left right := tree.single ((kept _).subset left) ((kept _).subset right)
  unique i := (tree.unique i).sublist (kept i)
  acyclic i cycle := tree.acyclic i (TransGen.mono (fun a _ held => (kept a).subset held) _ _ cycle)

end Branching

end VoteCounting
