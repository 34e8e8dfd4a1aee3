import VoteCounting.Server.Counts

namespace VoteCounting.Server

open Counters

/-! The counters of the regions against the votes cast in them.

`ledger` and `added` stand for what a history says: the votes each region has for each
candidate, and the candidates votes were ever added for.
-/

/-- The votes cast in the subtree of a region. -/
def subtreeTotal (table : Table) (ledger : Nat → CStr → Int) (region : Nat) (name : CStr) : Int :=
  ((subtree table.children table.size region).map fun i => ledger i name).sum

/-- Votes were added at the region or below it. -/
def AddedBelow (table : Table) (added : Nat → CStr → Prop) (region : Nat) (name : CStr) : Prop :=
  ∃ i, Below table.children region i ∧ added i name

/-- The list of one region: either its own votes, or the candidates of its subtree once each. -/
structure BookOf (ledger : Nat → CStr → Int) (added : Nat → CStr → Prop) (table : Table)
    (i : Nat) : Prop where
  empty : (table.node i).hasdata = false →
    (table.node i).rootCounter = [] ∧ ∀ name, ¬ added i name
  listed : (table.node i).hasdata = true → ∀ name, AddedBelow table added i name →
    name ∈ names (table.node i).rootCounter
  origin : ∀ name ∈ names (table.node i).rootCounter, AddedBelow table added i name
  exact : ∀ name, added i name → ∀ other, total (table.node i).rootCounter other = ledger i other
  unique : (∀ name, ¬ added i name) → (names (table.node i).rootCounter).Nodup

/-- A counted region lists the totals of its subtree. -/
def Tracked (modulus : Nat) (ledger : Nat → CStr → Int) (table : Table) (i : Nat) : Prop :=
  (table.node i).hasdata = true →
    ∀ name, total (table.node i).rootCounter name ≡ subtreeTotal table ledger i name [ZMOD modulus]

/-- What holds of the votes themselves: no votes without an addition, and none below a region
that has votes of its own. -/
structure Cast (ledger : Nat → CStr → Int) (added : Nat → CStr → Prop) (table : Table) : Prop where
  plain : ∀ i, (∀ name, ¬ added i name) → ∀ name, ledger i name = 0
  inside : ∀ i name, added i name → i < table.size
  lone : ∀ i j name other, added i name → Below table.children i j → i ≠ j → ¬ added j other

section Totals

variable {modulus : Nat} {ledger : Nat → CStr → Int} {added : Nat → CStr → Prop}
  {table after : Table} {region child i j : Nat} {name : CStr}

theorem subtreeTotal_congr (size : after.size = table.size)
    (children : after.children = table.children) :
    subtreeTotal after ledger region name = subtreeTotal table ledger region name := by
  rw [subtreeTotal, subtreeTotal, size, children]

theorem CountersOnly.subtreeTotal_eq (kept : CountersOnly table after) :
    subtreeTotal after ledger region name = subtreeTotal table ledger region name :=
  subtreeTotal_congr kept.size kept.children_eq

theorem WellFormed.subtreeTotal_eq (wellFormed : WellFormed table) :
    subtreeTotal table ledger region name = ledger region name +
      ((table.children region).map fun child => subtreeTotal table ledger child name).sum :=
  wellFormed.forest.sum_subtree ⟨by omega, wellFormed.nonempty⟩

theorem WellFormed.mem_subtree_iff (wellFormed : WellFormed table) :
    j ∈ subtree table.children table.size i ↔ Below table.children i j :=
  wellFormed.forest.mem_subtree_iff ⟨by omega, wellFormed.nonempty⟩

theorem subtreeTotal_eq_zero (wellFormed : WellFormed table) (cast : Cast ledger added table)
    (none : ∀ other, ¬ AddedBelow table added region other) :
    subtreeTotal table ledger region name = 0 := by
  apply List.sum_eq_zero
  intro share member
  obtain ⟨i, inside, rfl⟩ := List.mem_map.mp member
  have below := wellFormed.mem_subtree_iff.mp inside
  exact cast.plain i (fun other isAdded => none other ⟨i, below, isAdded⟩) name

theorem BookOf.congr (book : BookOf ledger added table i) (children : after.children = table.children)
    (rootCounter : (after.node i).rootCounter = (table.node i).rootCounter)
    (hasdata : (after.node i).hasdata = (table.node i).hasdata) : BookOf ledger added after i where
  empty := by rw [rootCounter, hasdata]; exact book.empty
  listed := by rw [rootCounter, hasdata]; unfold AddedBelow; rw [children]; exact book.listed
  origin := by rw [rootCounter]; unfold AddedBelow; rw [children]; exact book.origin
  exact := by rw [rootCounter]; exact book.exact
  unique := by rw [rootCounter]; exact book.unique

theorem Tracked.congr (tracked : Tracked modulus ledger table i) (size : after.size = table.size)
    (children : after.children = table.children)
    (rootCounter : (after.node i).rootCounter = (table.node i).rootCounter)
    (hasdata : (after.node i).hasdata = (table.node i).hasdata) : Tracked modulus ledger after i := by
  intro counted other
  rw [hasdata] at counted
  rw [rootCounter, subtreeTotal_congr size children]
  exact tracked counted other

end Totals

theorem foldl_copyCounter_eq {modulus : Nat} {entries : List Counter} {parent : Node}
    (empty : parent.hasdata = false → parent.rootCounter = []) :
    entries.foldl (copyCounter modulus) parent =
      { parent with
        rootCounter := creditAll modulus parent.rootCounter entries
        hasdata := parent.hasdata || !entries.isEmpty } := by
  induction entries generalizing parent with
  | nil => simp
  | cons entry rest ih =>
      have first : copyCounter modulus parent entry = { parent with
          rootCounter := credit modulus parent.rootCounter entry.name entry.count
          hasdata := true } := by
        rw [copyCounter]
        cases counted : parent.hasdata with
        | true => simp [← counted]
        | false => simp [empty counted, credit]
      rw [List.foldl_cons, ih (by simp [first]), first]
      simp

/-- The list of a child that is about to be merged: the totals of its subtree. -/
structure Summed (modulus : Nat) (ledger : Nat → CStr → Int) (added : Nat → CStr → Prop)
    (table : Table) (child : Nat) : Prop where
  totals : ∀ name, total (table.node child).rootCounter name ≡
    subtreeTotal table ledger child name [ZMOD modulus]
  names_iff : ∀ name, name ∈ names (table.node child).rootCounter ↔ AddedBelow table added child name

/-- The region after the merges of some of its children.  `table` is the state before the
first merge. -/
structure Merged (modulus : Nat) (ledger : Nat → CStr → Int) (added : Nat → CStr → Prop)
    (table : Table) (region : Nat) (merged : List Nat) (after : Table) : Prop where
  frame : CountersOnly table after
  outside : ∀ i, ¬ Below table.children region i → after.node i = table.node i
  fit : CountsFit modulus after
  below : ∀ i, Below table.children region i → i ≠ region →
    BookOf ledger added after i ∧ Tracked modulus ledger after i
  totals : ∀ name, total (after.node region).rootCounter name ≡
    total (table.node region).rootCounter name +
      (merged.map fun child => subtreeTotal table ledger child name).sum [ZMOD modulus]
  names_iff : ∀ name, name ∈ names (after.node region).rootCounter ↔
    name ∈ names (table.node region).rootCounter ∨
      ∃ child ∈ merged, AddedBelow table added child name
  unique : (names (table.node region).rootCounter).Nodup →
    (names (after.node region).rootCounter).Nodup
  quiet : (∀ child ∈ merged, ∀ name, ¬ AddedBelow table added child name) →
    after.node region = table.node region
  gains : (after.node region).hasdata = true ↔ (table.node region).hasdata = true ∨
    ∃ child ∈ merged, ∃ name, AddedBelow table added child name

section Merging

variable {modulus fuel : Nat} {ledger : Nat → CStr → Int} {added : Nat → CStr → Prop}
  {table current after : Table} {region child i j : Nat} {name : CStr} {merged : List Nat}

theorem AddedBelow.congr (children : after.children = table.children) :
    AddedBelow after added region name ↔ AddedBelow table added region name := by
  unfold AddedBelow
  rw [children]

theorem Merged.nil (fit : CountsFit modulus table)
    (below : ∀ i, Below table.children region i → i ≠ region →
      BookOf ledger added table i ∧ Tracked modulus ledger table i) :
    Merged modulus ledger added table region [] table where
  frame := .refl table
  outside _ _ := rfl
  fit := fit
  below := below
  totals _ := by simp [Int.ModEq.refl]
  names_iff _ := by simp
  unique nodup := nodup
  quiet _ := rfl
  gains := by simp

theorem Summed.of_tracked (book : BookOf ledger added table i)
    (tracked : Tracked modulus ledger table i)
    (counted : (table.node i).hasdata = true) : Summed modulus ledger added table i :=
  ⟨tracked counted, fun name => ⟨book.origin name, book.listed counted name⟩⟩

theorem Summed.of_quiet (wellFormed : WellFormed table) (cast : Cast ledger added table)
    (empty : (table.node i).rootCounter = [])
    (none : ∀ name, ¬ AddedBelow table added i name) : Summed modulus ledger added table i where
  totals name := by
    rw [empty, subtreeTotal_eq_zero wellFormed cast none]
    exact Int.ModEq.refl 0
  names_iff name := by simp [empty, none name]

theorem Summed.isEmpty_iff (summed : Summed modulus ledger added table child) :
    (table.node child).rootCounter.isEmpty = true ↔ ∀ name, ¬ AddedBelow table added child name := by
  rw [List.isEmpty_iff]
  constructor
  · intro empty name isAdded
    have member := (summed.names_iff name).mpr isAdded
    simp [empty] at member
  · intro none
    exact eq_nil_of_no_names fun name member => none name ((summed.names_iff name).mp member)

theorem Merged.empty (sofar : Merged modulus ledger added table region merged current)
    (start : (table.node region).hasdata = false → (table.node region).rootCounter = [])
    (uncounted : (current.node region).hasdata = false) : (current.node region).rootCounter = [] := by
  have never : ¬ ((table.node region).hasdata = true ∨
      ∃ child ∈ merged, ∃ name, AddedBelow table added child name) := by
    rw [← sofar.gains, uncounted]
    simp
  rw [not_or] at never
  rw [sofar.quiet fun child member name isAdded => never.2 ⟨child, member, name, isAdded⟩]
  exact start (by simpa using never.1)

theorem Merged.snoc (wellFormed : WellFormed table) (start : (table.node region).hasdata = false →
      (table.node region).rootCounter = [])
    (sofar : Merged modulus ledger added table region merged current)
    (held : child ∈ table.children region) (summed : Summed modulus ledger added current child) :
    Merged modulus ledger added table region (merged ++ [child])
      (mergeChild modulus current region child) := by
  have inside : region < current.size := by
    rw [sofar.frame.size]
    have bounds := wellFormed.forest.later held
    omega
  have children : current.children = table.children := sofar.frame.children_eq
  have node : (mergeChild modulus current region child).node region =
      { current.node region with
        rootCounter := creditAll modulus (current.node region).rootCounter
          (current.node child).rootCounter
        hasdata := (current.node region).hasdata || !(current.node child).rootCounter.isEmpty } := by
    rw [mergeChild, Table.node_modify_self inside, foldl_copyCounter_eq (sofar.empty start)]
  have others : ∀ i, i ≠ region →
      (mergeChild modulus current region child).node i = current.node i := fun i other =>
    Table.node_modify_of_ne (Ne.symm other)
  have step : CountersOnly current (mergeChild modulus current region child) := mergeChild_frame
  have stepChildren : (mergeChild modulus current region child).children = current.children :=
    step.children_eq
  have childAdded : ∀ name, name ∈ names (current.node child).rootCounter ↔
      AddedBelow table added child name := fun name =>
    (summed.names_iff name).trans (AddedBelow.congr children)
  refine ⟨sofar.frame.trans step, fun i notBelow => ?_, sofar.fit.mergeChild, fun i below proper => ?_,
    fun name => ?_, fun name => ?_, fun nodup => ?_, fun silent => ?_, ?_⟩
  · have other : i ≠ region := fun same => notBelow (same ▸ .refl)
    rw [others i other]
    exact sofar.outside i notBelow
  · obtain ⟨book, tracked⟩ := sofar.below i below proper
    have same := others i proper
    exact ⟨book.congr stepChildren (by rw [same]) (by rw [same]),
      tracked.congr step.size stepChildren (by rw [same]) (by rw [same])⟩
  · rw [node]
    simp only [List.map_append, List.map_cons, List.map_nil, List.sum_append, List.sum_cons,
      List.sum_nil, add_zero, ← add_assoc]
    have childTotal := summed.totals name
    rw [sofar.frame.subtreeTotal_eq] at childTotal
    exact total_creditAll_modEq.trans ((sofar.totals name).add childTotal)
  · rw [node]
    simp only [mem_names_creditAll, sofar.names_iff, childAdded, List.mem_append,
      List.mem_singleton, or_and_right, exists_or, exists_eq_left, or_assoc]
  · rw [node]
    exact nodup_creditAll (sofar.unique nodup)
  · have noEntry : (current.node child).rootCounter = [] :=
      List.isEmpty_iff.mp (summed.isEmpty_iff.mpr fun name isAdded =>
        silent child (by simp) name ((AddedBelow.congr children).mp isAdded))
    have before := sofar.quiet fun child member => silent child (by simp [member])
    rw [node, noEntry, ← before]
    simp
  · rw [node]
    have nonempty : (!(current.node child).rootCounter.isEmpty) = true ↔
        ∃ name, AddedBelow table added child name := by
      rw [Bool.not_eq_true', ← Bool.not_eq_true, summed.isEmpty_iff, not_forall_not]
      exact exists_congr fun name => AddedBelow.congr children
    simp only [Bool.or_eq_true, sofar.gains, nonempty, List.mem_append, List.mem_singleton,
      or_and_right, exists_or, exists_eq_left, or_assoc]

theorem addedBelow_iff : AddedBelow table added region name ↔
    added region name ∨ ∃ child ∈ table.children region, AddedBelow table added child name := by
  constructor
  · intro ⟨i, below, isAdded⟩
    rcases Relation.ReflTransGen.cases_head below with rfl | ⟨child, held, rest⟩
    · exact .inl isAdded
    · exact .inr ⟨child, held, i, rest, isAdded⟩
  · intro either
    rcases either with isAdded | ⟨child, held, i, rest, isAdded⟩
    · exact ⟨region, .refl, isAdded⟩
    · exact ⟨i, .head held rest, isAdded⟩

theorem Cast.congr (cast : Cast ledger added table) (size : after.size = table.size)
    (children : after.children = table.children) : Cast ledger added after where
  plain := cast.plain
  inside := by rw [size]; exact cast.inside
  lone := by rw [children]; exact cast.lone

theorem WellFormed.congr (wellFormed : WellFormed table) (size : after.size = table.size)
    (children : after.children = table.children) : WellFormed after :=
  ⟨size ▸ wellFormed.nonempty, by rw [size, children]; exact wellFormed.forest⟩

theorem Merged.book (wellFormed : WellFormed table) (cast : Cast ledger added table)
    (own : BookOf ledger added table region) (uncounted : (table.node region).hasdata = false)
    (done : Merged modulus ledger added table region (table.children region) after) :
    BookOf ledger added after region ∧ Tracked modulus ledger after region := by
  obtain ⟨noList, notAdded⟩ := own.empty uncounted
  have children : after.children = table.children := done.frame.children_eq
  have below : ∀ name, AddedBelow after added region name ↔
      ∃ child ∈ table.children region, AddedBelow table added child name := by
    intro name
    rw [AddedBelow.congr children, addedBelow_iff]
    simp [notAdded name]
  have listed : ∀ name, name ∈ names (after.node region).rootCounter ↔
      AddedBelow after added region name := by
    intro name
    rw [done.names_iff, below, noList]
    simp
  refine ⟨⟨fun stillEmpty => ?_, fun _ name isAdded => (listed name).mpr isAdded,
    fun name member => (listed name).mp member, fun name isAdded => absurd isAdded (notAdded name),
    fun _ => done.unique (by simp [noList])⟩, fun _ name => ?_⟩
  · have silent : ∀ child ∈ table.children region, ∀ name, ¬ AddedBelow table added child name := by
      intro child held name isAdded
      have gained := done.gains.mpr (.inr ⟨child, held, name, isAdded⟩)
      rw [stillEmpty] at gained
      cases gained
    rw [done.quiet silent]
    exact ⟨noList, notAdded⟩
  · rw [done.frame.subtreeTotal_eq, wellFormed.subtreeTotal_eq,
      cast.plain region notAdded, zero_add]
    simpa [noList] using done.totals name

theorem Merged.rebook (wellFormed : WellFormed table) (cast : Cast ledger added table)
    (own : BookOf ledger added table region)
    (counted : (table.node region).hasdata = true)
    (done : Merged modulus ledger added table region (table.children region) after) :
    BookOf ledger added after region := by
  have children : after.children = table.children := done.frame.children_eq
  have stillCounted : (after.node region).hasdata = true := done.gains.mpr (.inl counted)
  refine ⟨fun uncounted => ?_, fun _ name isAdded => ?_, fun name member => ?_,
    fun name isAdded other => ?_, fun notAdded => done.unique (own.unique notAdded)⟩
  · rw [stillCounted] at uncounted
    cases uncounted
  · rw [AddedBelow.congr children] at isAdded
    exact (done.names_iff name).mpr (.inl (own.listed counted name isAdded))
  · rw [AddedBelow.congr children]
    rcases (done.names_iff name).mp member with before | ⟨child, held, isAdded⟩
    · exact own.origin name before
    · exact addedBelow_iff.mpr (.inr ⟨child, held, isAdded⟩)
  · have silent : ∀ child ∈ table.children region, ∀ other, ¬ AddedBelow table added child other := by
      intro child held other ⟨i, below, alsoAdded⟩
      have proper : region ≠ i := by
        have first := (wellFormed.forest.later held).1
        have rest := wellFormed.forest.below_le below
        omega
      exact cast.lone region i name other isAdded (.head held below) proper alsoAdded
    rw [done.quiet silent]
    exact own.exact name isAdded other

theorem mergeChild_nil (empty : (table.node child).rootCounter = []) :
    mergeChild modulus table region child = table := by
  rw [mergeChild, empty]
  apply Table.ext_node (by simp)
  intro i
  exact Table.node_modify_proj id fun _ => rfl

/-- A child is counted first: the merges of the region go on from the table this leaves. -/
theorem Merged.inner {counted : Table} (wellFormed : WellFormed table) (cast : Cast ledger added table)
    (sofar : Merged modulus ledger added table region merged current)
    (held : child ∈ table.children region) (uncounted : (current.node child).hasdata = false)
    (done : Merged modulus ledger added current child (current.children child) counted) :
    Merged modulus ledger added table region merged counted ∧
      Summed modulus ledger added counted child := by
  have children : current.children = table.children := sofar.frame.children_eq
  have countedChildren : counted.children = current.children := done.frame.children_eq
  have different : child ≠ region := (wellFormed.forest.later held).1.ne'
  have path : Below table.children region child := .single held
  have notAbove : ¬ Below current.children child region := by
    rw [children]
    intro back
    have first := (wellFormed.forest.later held).1
    have rest := wellFormed.forest.below_le back
    omega
  have currentFormed := wellFormed.congr sofar.frame.size children
  have currentCast := cast.congr sofar.frame.size children
  have own := (sofar.below child path different).1
  obtain ⟨book, tracked⟩ := done.book currentFormed currentCast own uncounted
  have same : counted.node region = current.node region := done.outside region notAbove
  refine ⟨⟨sofar.frame.trans done.frame, fun i notBelow => ?_, done.fit, fun i below proper => ?_,
    fun name => ?_, fun name => ?_, fun nodup => ?_, fun silent => ?_, ?_⟩, ?_⟩
  · have beyond : ¬ Below current.children child i := by
      rw [children]
      exact fun under => notBelow (.head held under)
    rw [done.outside i beyond]
    exact sofar.outside i notBelow
  · by_cases under : Below current.children child i
    · by_cases itself : i = child
      · subst itself
        exact ⟨book, tracked⟩
      · exact done.below i under itself
    · obtain ⟨before, trackedBefore⟩ := sofar.below i below proper
      have kept := done.outside i under
      exact ⟨before.congr countedChildren (by rw [kept]) (by rw [kept]),
        trackedBefore.congr done.frame.size countedChildren (by rw [kept]) (by rw [kept])⟩
  · rw [same]
    exact sofar.totals name
  · rw [same]
    exact sofar.names_iff name
  · rw [same]
    exact sofar.unique nodup
  · rw [same]
    exact sofar.quiet silent
  · rw [same]
    exact sofar.gains
  · cases flag : (counted.node child).hasdata with
    | true => exact .of_tracked book tracked flag
    | false =>
        have empty := book.empty flag
        refine .of_quiet (currentFormed.congr done.frame.size countedChildren)
          (currentCast.congr done.frame.size countedChildren) empty.1 fun name isAdded => ?_
        rw [AddedBelow.congr countedChildren, addedBelow_iff] at isAdded
        rcases isAdded with isAdded | ⟨grandchild, member, isAdded⟩
        · exact empty.2 name isAdded
        · have gained := done.gains.mpr (.inr ⟨grandchild, member, name, isAdded⟩)
          rw [flag] at gained
          cases gained

/-- One round of the loop of `aggregate`, if the count of an uncounted child is right. -/
theorem Merged.round {next : Table} (wellFormed : WellFormed table) (cast : Cast ledger added table)
    (start : (table.node region).hasdata = false → (table.node region).rootCounter = [])
    (sofar : Merged modulus ledger added table region merged current)
    (held : child ∈ table.children region)
    (inner : ∀ counted, (current.node child).hasdata = false →
      aggregate modulus fuel current child = some counted →
      Merged modulus ledger added current child (current.children child) counted)
    (ran : aggregateChild modulus fuel region current child = some next) :
    Merged modulus ledger added table region (merged ++ [child]) next := by
  have different : child ≠ region := (wellFormed.forest.later held).1.ne'
  obtain ⟨book, tracked⟩ := sofar.below child (.single held) different
  rw [aggregateChild] at ran
  cases flag : (current.node child).hasdata with
  | true =>
      simp only [flag, ↓reduceIte, Option.some.injEq] at ran
      rw [← ran]
      exact sofar.snoc wellFormed start held (.of_tracked book tracked flag)
  | false =>
      simp only [flag, Bool.false_eq_true, ↓reduceIte] at ran
      split at ran
      · obtain ⟨counted, done, merge⟩ := Option.map_eq_some_iff.mp ran
        obtain ⟨kept, summed⟩ := sofar.inner wellFormed cast held flag (inner counted flag done)
        rw [← merge]
        exact kept.snoc wellFormed start held summed
      · rename_i leaf
        cases ran
        have empty := book.empty flag
        have children : current.children = table.children := sofar.frame.children_eq
        have summed : Summed modulus ledger added current child := by
          refine .of_quiet (wellFormed.congr sofar.frame.size children)
            (cast.congr sofar.frame.size children) empty.1 fun name isAdded => ?_
          have noChild : current.children child = [] := by simpa using leaf
          rw [addedBelow_iff, noChild] at isAdded
          simp [empty.2 name] at isAdded
        -- A leaf without data is skipped, which is the merge of an empty list.
        have merge := sofar.snoc wellFormed start held summed
        rwa [mergeChild_nil empty.1] at merge

/-- `aggregate` merges every child, each with the totals of its subtree. -/
theorem aggregate_merged (wellFormed : WellFormed table) (cast : Cast ledger added table)
    (fit : CountsFit modulus table)
    (start : (table.node region).hasdata = false → (table.node region).rootCounter = [])
    (below : ∀ i, Below table.children region i → i ≠ region →
      BookOf ledger added table i ∧ Tracked modulus ledger table i)
    (done : aggregate modulus fuel table region = some after) :
    Merged modulus ledger added table region (table.children region) after := by
  induction fuel generalizing table region after with
  | zero => cases done
  | succ fuel ih =>
      rw [aggregate_succ] at done
      refine Loop.invariant
        (fun merged current => Merged modulus ledger added table region merged current)
        (.nil fit below) (fun {merged rest child current next} whole sofar ran => ?_) done
      have held : child ∈ table.children region := by simp [whole]
      have children : current.children = table.children := sofar.frame.children_eq
      have bounds := (wellFormed.forest.later held).1
      refine sofar.round wellFormed cast start held (fun counted flag inner => ?_) ran
      refine ih (wellFormed.congr sofar.frame.size children) (cast.congr sofar.frame.size children)
        sofar.fit (fun uncounted => ?_) (fun i under proper => ?_) inner
      · exact ((sofar.below child (.single held) bounds.ne').1.empty uncounted).1
      · rw [children] at under
        have further := wellFormed.forest.below_le under
        exact sofar.below i (.head held under) (by omega)

end Merging

end VoteCounting.Server
