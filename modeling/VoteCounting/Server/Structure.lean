import VoteCounting.Data.Forest
import VoteCounting.Data.Run
import VoteCounting.Server.Steps

namespace VoteCounting.Server

open Counters CString

/-- Two tables that differ only in counters. -/
structure CountersOnly (before after : Table) : Prop where
  size : after.size = before.size
  name : ∀ i, (after.node i).name = (before.node i).name
  children : ∀ i, after.children i = before.children i
  isOpen : ∀ i, (after.node i).isOpen = (before.node i).isOpen
  closed : ∀ i, (after.node i).closed = (before.node i).closed

theorem CountersOnly.refl (table : Table) : CountersOnly table table :=
  ⟨rfl, fun _ => rfl, fun _ => rfl, fun _ => rfl, fun _ => rfl⟩

theorem CountersOnly.trans {first second third : Table} (left : CountersOnly first second)
    (right : CountersOnly second third) : CountersOnly first third :=
  ⟨right.size.trans left.size, fun i => (right.name i).trans (left.name i),
    fun i => (right.children i).trans (left.children i),
    fun i => (right.isOpen i).trans (left.isOpen i), fun i => (right.closed i).trans (left.closed i)⟩

section Frames

variable {modulus fuel : Nat} {table after : Table} {region child i : Nat}

theorem CountersOnly.children_eq (kept : CountersOnly table after) : after.children = table.children :=
  funext kept.children

theorem countersOnly_modify {change : Node → Node}
    (kept : ∀ node, ∃ rootCounter hasdata, change node = { node with rootCounter, hasdata }) :
    CountersOnly table (table.modify region change) where
  size := Table.size_modify
  name _ := Table.node_modify_proj Node.name fun node => by obtain ⟨_, _, same⟩ := kept node; rw [same]
  children _ :=
    Table.node_modify_proj Node.children fun node => by obtain ⟨_, _, same⟩ := kept node; rw [same]
  isOpen _ :=
    Table.node_modify_proj Node.isOpen fun node => by obtain ⟨_, _, same⟩ := kept node; rw [same]
  closed _ :=
    Table.node_modify_proj Node.closed fun node => by obtain ⟨_, _, same⟩ := kept node; rw [same]

theorem foldl_copyCounter (entries : List Counter) (parent : Node) :
    ∃ rootCounter hasdata, entries.foldl (copyCounter modulus) parent =
      { parent with rootCounter, hasdata } := by
  induction entries generalizing parent with
  | nil => exact ⟨parent.rootCounter, parent.hasdata, rfl⟩
  | cons entry rest ih =>
      obtain ⟨rootCounter, hasdata, same⟩ := ih (copyCounter modulus parent entry)
      rw [List.foldl_cons, same]
      rw [copyCounter]
      split <;> exact ⟨rootCounter, hasdata, rfl⟩

theorem mergeChild_frame : CountersOnly table (mergeChild modulus table region child) :=
  countersOnly_modify (foldl_copyCounter _)

def aggregateChild (modulus fuel region : Nat) (table : Table) (child : Nat) : Option Table :=
  if (table.node child).hasdata then some (mergeChild modulus table region child)
  else if table.children child ≠ [] then
    (aggregate modulus fuel table child).map (mergeChild modulus · region child)
  else some table

theorem aggregate_succ : aggregate modulus (fuel + 1) table region =
    (table.children region).foldlM (aggregateChild modulus fuel region) table := rfl

/-- What every merge of a child keeps, `aggregate` keeps. -/
theorem aggregate_keeps (P : Table → Prop)
    (merged : ∀ {table : Table} (region child : Nat), P table →
      P (mergeChild modulus table region child))
    (holds : P table) (done : aggregate modulus fuel table region = some after) : P after := by
  induction fuel generalizing table region after with
  | zero => cases done
  | succ fuel ih =>
      rw [aggregate_succ] at done
      refine Loop.keeps P holds (fun {child table after} holds step => ?_) done
      rw [aggregateChild] at step
      split at step
      · cases step
        exact merged region child holds
      · split at step
        · obtain ⟨counted, inner, same⟩ := Option.map_eq_some_iff.mp step
          exact same ▸ merged region child (ih holds inner)
        · cases step
          exact holds

theorem aggregate_frame (done : aggregate modulus fuel table region = some after) :
    CountersOnly table after :=
  aggregate_keeps (CountersOnly table) (fun _ _ kept => kept.trans mergeChild_frame) (.refl table) done

theorem aggregate_total (modulus : Nat) (forest : Forest table.size table.children)
    (enough : Enough table.size fuel region) :
    ∃ after, aggregate modulus fuel table region = some after := by
  induction fuel generalizing table region with
  | zero => exact absurd enough.2 (Nat.lt_irrefl 0)
  | succ fuel ih =>
      have total : ∀ current, CountersOnly table current → ∀ child ∈ table.children region,
          ∃ after, aggregateChild modulus fuel region current child = some after ∧
            CountersOnly table after := by
        intro current kept child member
        rw [aggregateChild]
        split
        · exact ⟨_, rfl, kept.trans mergeChild_frame⟩
        · split
          · have sameForest : Forest current.size current.children := by
              rw [kept.size, kept.children_eq]
              exact forest
            obtain ⟨counted, inner⟩ := ih sameForest (kept.size ▸ forest.enough_child enough member)
            exact ⟨_, by rw [inner]; rfl, (kept.trans (aggregate_frame inner)).trans mergeChild_frame⟩
          · exact ⟨current, rfl, kept⟩
      obtain ⟨after, done, _⟩ := Loop.total (CountersOnly table) (.refl table) total
      exact ⟨after, done⟩

end Frames

section AddChild

variable {table : Table} {parent i : Nat} {childname : CStr}

@[simp] theorem addChild_size : (addChild table parent childname).size = table.size + 1 := by
  simp [addChild, Table.size, Table.modify]

theorem addChild_node_new : (addChild table parent childname).node table.size = create childname := by
  simp [addChild, Table.node, Table.modify, List.getD]

theorem addChild_node_of_ne (different : i ≠ table.size) :
    (addChild table parent childname).node i =
      (table.modify parent fun node => { node with children := node.children ++ [table.size] }).node
        i := by
  by_cases inside : i < table.size
  · simp [addChild, Table.node, Table.modify, List.getD, List.getElem?_append_left, inside]
  · have beyond : table.size < i := by omega
    have outside : (addChild table parent childname).size ≤ i := by
      rw [addChild_size]
      exact beyond
    rw [Table.node_of_size_le outside, Table.node_of_size_le]
    rw [Table.size_modify]
    exact beyond.le

/-- A projection that ignores the children is kept at every old region. -/
theorem addChild_proj {β : Type} (proj : Node → β) (ignores : ∀ node children,
      proj { node with children } = proj node) (different : i ≠ table.size) :
    proj ((addChild table parent childname).node i) = proj (table.node i) := by
  rw [addChild_node_of_ne different]
  exact Table.node_modify_proj proj fun node => ignores node _

theorem addChild_children (present : parent < table.size) :
    (addChild table parent childname).children =
      Forest.addLeaf table.children parent table.size := by
  funext i
  by_cases new : i = table.size
  · subst new
    have noChild : table.children table.size = [] := by
      rw [Table.children, Table.node_of_size_le (Nat.le_refl _)]
    rw [Forest.addLeaf, Function.update_of_ne (by omega), noChild, Table.children, addChild_node_new]
    rfl
  · rw [Table.children, addChild_node_of_ne new, Table.node_modify present, Forest.addLeaf]
    by_cases same : parent = i
    · subst same
      rw [if_pos rfl, Function.update_self]
      rfl
    · rw [if_neg same, Function.update_of_ne (Ne.symm same)]
      rfl

end AddChild

abbrev Answered := Event Table CStr (List Response)

/-- The runs of the server started from a region file. -/
def Served (modulus : Nat) (file : CStr) (history : List Answered) (table : Table) : Prop :=
  ∃ start, createDAG file = some start ∧ Run (dispatchCode modulus) start history table

structure WellFormed (table : Table) : Prop where
  nonempty : 0 < table.size
  forest : Forest table.size table.children

section Shape

variable {modulus : Nat} {table after : Table} {str : CStr} {answer : List Response} {file : CStr}

theorem storeCounters_frame {region : Nat} {rootCounter : List Counter} :
    CountersOnly table (table.modify region fun node => { node with rootCounter }) :=
  countersOnly_modify fun node => ⟨rootCounter, node.hasdata, rfl⟩

theorem storeVotes_frame {region : Nat} {rootCounter : List Counter} : CountersOnly table
    (table.modify region fun node => { node with rootCounter, hasdata := true }) :=
  countersOnly_modify fun _ => ⟨rootCounter, true, rfl⟩

/-- Flags change only where polls open or close, the tree only where a region is added. -/
theorem Step.frame (step : Step modulus table str answer after) :
    CountersOnly table after ∨
      (∃ rule field region, pollRule (command (trimlastenter str)) = some rule ∧
        (argvpOf str)[1]? = some field ∧ table.lookup (trimwhitespace field) = some region ∧
        rule.refusal (table.node region) = none ∧
        visitPolls rule (table.size + 1) table (.field field) = some (1, after)) ∨
      ∃ parent childname, command (trimlastenter str) = .addRegion ∧
        table.Names (argvpOf str) 1 parent ∧
          after = addChild table parent (trimwhitespace childname) := by
  cases step with
  | refused _ => exact .inl (.refl table)
  | polls selected present found allowed visited =>
      exact .inr (.inl ⟨_, _, _, selected, present, found, allowed, visited⟩)
  | votesAdded => exact .inl storeVotes_frame
  | votesRemoved => exact .inl storeCounters_frame
  | regionAdded selected named _ => exact .inr (.inr ⟨_, _, selected, named, rfl⟩)
  | votesRead => exact .inl (.refl table)
  | votesCounted _ _ _ counted => exact .inl (aggregate_frame counted)
  | won _ _ _ counted => exact .inl (aggregate_frame counted)

/-- The shape of the tree changes only where a region is added. -/
theorem Step.shape (step : Step modulus table str answer after) :
    (after.size = table.size ∧ after.children = table.children) ∨
      ∃ parent childname, table.Names (argvpOf str) 1 parent ∧
        command (trimlastenter str) = .addRegion ∧ after = addChild table parent childname := by
  rcases step.frame with kept | ⟨_, _, _, _, _, _, _, visited⟩ | ⟨_, _, selected, named, rfl⟩
  · exact .inl ⟨kept.size, kept.children_eq⟩
  · have kept := visitPolls_visited visited
    exact .inl ⟨kept.size, kept.children_eq⟩
  · exact .inr ⟨_, _, named, selected, rfl⟩

theorem Table.Names.inside {argvp : List CStr} {k region : Nat}
    (named : table.Names argvp k region) : region < table.size := by
  obtain ⟨_, _, found⟩ := named
  exact (Table.lookup_some found).1

theorem WellFormed.step (wellFormed : WellFormed table)
    (answered : dispatchCode modulus table str = .ok (answer, after)) : WellFormed after := by
  rcases (dispatchCode_step wellFormed.nonempty answered).shape with
    ⟨size, children⟩ | ⟨parent, childname, named, _, rfl⟩
  · exact ⟨size ▸ wellFormed.nonempty, by rw [size, children]; exact wellFormed.forest⟩
  · refine ⟨by simp, ?_⟩
    rw [addChild_size, addChild_children named.inside]
    exact wellFormed.forest.addLeaf_forest named.inside

theorem addLine_size {region : Nat} {names : List CStr} :
    (addLine table region names).size = table.size + names.length := by
  simp [addLine, Table.size, Table.modify]

theorem addLine_node_old {region i : Nat} {names : List CStr} (inside : i < table.size) :
    (addLine table region names).node i = (table.modify region fun node =>
      { node with children := List.range' table.size names.length }).node i := by
  simp [addLine, Table.node, Table.modify, List.getD, List.getElem?_append_left, inside]

theorem addLine_node_new {i : Nat} (fresh : table.size ≤ i) (region : Nat) (names : List CStr) :
    ∃ name, (addLine table region names).node i = create name := by
  by_cases inside : i < (addLine table region names).size
  · rw [Table.node_eq_getElem inside]
    simp only [addLine, Table.modify]
    rw [List.getElem_append_right (by simpa using fresh), List.getElem_map]
    exact ⟨_, rfl⟩
  · exact ⟨[], by rw [Table.node_of_size_le (Nat.le_of_not_lt inside)]; rfl⟩

theorem addLine_children {region : Nat} {names : List CStr} (present : region < table.size) :
    (addLine table region names).children =
      Function.update table.children region (List.range' table.size names.length) := by
  funext i
  by_cases inside : i < table.size
  · rw [Table.children, addLine_node_old inside, Table.node_modify present]
    by_cases same : region = i
    · subst same
      rw [if_pos rfl, Function.update_self]
    · rw [if_neg same, Function.update_of_ne (Ne.symm same)]
      rfl
  · have outside : table.size ≤ i := Nat.le_of_not_lt inside
    have noChild : table.children i = [] := by
      rw [Table.children, Table.node_of_size_le outside]
    obtain ⟨name, created⟩ := addLine_node_new outside region names
    rw [Function.update_of_ne (by omega), noChild, Table.children, created]
    rfl

theorem WellFormed.addLine {region : Nat} {names : List CStr} (wellFormed : WellFormed table)
    (present : region < table.size) : WellFormed (addLine table region names) where
  nonempty := by rw [addLine_size]; exact Nat.add_pos_left wellFormed.nonempty _
  forest := by
    rw [addLine_size, addLine_children present]
    simpa using wellFormed.forest.graft present (List.nil_sublist (table.children region))

/-- A region nothing has happened to yet. -/
structure Untouched (node : Node) : Prop where
  isOpen : node.isOpen = false
  closed : node.closed = false
  rootCounter : node.rootCounter = []
  hasdata : node.hasdata = false

/-- What reading a region file builds. -/
structure Initial (table : Table) : Prop where
  wellFormed : WellFormed table
  untouched : ∀ i, Untouched (table.node i)

theorem Untouched.congr {node other : Node} (untouched : Untouched node)
    (isOpen : other.isOpen = node.isOpen) (closed : other.closed = node.closed)
    (rootCounter : other.rootCounter = node.rootCounter) (hasdata : other.hasdata = node.hasdata) :
    Untouched other :=
  ⟨isOpen.trans untouched.isOpen, closed.trans untouched.closed,
    rootCounter.trans untouched.rootCounter, hasdata.trans untouched.hasdata⟩

theorem Untouched.modify {region : Nat} {change : Node → Node}
    (untouched : ∀ i, Untouched (table.node i))
    (kept : ∀ node, ∃ name children, change node = { node with name, children }) (i : Nat) :
    Untouched ((table.modify region change).node i) := by
  have same : ∀ {β : Type} (proj : Node → β), (∀ node name children,
      proj { node with name, children } = proj node) →
      proj ((table.modify region change).node i) = proj (table.node i) := fun proj ignores =>
    Table.node_modify_proj proj fun node => by
      obtain ⟨name, children, changed⟩ := kept node
      rw [changed, ignores]
  exact (untouched i).congr (same Node.isOpen fun _ _ _ => rfl) (same Node.closed fun _ _ _ => rfl)
    (same Node.rootCounter fun _ _ _ => rfl) (same Node.hasdata fun _ _ _ => rfl)

theorem Initial.addLine {region : Nat} {names : List CStr} (initial : Initial table)
    (present : region < table.size) : Initial (addLine table region names) where
  wellFormed := initial.wellFormed.addLine present
  untouched i := by
    by_cases inside : i < table.size
    · rw [addLine_node_old inside]
      exact Untouched.modify initial.untouched (fun node => ⟨node.name, _, rfl⟩) i
    · obtain ⟨name, created⟩ := addLine_node_new (Nat.le_of_not_lt inside) region names
      rw [created]
      exact ⟨rfl, rfl, rfl, rfl⟩

theorem Initial.readLine {linecounter : Nat} {buf : CStr} (initial : Initial table)
    (read : readLine linecounter table buf = some after) : Initial after := by
  rw [Server.readLine] at read
  split at read
  · cases read
    exact initial
  · split at read
    · cases read
    · rename_i name names _
      split at read
      · cases read
        have renamed : Initial (table.modify 0 fun node => { node with name }) := by
          refine ⟨⟨by simpa using initial.wellFormed.nonempty, ?_⟩,
            Untouched.modify initial.untouched fun node => ⟨name, node.children, rfl⟩⟩
          have same : (table.modify 0 fun node => { node with name }).children = table.children :=
            funext fun i => Table.node_modify_proj Node.children fun _ => rfl
          rw [Table.size_modify, same]
          exact initial.wellFormed.forest
        exact renamed.addLine (by simpa using initial.wellFormed.nonempty)
      · split at read
        · cases read
        · rename_i k found
          cases read
          have inside := (List.findIdx?_eq_some_iff_getElem.mp found).1
          rw [List.length_tail] at inside
          exact initial.addLine (by rw [Table.size]; omega)

theorem Initial.readLines {lines : List CStr} {linecounter : Nat} (initial : Initial table)
    (read : readLines linecounter table lines = some after) : Initial after := by
  induction lines generalizing table linecounter with
  | nil =>
      cases read
      exact initial
  | cons buf rest ih =>
      obtain ⟨middle, first, remaining⟩ := Option.bind_eq_some_iff.mp read
      exact ih (initial.readLine first) remaining

theorem createDAG_initial {start : Table} (created : createDAG file = some start) : Initial start := by
  have empty : Initial { nodes := [{}] } := by
    have fresh : ∀ i, Table.node { nodes := [{}] } i = {} := by
      intro i
      cases i <;> rfl
    have noChild : ∀ i, Table.children { nodes := [{}] } i = [] := fun i => by
      rw [Table.children, fresh]
    refine ⟨⟨by decide, ?_⟩, fun i => by rw [fresh]; exact ⟨rfl, rfl, rfl, rfl⟩⟩
    constructor <;> intros <;> simp_all
  exact empty.readLines created

theorem Run.wellFormed {start : Table} {history : List Answered} (wellFormed : WellFormed start)
    (run : Run (dispatchCode modulus) start history table) : WellFormed table := by
  induction run with
  | nil => exact wellFormed
  | snoc _ answered ih => exact ih.step answered

theorem Served.wellFormed {history : List Answered} (served : Served modulus file history table) :
    WellFormed table := by
  obtain ⟨start, created, run⟩ := served
  exact Run.wellFormed (createDAG_initial created).wellFormed run

end Shape

end VoteCounting.Server
