import VoteCounting.Data.Sweep
import VoteCounting.Server.State

namespace VoteCounting.Server

/-- The two functions differ in the test they make and in the flags they set. -/
structure PollRule where
  /-- The code returned at once, or `none` where the region is marked. -/
  refusal : Node → Option Int
  mark : Node → Node
  reads : ∀ {node other : Node}, node.isOpen = other.isOpen → node.closed = other.closed →
    refusal node = refusal other
  writes : ∀ node, mark node = { node with isOpen := (mark node).isOpen, closed := (mark node).closed }
  /-- The flags a marked region has. -/
  marked : Bool × Bool
  marks : ∀ {node}, refusal node = none → ((mark node).isOpen, (mark node).closed) = marked
  settles : ∀ {node : Node}, (node.isOpen, node.closed) = marked → refusal node ≠ none

def visitPolls (rule : PollRule) : Nat → Table → NameArg → Option (Int × Table)
  | 0, _, _ => none
  | fuel + 1, table, name =>
      match (trimName table name).2.lookup (trimName table name).1 with
      | none => some (-2, (trimName table name).2)
      | some i =>
          match rule.refusal ((trimName table name).2.node i) with
          | some f => some (f, (trimName table name).2)
          | none =>
              -- The codes the recursive calls return are stored in `f` and never read.
              (((trimName table name).2.children i).foldlM
                (fun table child => (visitPolls rule fuel table (.nameOf child)).map Prod.snd)
                ((trimName table name).2.modify i rule.mark)).map ((1, ·))

def openRule : PollRule where
  refusal node := if node.isOpen then some 0 else if node.closed then some (-1) else none
  mark node := { node with isOpen := true }
  reads sameOpen sameClosed := by simp [sameOpen, sameClosed]
  writes _ := rfl
  marked := (true, false)
  marks {node} allowed := by
    cases isOpen : node.isOpen <;> cases closed : node.closed <;> simp_all
  settles {node} flags := by simp_all

def closeRule : PollRule where
  refusal node := if node.closed then some 0 else if !node.isOpen then some (-1) else none
  mark node := { node with closed := true, isOpen := false }
  reads sameOpen sameClosed := by simp [sameOpen, sameClosed]
  writes _ := rfl
  marked := (false, true)
  marks _ := rfl
  settles {node} flags := by simp_all

def openPolls (fuel : Nat) (table : Table) (name : NameArg) : Option (Int × Table) :=
  visitPolls openRule fuel table name

def closePolls (fuel : Nat) (table : Table) (name : NameArg) : Option (Int × Table) :=
  visitPolls closeRule fuel table name

section Names

variable {table : Table} {i j region : Nat}

theorem trimwhitespaceBuffer_idem (str : CStr) :
    trimwhitespaceBuffer (trimwhitespaceBuffer str) = trimwhitespaceBuffer str := by
  by_cases blank : str.all CString.isspace
  · simp [trimwhitespaceBuffer, blank]
  · have kept : trimwhitespaceBuffer str = CString.trimEnd str := by
      simp [trimwhitespaceBuffer, blank]
    rw [kept, trimwhitespaceBuffer]
    split
    · rfl
    · exact CString.trimEnd_trimEnd

theorem node_trimName : ((trimName table (.nameOf region)).2.node i) =
    if region = i then
      { table.node i with name := trimwhitespaceBuffer (table.node i).name } else table.node i := by
  split
  · rename_i same
    subst same
    by_cases inside : region < table.size
    · exact Table.node_modify_self inside
    · have outside : table.size ≤ region := Nat.le_of_not_lt inside
      rw [Table.node_of_size_le (by simpa [trimName] using outside), Table.node_of_size_le outside]
      rfl
  · rename_i different
    exact Table.node_modify_of_ne different

theorem trimName_size {name : NameArg} : (trimName table name).2.size = table.size := by
  cases name <;> simp [trimName]

theorem trim_trimwhitespaceBuffer (str : CStr) :
    trimwhitespace (trimwhitespaceBuffer str) = trimwhitespace str := by
  rw [trimwhitespaceBuffer]
  split
  · rfl
  · exact CString.trim_trimEnd str

theorem eq_nil_of_trimwhitespaceBuffer {str : CStr} (empty : trimwhitespaceBuffer str = []) :
    str = [] := by
  rw [trimwhitespaceBuffer] at empty
  split at empty
  · exact empty
  · rename_i notBlank
    have gone := List.rdropWhile_eq_nil_iff.mp empty
    exact absurd (List.all_eq_true.mpr gone) notBlank

theorem trimwhitespaceBuffer_trimwhitespace (str : CStr) :
    trimwhitespaceBuffer (trimwhitespace str) = trimwhitespace str :=
  trimwhitespaceBuffer_of_trimmed (trimwhitespace_trimwhitespace str)

theorem trimName_of_trimmed
    (trimmed : trimwhitespace (table.node region).name = (table.node region).name) :
    trimName table (.nameOf region) = ((table.node region).name, table) := by
  have kept : table.modify region
      (fun node => { node with name := trimwhitespaceBuffer node.name }) = table := by
    apply Table.ext_node
    · simp
    · intro i
      apply node_trimName.trans
      split
      · rename_i same
        subst same
        rw [trimwhitespaceBuffer_of_trimmed trimmed]
      · rfl
  simp only [trimName, trimmed, kept]

end Names

section Recursion

variable {rule : PollRule} {fuel : Nat} {table after : Table} {region i : Nat} {f : Int}
  {field : CStr}

/-- A request field that names a region leads to the call on the region's own name. -/
theorem visitPolls_field :
    visitPolls rule (fuel + 1) table (.field field) =
      match table.lookup (trimwhitespace field) with
      | none => some (-2, table)
      | some i => visitPolls rule (fuel + 1) table (.nameOf i) := by
  cases found : table.lookup (trimwhitespace field) with
  | none => simp only [visitPolls, trimName, found]
  | some i =>
      have named := (Table.lookup_some found).2
      have trimmed : trimwhitespace (table.node i).name = (table.node i).name := by
        rw [named, trimwhitespace_trimwhitespace]
      simp only [visitPolls, trimName_of_trimmed trimmed, named, found]
      simp only [trimName, found]

/-- One call of the recursion, with the regions it then visits. -/
def enter (rule : PollRule) (table : Table) (region : Nat) : Table × List Nat :=
  match (trimName table (.nameOf region)).2.lookup (trimName table (.nameOf region)).1 with
  | none => ((trimName table (.nameOf region)).2, [])
  | some i =>
      match rule.refusal ((trimName table (.nameOf region)).2.node i) with
      | some _ => ((trimName table (.nameOf region)).2, [])
      | none =>
          ((trimName table (.nameOf region)).2.modify i rule.mark,
            (trimName table (.nameOf region)).2.children i)

theorem visitPolls_eq_run :
    (visitPolls rule fuel table (.nameOf region)).map Prod.snd =
      Sweep.run (enter rule) fuel table region := by
  induction fuel generalizing table region with
  | zero => rfl
  | succ fuel ih =>
      rw [Sweep.run_succ, visitPolls, enter]
      cases (trimName table (.nameOf region)).2.lookup (trimName table (.nameOf region)).1 with
      | none => rfl
      | some i =>
          cases verdict : rule.refusal ((trimName table (.nameOf region)).2.node i) with
          | some f => simp [verdict]
          | none => simp [verdict, ih, Function.comp_def]

/-- What finished calls did to one node. -/
structure Visited (rule : PollRule) (before after : Node) : Prop where
  name : after.name = before.name ∨ after.name = trimwhitespaceBuffer before.name
  children : after.children = before.children
  rootCounter : after.rootCounter = before.rootCounter
  hasdata : after.hasdata = before.hasdata
  flags : (after.isOpen = before.isOpen ∧ after.closed = before.closed) ∨
    (rule.refusal before = none ∧ (after.isOpen, after.closed) = rule.marked)

theorem Visited.refl (node : Node) : Visited rule node node :=
  ⟨.inl rfl, rfl, rfl, rfl, .inl ⟨rfl, rfl⟩⟩

theorem Visited.trans {before middle last : Node} (left : Visited rule before middle)
    (right : Visited rule middle last) : Visited rule before last where
  name := by
    rcases left.name with leftName | leftName <;> rcases right.name with rightName | rightName <;>
      simp [leftName, rightName, trimwhitespaceBuffer_idem]
  children := right.children.trans left.children
  rootCounter := right.rootCounter.trans left.rootCounter
  hasdata := right.hasdata.trans left.hasdata
  flags := by
    rcases right.flags with kept | ⟨allowed, marked⟩
    · rcases left.flags with keptLeft | ⟨allowed, marked⟩
      · exact .inl ⟨kept.1.trans keptLeft.1, kept.2.trans keptLeft.2⟩
      · exact .inr ⟨allowed, by rw [kept.1, kept.2, marked]⟩
    · rcases left.flags with keptLeft | ⟨_, settled⟩
      · exact .inr ⟨(rule.reads keptLeft.1 keptLeft.2).symm.trans allowed, marked⟩
      · exact absurd allowed (rule.settles settled)

structure VisitedTable (rule : PollRule) (before after : Table) : Prop where
  size : after.size = before.size
  node : ∀ i, Visited rule (before.node i) (after.node i)

theorem visited_trimName :
    VisitedTable rule table (trimName table (.nameOf region)).2 where
  size := trimName_size
  node i := by
    rw [node_trimName]
    split
    · exact ⟨.inr rfl, rfl, rfl, rfl, .inl ⟨rfl, rfl⟩⟩
    · exact .refl _

theorem visited_mark (allowed : rule.refusal (table.node i) = none) :
    VisitedTable rule table (table.modify i rule.mark) where
  size := Table.size_modify
  node j := by
    by_cases same : i = j
    · subst same
      by_cases inside : i < table.size
      · rw [Table.node_modify_self inside, rule.writes]
        exact ⟨.inl rfl, rfl, rfl, rfl, .inr ⟨allowed, rule.marks allowed⟩⟩
      · have outside : table.size ≤ i := Nat.le_of_not_lt inside
        have stillOutside : (table.modify i rule.mark).size ≤ i := by simpa using outside
        rw [Table.node_of_size_le outside, Table.node_of_size_le stillOutside]
        exact .refl _
    · rw [Table.node_modify_of_ne same]
      exact .refl _

theorem VisitedTable.refl (table : Table) : VisitedTable rule table table :=
  ⟨rfl, fun _ => .refl _⟩

theorem VisitedTable.trans {first second third : Table} (left : VisitedTable rule first second)
    (right : VisitedTable rule second third) : VisitedTable rule first third :=
  ⟨right.size.trans left.size, fun i => (left.node i).trans (right.node i)⟩

theorem VisitedTable.children_eq (visited : VisitedTable rule table after) :
    after.children = table.children :=
  funext fun i => (visited.node i).children

theorem visited_enter : VisitedTable rule table (enter rule table region).1 := by
  rw [enter]
  split
  · exact visited_trimName
  · split
    · exact visited_trimName
    · rename_i allowed
      exact visited_trimName.trans (visited_mark allowed)

theorem visitPolls_visited {name : NameArg}
    (done : visitPolls rule fuel table name = some (f, after)) : VisitedTable rule table after := by
  have region : ∀ {fuel region}, visitPolls rule fuel table (.nameOf region) = some (f, after) →
      VisitedTable rule table after := by
    intro fuel region done
    have swept : Sweep.run (enter rule) fuel table region = some after := by
      rw [← visitPolls_eq_run, done]; rfl
    exact Sweep.run_rel VisitedTable.refl VisitedTable.trans (fun _ _ => visited_enter) swept
  cases name with
  | nameOf i => exact region done
  | field field =>
      cases fuel with
      | zero => cases done
      | succ fuel =>
          rw [visitPolls_field] at done
          cases found : table.lookup (trimwhitespace field) with
          | none =>
              simp only [found, Option.some.injEq, Prod.mk.injEq] at done
              exact done.2 ▸ .refl table
          | some i => exact region (by simpa only [found] using done)

theorem visitPolls_cases (done : visitPolls rule fuel table (.field field) = some (f, after)) :
    (table.lookup (trimwhitespace field) = none ∧ f = -2 ∧ after = table) ∨
      ∃ i, table.lookup (trimwhitespace field) = some i ∧
        ((rule.refusal (table.node i) = some f ∧ after = table) ∨
          (rule.refusal (table.node i) = none ∧ f = 1)) := by
  cases fuel with
  | zero => cases done
  | succ fuel =>
      simp only [visitPolls, trimName] at done
      cases found : table.lookup (trimwhitespace field) with
      | none =>
          simp only [found, Option.some.injEq, Prod.mk.injEq] at done
          exact .inl ⟨rfl, done.1.symm, done.2.symm⟩
      | some i =>
          refine .inr ⟨i, rfl, ?_⟩
          simp only [found] at done
          cases verdict : rule.refusal (table.node i) with
          | some code =>
              simp only [verdict, Option.some.injEq, Prod.mk.injEq] at done
              exact .inl ⟨by rw [done.1], done.2.symm⟩
          | none =>
              simp only [verdict, Option.map_eq_some_iff, Prod.mk.injEq] at done
              obtain ⟨_, _, code, _⟩ := done
              exact .inr ⟨rfl, code.symm⟩

/-- The regions the recursion may still mark. -/
def pending (rule : PollRule) (table : Table) : Finset Nat :=
  (Finset.range table.size).filter fun i => rule.refusal (table.node i) = none

theorem pending_subset {before after : Table} (visited : VisitedTable rule before after) :
    pending rule after ⊆ pending rule before := by
  intro i member
  simp only [pending, Finset.mem_filter, Finset.mem_range, visited.size] at member ⊢
  refine ⟨member.1, ?_⟩
  rcases (visited.node i).flags with kept | ⟨allowed, _⟩
  · rw [← rule.reads kept.1 kept.2, member.2]
  · exact allowed

theorem pending_enter (recurses : (enter rule table region).2 ≠ []) :
    (pending rule (enter rule table region).1).card < (pending rule table).card := by
  refine Finset.card_lt_card (Finset.ssubset_iff_subset_ne.mpr ⟨pending_subset visited_enter, ?_⟩)
  intro same
  rw [enter] at recurses same
  split at recurses
  · exact recurses rfl
  · rename_i i found
    simp only [found] at same
    split at recurses
    · exact recurses rfl
    · rename_i allowed
      simp only [allowed] at same
      have inside := (Table.lookup_some found).1
      have wasPending : i ∈ pending rule table := by
        apply pending_subset visited_trimName
        simp only [pending, Finset.mem_filter, Finset.mem_range]
        exact ⟨inside, allowed⟩
      rw [← same] at wasPending
      simp only [pending, Finset.mem_filter, Table.node_modify_self inside] at wasPending
      exact rule.settles (rule.marks allowed) wasPending.2

/-- Calls nest no deeper than there are regions that may still be marked, and one more. -/
theorem visitPolls_returns (rule : PollRule) {table : Table}
    (enough : (pending rule table).card < fuel) (name : NameArg) :
    ∃ f after, visitPolls rule fuel table name = some (f, after) := by
  have region : ∀ region, ∃ f after, visitPolls rule fuel table (.nameOf region) = some (f, after) := by
    intro region
    obtain ⟨after, swept, _⟩ := Sweep.run_total (fun table => (pending rule table).card)
      (fun _ _ => Finset.card_le_card (pending_subset visited_enter))
      (fun _ _ recurses => pending_enter recurses) region enough
    rw [← visitPolls_eq_run, Option.map_eq_some_iff] at swept
    obtain ⟨⟨f, last⟩, done, _⟩ := swept
    exact ⟨f, last, done⟩
  cases name with
  | nameOf i => exact region i
  | field field =>
      obtain ⟨depth, rfl⟩ : ∃ depth, fuel = depth + 1 := ⟨fuel - 1, by omega⟩
      rw [visitPolls_field]
      cases table.lookup (trimwhitespace field) with
      | none => exact ⟨-2, table, rfl⟩
      | some i => exact region i

theorem card_pending_le : (pending rule table).card ≤ table.size :=
  (Finset.card_filter_le _ _).trans_eq (Finset.card_range table.size)

theorem visitPolls_total (rule : PollRule) (table : Table) (name : NameArg) :
    ∃ f after, visitPolls rule (table.size + 1) table name = some (f, after) :=
  visitPolls_returns rule (Nat.lt_succ_of_le card_pending_le) name

theorem visitPolls_isSome (rule : PollRule) {table : Table}
    (enough : (pending rule table).card < fuel) (name : NameArg) :
    (visitPolls rule fuel table name).isSome := by
  obtain ⟨f, after, done⟩ := visitPolls_returns rule enough name
  rw [done]
  rfl

/-- Both recursions end for every table and every name, although a child's name may lead back to
one of its ancestors. -/
theorem polls_end (table : Table) (name : NameArg) (more : Nat) :
    (openPolls ((pending openRule table).card + 1 + more) table name).isSome ∧
      (closePolls ((pending closeRule table).card + 1 + more) table name).isSome :=
  ⟨visitPolls_isSome openRule (by omega) name, visitPolls_isSome closeRule (by omega) name⟩

/-- The second region of this name is a child of `A`, and its name leads back to the first. -/
example : openPolls 3 ⟨[{ name := ['R'], children := [1] }, { name := ['A'], children := [2] },
      { name := ['R'] }]⟩ (.field ['R']) =
    some (1, ⟨[{ name := ['R'], children := [1], isOpen := true },
      { name := ['A'], children := [2], isOpen := true }, { name := ['R'] }]⟩) := by
  decide

end Recursion

/-- No two regions have names that agree only up to surrounding blanks. -/
def Addressable (table : Table) : Prop :=
  ∀ i j, i < table.size → j < table.size →
    trimwhitespace (table.node i).name = trimwhitespace (table.node j).name →
    i = j ∨ (trimwhitespace (table.node i).name = (table.node i).name ∧
      trimwhitespace (table.node j).name = (table.node j).name)

/-- The region found by the trimmed name of another. -/
def resolve (table : Table) (region : Nat) : Option Nat :=
  table.nodes.findIdx? fun node =>
    trimwhitespaceBuffer node.name == trimwhitespace (table.node region).name

/-- The regions a call on `region` marks: those reached by name through regions
that may be marked. -/
def Visits (rule : PollRule) (table : Table) (region i : Nat) : Prop :=
  Sweep.Reaches (resolve table) table.children (· ∈ pending rule table) region i

section Marking

variable {rule : PollRule} {fuel : Nat} {table state after : Table} {region i j : Nat} {f : Int}
  {field : CStr}

/-- Whatever names have been trimmed so far, the same regions match a name. -/
theorem VisitedTable.named_iff {k : Nat} (addressable : Addressable table)
    (visited : VisitedTable rule table state) (right : k < table.size) :
    ((trimName state (.nameOf region)).2.node k).name = trimwhitespace (table.node region).name ↔
      trimwhitespaceBuffer (table.node k).name = trimwhitespace (table.node region).name := by
  rw [node_trimName]
  have later := (visited.node k).name
  constructor
  · intro named
    split at named
    · rcases later with kept | trimmed
      · rwa [kept] at named
      · rwa [trimmed, trimwhitespaceBuffer_idem] at named
    · rcases later with kept | trimmed
      · rw [kept] at named
        rw [named, trimwhitespaceBuffer_trimwhitespace]
      · rwa [trimmed] at named
  · intro named
    split
    · rcases later with kept | trimmed
      · rwa [kept]
      · rwa [trimmed, trimwhitespaceBuffer_idem]
    · rename_i different
      rcases later with kept | trimmed
      · rw [kept]
        by_cases inside : region < table.size
        · have agree :
            trimwhitespace (table.node k).name = trimwhitespace (table.node region).name := by
            rw [← trim_trimwhitespaceBuffer, named, trimwhitespace_trimwhitespace]
          rcases addressable k region right inside agree with same | ⟨own, _⟩
          · exact absurd same.symm different
          · rwa [trimwhitespaceBuffer_of_trimmed own] at named
        · have outside : table.size ≤ region := Nat.le_of_not_lt inside
          rw [Table.node_of_size_le outside] at named ⊢
          exact eq_nil_of_trimwhitespaceBuffer named
      · rwa [trimmed]

theorem VisitedTable.lookup_eq_resolve (addressable : Addressable table)
    (visited : VisitedTable rule table state) (region : Nat) :
    (trimName state (.nameOf region)).2.lookup (trimName state (.nameOf region)).1 =
      resolve table region := by
  have sought : (trimName state (.nameOf region)).1 = trimwhitespace (table.node region).name := by
    rcases (visited.node region).name with kept | trimmed
    · simp [trimName, kept]
    · simp [trimName, trimmed, trim_trimwhitespaceBuffer]
  have tests : (trimName state (.nameOf region)).2.nodes.map
        (fun node => node.name == trimwhitespace (table.node region).name) =
      table.nodes.map fun node =>
        trimwhitespaceBuffer node.name == trimwhitespace (table.node region).name := by
    apply List.ext_getElem (by simpa using trimName_size.trans visited.size)
    intro k left right
    simp only [List.length_map] at left right
    simp only [List.getElem_map]
    rw [← Table.node_eq_getElem left, ← Table.node_eq_getElem right, Bool.eq_iff_iff,
      beq_iff_eq, beq_iff_eq]
    exact visited.named_iff addressable right
  have asTests : ∀ (nodes : List Node) (test : Node → Bool),
      nodes.findIdx? test = (nodes.map test).findIdx? id := by
    intro nodes test
    simp [List.findIdx?_map]
  rw [sought, Table.lookup, resolve, asTests, asTests table.nodes, tests]

theorem mem_pending_trimName (region : Nat) :
    i ∈ pending rule (trimName table (.nameOf region)).2 ↔ i ∈ pending rule table := by
  simp only [pending, Finset.mem_filter, Finset.mem_range, trimName_size, node_trimName]
  split
  · have same : rule.refusal { table.node i with name := trimwhitespaceBuffer (table.node i).name } =
        rule.refusal (table.node i) := rule.reads rfl rfl
    rw [same]
  · rfl

theorem mem_pending_modify (allowed : rule.refusal (table.node i) = none) (inside : i < table.size) :
    j ∈ pending rule (table.modify i rule.mark) ↔ j ∈ pending rule table ∧ j ≠ i := by
  simp only [pending, Finset.mem_filter, Finset.mem_range, Table.size_modify,
    Table.node_modify inside]
  split
  · rename_i same
    subst same
    simp [rule.settles (rule.marks allowed)]
  · rename_i different
    simp [Ne.symm different]

theorem marking (addressable : Addressable table) :
    Sweep.Marking (enter rule) (VisitedTable rule table) (resolve table)
      (fun state i => i ∈ pending rule state) table.children where
  inv _ visited := visited.trans visited_enter
  stop {state call} visited idle := by
    have found := visited.lookup_eq_resolve addressable call
    rw [enter]
    rw [found]
    cases target : resolve table call with
    | none => exact ⟨rfl, fun _ => mem_pending_trimName call⟩
    | some i =>
        have inside := (Table.lookup_some (found.trans target)).1
        cases verdict : rule.refusal ((trimName state (.nameOf call)).2.node i) with
        | some f => simp [verdict, mem_pending_trimName]
        | none =>
            have trimmedReady : i ∈ pending rule (trimName state (.nameOf call)).2 :=
              Finset.mem_filter.mpr ⟨Finset.mem_range.mpr inside, verdict⟩
            exact absurd ((mem_pending_trimName call).mp trimmedReady) (idle i target)
  calls {state call item} visited target ready := by
    have found := visited.lookup_eq_resolve addressable call
    have allowed := (Finset.mem_filter.mp ((mem_pending_trimName call).mpr ready)).2
    have trimmed : VisitedTable rule state (trimName state (.nameOf call)).2 := visited_trimName
    simp only [enter, found, target, allowed]
    exact ((visited.trans trimmed).node item).children
  marks {state call item} visited target ready other := by
    have found := visited.lookup_eq_resolve addressable call
    have allowed := (Finset.mem_filter.mp ((mem_pending_trimName call).mpr ready)).2
    have inside := (Table.lookup_some (found.trans target)).1
    simp only [enter, found, target, allowed]
    rw [mem_pending_modify allowed inside, mem_pending_trimName]

/-- A finished call marks exactly the regions it visits, whatever the recursion skipped. -/
theorem visitPolls_flags (addressable : Addressable table)
    (found : table.lookup (trimwhitespace field) = some region)
    (done : visitPolls rule fuel table (.field field) = some (f, after)) (i : Nat) :
    (Visits rule table region i ∧ (after.node i |>.isOpen, after.node i |>.closed) = rule.marked) ∨
      (¬ Visits rule table region i ∧ (after.node i).isOpen = (table.node i).isOpen ∧
        (after.node i).closed = (table.node i).closed) := by
  cases fuel with
  | zero => cases done
  | succ fuel =>
      simp only [visitPolls_field, found] at done
      have swept : Sweep.run (enter rule) (fuel + 1) table region = some after := by
        rw [← visitPolls_eq_run, done]; rfl
      have visited := visitPolls_visited done
      have named := (Table.lookup_some found).2
      have trimmed : trimwhitespace (table.node region).name = (table.node region).name := by
        rw [named, trimwhitespace_trimwhitespace]
      have self : resolve table region = some region := by
        rw [← (show VisitedTable rule table table from .refl table).lookup_eq_resolve addressable,
          trimName_of_trimmed trimmed, named, found]
      have marks : i ∈ pending rule table → (i ∉ pending rule after ↔ Visits rule table region i) := by
        intro ready
        rw [Sweep.run_marks_iff (marking addressable) (VisitedTable.refl table) swept ready]
        simp [self, Visits]
      by_cases ready : i ∈ pending rule table
      · rcases (visited.node i).flags with kept | ⟨_, marked⟩
        · have still : i ∈ pending rule after := by
            simp only [pending, Finset.mem_filter, Finset.mem_range, visited.size] at ready ⊢
            exact ⟨ready.1, (rule.reads kept.1 kept.2).trans ready.2⟩
          exact .inr ⟨fun reached => (marks ready).mpr reached still, kept⟩
        · have settled : i ∉ pending rule after := fun still =>
            rule.settles marked (Finset.mem_filter.mp still).2
          exact .inl ⟨(marks ready).mp settled, marked⟩
      · have unreached : ¬ Visits rule table region i := fun reached =>
          ready (Sweep.Reaches.last_ready reached)
        refine .inr ⟨unreached, ?_⟩
        rcases (visited.node i).flags with kept | ⟨allowed, _⟩
        · exact kept
        · by_cases inside : i < table.size
          · exact absurd (Finset.mem_filter.mpr ⟨Finset.mem_range.mpr inside, allowed⟩) ready
          · have outside : table.size ≤ i := Nat.le_of_not_lt inside
            rw [Table.node_of_size_le outside,
              Table.node_of_size_le (visited.size ▸ outside)]
            exact ⟨rfl, rfl⟩

end Marking

end VoteCounting.Server
