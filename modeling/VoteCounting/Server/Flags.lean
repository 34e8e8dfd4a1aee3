import VoteCounting.Server.Closing

namespace VoteCounting.Server

open CString

def FlagsChanged (table after : Table) (i : Nat) : Prop :=
  (after.node i).isOpen ≠ (table.node i).isOpen ∨ (after.node i).closed ≠ (table.node i).closed

structure OnlyFlags (before after : Table) : Prop where
  size : after.size = before.size
  name : ∀ i, (after.node i).name = (before.node i).name
  children : ∀ i, after.children i = before.children i
  rootCounter : ∀ i, (after.node i).rootCounter = (before.node i).rootCounter
  hasdata : ∀ i, (after.node i).hasdata = (before.node i).hasdata

/-- The named region and those below it that were neither open nor closed are opened. -/
structure PollsOpened (table after : Table) (region : Nat) : Prop where
  changed : ∀ i, FlagsChanged table after i ↔ i = region ∨ (Below table.children region i ∧
    (table.node i).isOpen = false ∧ (table.node i).closed = false)
  opened : ∀ i, FlagsChanged table after i → (after.node i).isOpen = true
  kept : OnlyFlags table after

/-- The named region and those below it that were open are closed. -/
structure PollsClosed (table after : Table) (region : Nat) : Prop where
  changed : ∀ i, FlagsChanged table after i ↔
    i = region ∨ (Below table.children region i ∧ (table.node i).isOpen = true)
  closed : ∀ i, FlagsChanged table after i →
    (after.node i).closed = true ∧ (after.node i).isOpen = false
  kept : OnlyFlags table after

section Changes

variable {modulus fuel : Nat} {rule : PollRule} {table after : Table} {str field : CStr}
  {answer : List Response} {region i j : Nat}

theorem Named.onlyFlags (named : Named table) (visited : VisitedTable rule table after) :
    OnlyFlags table after where
  size := visited.size
  name i := by
    rcases (visited.node i).name with same | trimmed
    · exact same
    · rw [trimmed, trimwhitespaceBuffer_of_trimmed (named.trimmed i)]
  children i := (visited.node i).children
  rootCounter i := (visited.node i).rootCounter
  hasdata i := (visited.node i).hasdata

theorem WellFormed.parent_inside (wellFormed : WellFormed table) (child : j ∈ table.children i) :
    i < table.size :=
  (wellFormed.forest.later child).1.trans (wellFormed.forest.later child).2

theorem WellFormed.below_inside (wellFormed : WellFormed table) (below : Below table.children region i)
    (inside : region < table.size) : i < table.size := by
  cases below with
  | refl => exact inside
  | tail _ member => exact (wellFormed.forest.later member).2

theorem Visits.below (named : Named table) (wellFormed : WellFormed table)
    (visits : Visits rule table region i) : Below table.children region i := by
  obtain ⟨_, path⟩ := visits
  induction path with
  | refl => exact .refl
  | tail _ edge ih =>
      obtain ⟨⟨child, member, found⟩, _⟩ := edge
      rw [named.resolve (wellFormed.forest.later member).2, Option.some.injEq] at found
      exact ih.tail (found ▸ member)

/-- Above a region that is neither open nor closed there is no open and no closed one. -/
theorem Lawful.visits_open (lawful : Lawful table) (named : Named table) (wellFormed : WellFormed table)
    (below : Below table.children region i) (ready : i ∈ pending openRule table) :
    Visits openRule table region i := by
  induction below with
  | refl => exact ⟨ready, .refl⟩
  | @tail parent child _ member ih =>
      obtain ⟨_, notOpen, notClosed⟩ := mem_pending_open.mp ready
      have parentReady : parent ∈ pending openRule table := by
        refine mem_pending_open.mpr ⟨wellFormed.parent_inside member, ?_, ?_⟩
        · by_contra isOpen
          have settled := lawful.belowOpen parent child member (by simpa using isOpen)
          simp [notOpen, notClosed] at settled
        · by_contra closed
          have settled := lawful.belowClosed parent child member (by simpa using closed)
          simp [notClosed] at settled
      exact named.visits_child (ih parentReady) member ready

/-- Below an open region everything is open or closed. -/
theorem Lawful.below_open (lawful : Lawful table) (below : Below table.children region i)
    (isOpen : (table.node region).isOpen = true) :
    (table.node i).isOpen = true ∨ (table.node i).closed = true := by
  induction below with
  | refl => exact .inl isOpen
  | @tail parent child _ member ih =>
      rcases ih with parentOpen | parentClosed
      · exact lawful.belowOpen parent child member parentOpen
      · exact .inr (lawful.belowClosed parent child member parentClosed)

theorem Lawful.visits_close (lawful : Lawful table) (named : Named table)
    (wellFormed : WellFormed table)
    (ready : region ∈ pending closeRule table) (below : Below table.children region i)
    (last : i ∈ pending closeRule table) : Visits closeRule table region i := by
  have regionOpen := (mem_pending_close.mp ready).2.1
  induction below with
  | refl => exact ⟨ready, .refl⟩
  | @tail parent child above member ih =>
      have notClosed := (mem_pending_close.mp last).2.2
      have parentNotClosed : (table.node parent).closed = false := by
        by_contra closed
        have settled := lawful.belowClosed parent child member (by simpa using closed)
        simp [notClosed] at settled
      have parentOpen := (lawful.below_open above regionOpen).resolve_right (by simp [parentNotClosed])
      have parentReady : parent ∈ pending closeRule table :=
        mem_pending_close.mpr ⟨wellFormed.parent_inside member, parentOpen, parentNotClosed⟩
      exact named.visits_child (ih parentReady) member last

/-- The flags that change are those of the regions the recursion marks. -/
theorem flagsChanged_iff (addressable : Addressable table)
    (found : table.lookup (trimwhitespace field) = some region)
    (done : visitPolls rule fuel table (.field field) = some (1, after)) :
    FlagsChanged table after i ↔ Visits rule table region i := by
  rcases visitPolls_flags addressable found done i with ⟨visits, marked⟩
    | ⟨unvisited, sameOpen, sameClosed⟩
  · have allowed := (Finset.mem_filter.mp visits.pending).2
    have changed : FlagsChanged table after i := by
      by_contra same
      simp only [FlagsChanged, not_or, not_not] at same
      rw [same.1, same.2] at marked
      exact rule.settles marked allowed
    exact ⟨fun _ => visits, fun _ => changed⟩
  · simp [FlagsChanged, sameOpen, sameClosed, unvisited]

theorem Governed.opens (governed : Governed table)
    (found : table.lookup (trimwhitespace field) = some region)
    (allowed : openRule.refusal (table.node region) = none)
    (done : visitPolls openRule fuel table (.field field) = some (1, after)) :
    PollsOpened table after region := by
  obtain ⟨wellFormed, named, lawful⟩ := governed
  have inside := (Table.lookup_some found).1
  have ready : region ∈ pending openRule table :=
    Finset.mem_filter.mpr ⟨Finset.mem_range.mpr inside, allowed⟩
  have visited : ∀ i, FlagsChanged table after i ↔ Visits openRule table region i := fun i =>
    flagsChanged_iff named.addressable found done
  refine ⟨fun i => (visited i).trans ⟨fun visits => ?_, fun target => ?_⟩, fun i changed => ?_,
    named.onlyFlags (visitPolls_visited done)⟩
  · exact .inr ⟨visits.below named wellFormed, (mem_pending_open.mp visits.pending).2⟩
  · rcases target with rfl | ⟨below, flags⟩
    · exact ⟨ready, .refl⟩
    · exact lawful.visits_open named wellFormed below
        (mem_pending_open.mpr ⟨wellFormed.below_inside below inside, flags⟩)
  · rcases openPolls_flags named.addressable found done i with ⟨_, isOpen, _⟩ | ⟨unvisited, _⟩
    · exact isOpen
    · exact absurd ((visited i).mp changed) unvisited

theorem Governed.closes (governed : Governed table)
    (found : table.lookup (trimwhitespace field) = some region)
    (allowed : closeRule.refusal (table.node region) = none)
    (done : visitPolls closeRule fuel table (.field field) = some (1, after)) :
    PollsClosed table after region := by
  obtain ⟨wellFormed, named, lawful⟩ := governed
  have inside := (Table.lookup_some found).1
  have ready : region ∈ pending closeRule table :=
    Finset.mem_filter.mpr ⟨Finset.mem_range.mpr inside, allowed⟩
  have visited : ∀ i, FlagsChanged table after i ↔ Visits closeRule table region i := fun i =>
    flagsChanged_iff named.addressable found done
  refine ⟨fun i => (visited i).trans ⟨fun visits => ?_, fun target => ?_⟩, fun i changed => ?_,
    named.onlyFlags (visitPolls_visited done)⟩
  · exact .inr ⟨visits.below named wellFormed, (mem_pending_close.mp visits.pending).2.1⟩
  · rcases target with rfl | ⟨below, isOpen⟩
    · exact ⟨ready, .refl⟩
    · have notClosed : (table.node i).closed = false := by
        by_contra closed
        exact lawful.exclusive i ⟨isOpen, by simpa using closed⟩
      exact lawful.visits_close named wellFormed ready below
        (mem_pending_close.mpr ⟨wellFormed.below_inside below inside, isOpen, notClosed⟩)
  · rcases closePolls_flags named.addressable found done i with ⟨_, notOpen, closed⟩ | ⟨unvisited, _⟩
    · exact ⟨closed, notOpen⟩
    · exact absurd ((visited i).mp changed) unvisited

theorem Step.of_polls (step : Step modulus table str [.success] after)
    (selected : pollRule (command (trimlastenter str)) = some rule)
    (named : table.Names (argvpOf str) 1 region) :
    ∃ field, table.lookup (trimwhitespace field) = some region ∧
      rule.refusal (table.node region) = none ∧
      visitPolls rule (table.size + 1) table (.field field) = some (1, after) := by
  generalize answered : [Response.success] = answer at step
  cases step with
  | refused failure =>
      cases answered
      cases failure
  | @polls other field target after ruled present found allowed visited =>
      obtain rfl := named.unique ⟨field, present, found⟩
      obtain rfl := Option.some.inj (selected.symm.trans ruled)
      exact ⟨field, found, allowed, visited⟩
  | votesAdded other | votesRemoved other | regionAdded other | votesRead other | votesCounted other
  | won other => simp [other, pollRule] at selected

end Changes

/-- After any run without added regions, `Open_Polls` and `Close_Polls` answered with `SC` change
the flags of a whole subtree, as far as it is not settled, and nothing else. -/
theorem polls_change_flags (modulus : Nat) (file : CStr) {start table after : Table}
    {history : List Answered} {str : CStr} {region : Nat} (created : createDAG file = some start)
    (distinct : start.names.Nodup) (trimmed : ∀ name ∈ start.names, trimwhitespace name = name)
    (run : Run (dispatchCode modulus) start history table)
    (noRegion : ∀ event ∈ history, command (trimlastenter event.input) ≠ .addRegion)
    (answered : dispatchCode modulus table str = .ok ([.success], after))
    (named : table.Names (argvpOf str) 1 region) :
    (command (trimlastenter str) = .openPolls → PollsOpened table after region) ∧
      (command (trimlastenter str) = .closePolls → PollsClosed table after region) := by
  have initial := createDAG_initial created
  have startGoverned : Governed start :=
    ⟨initial.wellFormed, .of_names distinct trimmed, initial.lawful⟩
  have governed := (startGoverned.run run noRegion).1
  have step := dispatchCode_step governed.wellFormed.nonempty answered
  refine ⟨fun opens => ?_, fun closes => ?_⟩
  · have ruled : pollRule (command (trimlastenter str)) = some openRule := by rw [opens]; rfl
    obtain ⟨field, found, allowed, done⟩ := step.of_polls ruled named
    exact governed.opens found allowed done
  · have ruled : pollRule (command (trimlastenter str)) = some closeRule := by rw [closes]; rfl
    obtain ⟨field, found, allowed, done⟩ := step.of_polls ruled named
    exact governed.closes found allowed done

/-- `A` is open already when the polls of `R` open. -/
theorem polls_change_flags_sample : ∃ table after, dispatchCode (2 ^ 32) table "OP;R".toList =
      .ok ([.success], after) ∧ (table.node 1).isOpen = true ∧
    (command (trimlastenter "OP;R".toList) = .openPolls → PollsOpened table after 0) ∧
      (command (trimlastenter "OP;R".toList) = .closePolls → PollsClosed table after 0) := by
  have done : execute (dispatchCode (2 ^ 32)) ((createDAG "R:A:B".toList).get rfl) ["OP;A".toList] =
    .ok (_, _) := rfl
  exact ⟨_, _, rfl, by decide, polls_change_flags (2 ^ 32) "R:A:B".toList rfl (by decide) (by decide)
    (Run.of_execute _ done) (by decide) rfl ⟨_, rfl, rfl⟩⟩

end VoteCounting.Server
