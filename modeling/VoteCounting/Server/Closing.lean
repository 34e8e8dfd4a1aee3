import VoteCounting.Server.Structure

namespace VoteCounting.Server

open CString

section Flags

variable {modulus fuel : Nat} {table after : Table} {region i c : Nat} {str field : CStr}
  {answer : List Response}

theorem mem_pending_open : i ∈ pending openRule table ↔
    i < table.size ∧ (table.node i).isOpen = false ∧ (table.node i).closed = false := by
  rw [pending, Finset.mem_filter, Finset.mem_range]
  cases isOpen : (table.node i).isOpen <;> cases closed : (table.node i).closed <;>
    simp [openRule, isOpen, closed]

theorem mem_pending_close : i ∈ pending closeRule table ↔
    i < table.size ∧ (table.node i).isOpen = true ∧ (table.node i).closed = false := by
  rw [pending, Finset.mem_filter, Finset.mem_range]
  cases isOpen : (table.node i).isOpen <;> cases closed : (table.node i).closed <;>
    simp [closeRule, isOpen, closed]

theorem Visits.pending {rule : PollRule} (visits : Visits rule table region i) :
    i ∈ pending rule table := Sweep.Reaches.last_ready visits

theorem openPolls_flags (addressable : Addressable table)
    (found : table.lookup (trimwhitespace field) = some region)
    (done : visitPolls openRule fuel table (.field field) = some (1, after)) (i : Nat) :
    (Visits openRule table region i ∧ (after.node i).isOpen = true ∧ (after.node i).closed = false) ∨
      (¬ Visits openRule table region i ∧ (after.node i).isOpen = (table.node i).isOpen ∧
        (after.node i).closed = (table.node i).closed) := by
  rcases visitPolls_flags addressable found done i with ⟨visits, flags⟩ | kept
  · exact .inl ⟨visits, congrArg Prod.fst flags, congrArg Prod.snd flags⟩
  · exact .inr kept

theorem closePolls_flags (addressable : Addressable table)
    (found : table.lookup (trimwhitespace field) = some region)
    (done : visitPolls closeRule fuel table (.field field) = some (1, after)) (i : Nat) :
    (Visits closeRule table region i ∧ (after.node i).isOpen = false ∧ (after.node i).closed = true) ∨
      (¬ Visits closeRule table region i ∧ (after.node i).isOpen = (table.node i).isOpen ∧
        (after.node i).closed = (table.node i).closed) := by
  rcases visitPolls_flags addressable found done i with ⟨visits, flags⟩ | kept
  · exact .inl ⟨visits, congrArg Prod.fst flags, congrArg Prod.snd flags⟩
  · exact .inr kept

end Flags

/-- Region names that a request can address: distinct and without surrounding blanks. -/
structure Named (table : Table) : Prop where
  distinct : table.names.Nodup
  trimmed : ∀ i, trimwhitespace (table.node i).name = (table.node i).name

section Named

variable {modulus : Nat} {table after : Table} {region i c : Nat} {str : CStr}
  {answer : List Response}

theorem Named.of_names (distinct : table.names.Nodup)
    (trimmed : ∀ name ∈ table.names, trimwhitespace name = name) : Named table where
  distinct := distinct
  trimmed i := by
    by_cases inside : i < table.size
    · refine trimmed _ (List.mem_map.mpr ⟨table.nodes[i], List.getElem_mem inside, ?_⟩)
      rw [Table.node_eq_getElem inside]
    · rw [Table.node_of_size_le (Nat.le_of_not_lt inside)]
      rfl

theorem Named.congr (named : Named table) (size : after.size = table.size)
    (same : ∀ i, (after.node i).name = (table.node i).name) : Named after where
  distinct := by rw [Table.names_eq_of_node size same]; exact named.distinct
  trimmed i := by rw [same]; exact named.trimmed i

theorem Named.visited {rule : PollRule} (named : Named table)
    (visited : VisitedTable rule table after) : Named after :=
  named.congr visited.size fun i => by
    rcases (visited.node i).name with kept | trimmed
    · exact kept
    · rw [trimmed, trimwhitespaceBuffer_of_trimmed (named.trimmed i)]

theorem Named.addressable (named : Named table) : Addressable table := by
  intro i j _ _ _
  exact .inr ⟨named.trimmed i, named.trimmed j⟩

theorem Named.resolve (named : Named table) (inside : c < table.size) :
    resolve table c = some c := by
  have found := (show VisitedTable openRule table table from .refl table).lookup_eq_resolve
    named.addressable c
  rw [trimName_of_trimmed (named.trimmed c), Table.lookup_name named.distinct inside] at found
  exact found.symm

theorem Named.visits_child {rule : PollRule} (named : Named table)
    (visits : Visits rule table region i) (child : c ∈ table.children i)
    (ready : c ∈ pending rule table) : Visits rule table region c := by
  have inside : c < table.size := Finset.mem_range.mp (Finset.mem_filter.mp ready).1
  exact ⟨visits.1, .tail visits.2 ⟨⟨c, child, named.resolve inside⟩, ready⟩⟩

/-- The invariant that justifies the early stop of both recursions. -/
structure Lawful (table : Table) : Prop where
  exclusive : ∀ i, ¬ ((table.node i).isOpen = true ∧ (table.node i).closed = true)
  belowOpen : ∀ i, ∀ c ∈ table.children i, (table.node i).isOpen = true →
    (table.node c).isOpen = true ∨ (table.node c).closed = true
  belowClosed : ∀ i, ∀ c ∈ table.children i, (table.node i).closed = true →
    (table.node c).closed = true

theorem Lawful.of_flags (lawful : Lawful table) (children : after.children = table.children)
    (isOpen : ∀ i, (after.node i).isOpen = (table.node i).isOpen)
    (closed : ∀ i, (after.node i).closed = (table.node i).closed) : Lawful after where
  exclusive i := by rw [isOpen, closed]; exact lawful.exclusive i
  belowOpen i c := by rw [children, isOpen, isOpen, closed]; exact lawful.belowOpen i c
  belowClosed i c := by rw [children, closed, closed]; exact lawful.belowClosed i c

variable {field : CStr}

theorem Lawful.opened (wellFormed : WellFormed table) (named : Named table) (lawful : Lawful table)
    (found : table.lookup (trimwhitespace field) = some region) {fuel : Nat}
    (done : visitPolls openRule fuel table (.field field) = some (1, after)) : Lawful after := by
  have flags := openPolls_flags named.addressable found done
  have children := fun i => ((visitPolls_visited done).node i).children
  have settled : ∀ c, (table.node c).isOpen = true ∨ (table.node c).closed = true →
      (after.node c).isOpen = (table.node c).isOpen ∧
      (after.node c).closed = (table.node c).closed := by
    intro c busy
    rcases flags c with ⟨visits, _⟩ | ⟨_, kept⟩
    · have ready := (mem_pending_open.mp visits.pending).2
      rcases busy with isOpen | closed <;> simp_all
    · exact kept
  refine ⟨fun i => ?_, fun i c child isOpen => ?_, fun i c child closed => ?_⟩
  · rcases flags i with ⟨_, _, notClosed⟩ | ⟨_, sameOpen, sameClosed⟩
    · simp [notClosed]
    · rw [sameOpen, sameClosed]
      exact lawful.exclusive i
  · have child : c ∈ table.children i := by rwa [Table.children, children] at child
    by_cases busy : (table.node c).isOpen = true ∨ (table.node c).closed = true
    · rw [(settled c busy).1, (settled c busy).2]
      exact busy
    · rcases flags i with ⟨visits, _⟩ | ⟨_, sameOpen, _⟩
      · have ready : c ∈ pending openRule table := by
          refine mem_pending_open.mpr ⟨(wellFormed.forest.later child).2, ?_⟩
          simpa using busy
        rcases flags c with ⟨_, isOpen, _⟩ | ⟨unvisited, _⟩
        · exact .inl isOpen
        · exact absurd (named.visits_child visits child ready) unvisited
      · rw [sameOpen] at isOpen
        exact absurd (lawful.belowOpen i c child isOpen) busy
  · have child : c ∈ table.children i := by rwa [Table.children, children] at child
    rcases flags i with ⟨_, _, notClosed⟩ | ⟨_, _, sameClosed⟩
    · simp [notClosed] at closed
    · rw [sameClosed] at closed
      have below := lawful.belowClosed i c child closed
      rw [(settled c (.inr below)).2]
      exact below

theorem Lawful.closed (wellFormed : WellFormed table) (named : Named table) (lawful : Lawful table)
    (found : table.lookup (trimwhitespace field) = some region) {fuel : Nat}
    (done : visitPolls closeRule fuel table (.field field) = some (1, after)) : Lawful after := by
  have flags := closePolls_flags named.addressable found done
  have children := fun i => ((visitPolls_visited done).node i).children
  have stays : ∀ c, (table.node c).closed = true → (after.node c).closed = true := by
    intro c closed
    rcases flags c with ⟨_, _, marked⟩ | ⟨_, _, kept⟩
    · exact marked
    · rw [kept]
      exact closed
  refine ⟨fun i => ?_, fun i c child isOpen => ?_, fun i c child closed => ?_⟩
  · rcases flags i with ⟨_, notOpen, _⟩ | ⟨_, sameOpen, sameClosed⟩
    · simp [notOpen]
    · rw [sameOpen, sameClosed]
      exact lawful.exclusive i
  · have child : c ∈ table.children i := by rwa [Table.children, children] at child
    rcases flags i with ⟨_, notOpen, _⟩ | ⟨_, sameOpen, _⟩
    · simp [notOpen] at isOpen
    · rw [sameOpen] at isOpen
      rcases flags c with ⟨_, _, closed⟩ | ⟨_, sameOpen, sameClosed⟩
      · exact .inr closed
      · rw [sameOpen, sameClosed]
        exact lawful.belowOpen i c child isOpen
  · have child : c ∈ table.children i := by rwa [Table.children, children] at child
    rcases flags i with ⟨visits, _⟩ | ⟨_, _, sameClosed⟩
    · -- The region was open, so each child is open or closed: an open one is visited.
      have wasOpen := (mem_pending_close.mp visits.pending).2.1
      by_cases closedBefore : (table.node c).closed = true
      · exact stays c closedBefore
      · have childOpen := (lawful.belowOpen i c child wasOpen).resolve_right closedBefore
        have ready : c ∈ pending closeRule table := mem_pending_close.mpr
          ⟨(wellFormed.forest.later child).2, childOpen, by simpa using closedBefore⟩
        rcases flags c with ⟨_, _, closed⟩ | ⟨unvisited, _⟩
        · exact closed
        · exact absurd (named.visits_child visits child ready) unvisited
    · rw [sameClosed] at closed
      exact stays c (lawful.belowClosed i c child closed)

/-- What every state of a run without added regions satisfies. -/
structure Governed (table : Table) : Prop where
  wellFormed : WellFormed table
  named : Named table
  lawful : Lawful table

/-- One step keeps the law, and no closed region is opened again. -/
theorem Governed.step (governed : Governed table)
    (noRegion : command (trimlastenter str) ≠ .addRegion)
    (answered : dispatchCode modulus table str = .ok (answer, after)) :
    Governed after ∧ ∀ i, (table.node i).closed = true → (after.node i).closed = true := by
  have wellFormed := governed.wellFormed.step answered
  rcases (dispatchCode_step governed.wellFormed.nonempty answered).frame with
    kept | ⟨rule, field, region, selected, _, found, _, done⟩ | ⟨_, _, selected, _, _⟩
  · exact ⟨⟨wellFormed, governed.named.congr kept.size kept.name,
      governed.lawful.of_flags kept.children_eq kept.isOpen kept.closed⟩,
      fun i closed => by rwa [kept.closed]⟩
  · have named := governed.named.visited (visitPolls_visited done)
    rcases pollRule_eq selected with ⟨_, rfl⟩ | ⟨_, rfl⟩
    · refine ⟨⟨wellFormed, named, governed.lawful.opened governed.wellFormed governed.named found done⟩,
        fun i closed => ?_⟩
      rcases openPolls_flags governed.named.addressable found done i with ⟨visits, _⟩ | ⟨_, _, kept⟩
      · have ready := (mem_pending_open.mp visits.pending).2.2
        simp [ready] at closed
      · rwa [kept]
    · refine ⟨⟨wellFormed, named, governed.lawful.closed governed.wellFormed governed.named found done⟩,
        fun i closed => ?_⟩
      rcases closePolls_flags governed.named.addressable found done i with ⟨_, _, marked⟩ | ⟨_, _, kept⟩
      · exact marked
      · rwa [kept]
  · exact absurd selected noRegion

theorem Initial.lawful (initial : Initial table) : Lawful table where
  exclusive i := by simp [(initial.untouched i).isOpen]
  belowOpen i _ _ isOpen := by simp [(initial.untouched i).isOpen] at isOpen
  belowClosed i _ _ closed := by simp [(initial.untouched i).closed] at closed

/-- A run without added regions keeps the flags in order, and what is closed stays closed. -/
theorem Governed.run {start : Table} {history : List Answered} (governed : Governed start)
    (run : Run (dispatchCode modulus) start history table)
    (noRegion : ∀ event ∈ history, command (trimlastenter event.input) ≠ .addRegion) :
    Governed table ∧ ∀ event ∈ history, ∀ i, (event.before.node i).closed = true →
      (table.node i).closed = true := by
  induction run with
  | nil => exact ⟨governed, by simp⟩
  | snoc run answered ih =>
      obtain ⟨before, earlier⟩ := ih fun event member => noRegion event (List.mem_append_left _ member)
      obtain ⟨stepped, final⟩ := before.step
        (noRegion _ (List.mem_append_right _ (List.mem_singleton_self _))) answered
      refine ⟨stepped, fun event member i closed => ?_⟩
      rcases List.mem_append.mp member with past | last
      · exact final i (earlier event past i closed)
      · obtain rfl := List.mem_singleton.mp last
        exact final i closed

end Named

/-- No region is open and closed, children of open regions are open or closed, children of
closed regions are closed, and closed is final. -/
theorem polls_lawful (modulus : Nat) (file : CStr) {start table : Table} {history : List Answered}
    (created : createDAG file = some start) (distinct : start.names.Nodup)
    (trimmed : ∀ name ∈ start.names, trimwhitespace name = name)
    (run : Run (dispatchCode modulus) start history table)
    (noRegion : ∀ event ∈ history, command (trimlastenter event.input) ≠ .addRegion) :
    (∀ i, ¬ ((table.node i).isOpen = true ∧ (table.node i).closed = true)) ∧
      (∀ i, ∀ c ∈ table.children i, (table.node i).isOpen = true →
        (table.node c).isOpen = true ∨ (table.node c).closed = true) ∧
      (∀ i, ∀ c ∈ table.children i, (table.node i).closed = true → (table.node c).closed = true) ∧
      ∀ event ∈ history, ∀ i, (event.before.node i).closed = true →
        (table.node i).closed = true ∧ (table.node i).isOpen = false := by
  have initial := createDAG_initial created
  have startGoverned : Governed start :=
    ⟨initial.wellFormed, .of_names distinct trimmed, initial.lawful⟩
  obtain ⟨governed, final⟩ := startGoverned.run run noRegion
  have lawful := governed.lawful
  refine ⟨lawful.exclusive, lawful.belowOpen, lawful.belowClosed, fun event member i closed => ?_⟩
  have stays := final event member i closed
  exact ⟨stays, by simpa [stays] using lawful.exclusive i⟩

theorem polls_lawful_sample : ∃ (start table : Table) (history : List Answered),
    createDAG "R:A".toList = some start ∧
    history.map Event.output = [[Response.success], [Response.success]] ∧
    ((∀ i, ¬ ((table.node i).isOpen = true ∧ (table.node i).closed = true)) ∧
      (∀ i, ∀ c ∈ table.children i, (table.node i).isOpen = true →
        (table.node c).isOpen = true ∨ (table.node c).closed = true) ∧
      (∀ i, ∀ c ∈ table.children i, (table.node i).closed = true → (table.node c).closed = true) ∧
      ∀ event ∈ history, ∀ i, (event.before.node i).closed = true →
        (table.node i).closed = true ∧ (table.node i).isOpen = false) := by
  have done : execute (dispatchCode (2 ^ 32)) ((createDAG "R:A".toList).get rfl)
    ["OP;R".toList, "CP;A".toList] = .ok (_, _) := rfl
  exact ⟨_, _, _, rfl, by decide,
    polls_lawful (2 ^ 32) "R:A".toList rfl (by decide) (by decide) (Run.of_execute _ done) (by decide)⟩

section Sealing

variable {modulus : Nat} {table after : Table} {region i j : Nat} {str : CStr}
  {answer : List Response}

theorem Step.closed_stays (step : Step modulus table str answer after)
    (closed : (table.node i).closed = true) : (after.node i).closed = true := by
  rcases step.frame with kept | ⟨rule, _, _, selected, _, _, _, done⟩ | ⟨_, _, _, _, rfl⟩
  · rwa [kept.closed]
  · rcases ((visitPolls_visited done).node i).flags with kept | ⟨allowed, marked⟩
    · rwa [kept.2]
    · rcases pollRule_eq selected with ⟨_, rfl⟩ | ⟨_, rfl⟩
      · have notClosed : (table.node i).closed = false := by
          simp only [openRule] at allowed
          split at allowed <;> simp_all
        simp [notClosed] at closed
      · exact congrArg Prod.snd marked
  · by_cases new : i = table.size
    · rw [Table.node_of_size_le new.ge] at closed
      cases closed
    · rwa [addChild_proj Node.closed (fun _ _ => rfl) new]

/-- No region is open below a closed one. -/
def Sealed (table : Table) : Prop :=
  ∀ i j, (table.node i).closed = true → Below table.children i j → (table.node j).isOpen = false

/-- A request after which every closed subtree is shut: the regions `Open_Polls` visits do
not lie below a closed region, and `Close_Polls` visits every open region below one it visits. -/
structure SealKeeping (table : Table) (str : CStr) : Prop where
  addressable : ∀ rule region, pollRule (command (trimlastenter str)) = some rule →
    table.Names (argvpOf str) 1 region → rule.refusal (table.node region) = none → Addressable table
  opening : ∀ region above i, command (trimlastenter str) = .openPolls →
    table.Names (argvpOf str) 1 region → Visits openRule table region i →
    Below table.children above i → (table.node above).closed = false
  closing : ∀ region i below, command (trimlastenter str) = .closePolls →
    table.Names (argvpOf str) 1 region → Visits closeRule table region i →
    Below table.children i below → (table.node below).isOpen = true →
    Visits closeRule table region below

theorem Sealed.step (wellFormed : WellFormed table) (shut : Sealed table)
    (keeping : SealKeeping table str) (step : Step modulus table str answer after) : Sealed after := by
  rcases step.frame with
    kept | ⟨rule, field, region, selected, present, found, allowed, done⟩
      | ⟨parent, childname, _, named, rfl⟩
  · intro i j closed below
    rw [kept.closed] at closed
    rw [kept.children_eq] at below
    rw [kept.isOpen]
    exact shut i j closed below
  · have named : table.Names (argvpOf str) 1 region := ⟨field, present, found⟩
    have addressable := keeping.addressable rule region selected named allowed
    have children : after.children = table.children := (visitPolls_visited done).children_eq
    intro i j closed below
    rw [children] at below
    rcases pollRule_eq selected with ⟨opens, rfl⟩ | ⟨closes, rfl⟩
    · rcases openPolls_flags addressable found done i with ⟨_, _, notClosed⟩ | ⟨_, _, sameClosed⟩
      · simp [notClosed] at closed
      · rw [sameClosed] at closed
        rcases openPolls_flags addressable found done j with ⟨visits, _⟩ | ⟨_, sameOpen, _⟩
        · have notClosed := keeping.opening region i j opens named visits below
          simp [notClosed] at closed
        · rw [sameOpen]
          exact shut i j closed below
    · rcases closePolls_flags addressable found done j with ⟨_, notOpen, _⟩ | ⟨unvisited, sameOpen, _⟩
      · exact notOpen
      · rw [sameOpen]
        rcases closePolls_flags addressable found done i with ⟨visits, _⟩ | ⟨_, _, sameClosed⟩
        · by_contra stillOpen
          exact unvisited
            (keeping.closing region i j closes named visits below (by simpa using stillOpen))
        · rw [sameClosed] at closed
          exact shut i j closed below
  · intro i j closed below
    rw [addChild_children named.inside] at below
    have old : i ≠ table.size := by
      intro new
      rw [new, addChild_node_new] at closed
      cases closed
    rw [addChild_proj Node.closed (fun _ _ => rfl) old] at closed
    by_cases new : j = table.size
    · rw [new, addChild_node_new]
      rfl
    · rw [addChild_proj Node.isOpen (fun _ _ => rfl) new]
      rcases wellFormed.forest.below_of_addLeaf named.inside below with fresh | below
      · exact absurd fresh new
      · exact shut i j closed below

theorem Step.closes (step : Step modulus table str answer after)
    (selected : command (trimlastenter str) = .closePolls) (success : .success ∈ answer)
    (keeping : SealKeeping table str) (named : table.Names (argvpOf str) 1 region) :
    (after.node region).closed = true := by
  have clash : ∀ {other : Command}, command (trimlastenter str) = other → other ≠ .closePolls →
      False := fun same different => different (same.symm.trans selected)
  cases step with
  | refused failure =>
      obtain rfl := List.mem_singleton.mp success
      cases failure
  | @polls rule field region' after ruled present found allowed done =>
      obtain rfl := named.unique ⟨field, present, found⟩
      have addressable := keeping.addressable rule region ruled named allowed
      rcases pollRule_eq ruled with ⟨opens, _⟩ | ⟨_, rfl⟩
      · exact absurd (opens.symm.trans selected) (by decide)
      · have ready : region ∈ pending closeRule table :=
          Finset.mem_filter.mpr ⟨Finset.mem_range.mpr named.inside, allowed⟩
        rcases closePolls_flags addressable found done region with ⟨_, _, closed⟩ | ⟨unvisited, _⟩
        · exact closed
        · exact absurd ⟨ready, .refl⟩ unvisited
  | votesAdded other => exact (clash other (by decide)).elim
  | votesRemoved other => exact (clash other (by decide)).elim
  | regionAdded other => exact (clash other (by decide)).elim
  | votesRead other => exact (clash other (by decide)).elim
  | votesCounted other => exact (clash other (by decide)).elim
  | won other => exact (clash other (by decide)).elim

theorem Step.voting (step : Step modulus table str answer after)
    (selected : command (trimlastenter str) = .addVotes ∨ command (trimlastenter str) = .removeVotes)
    (named : table.Names (argvpOf str) 1 region) {response : Response} (member : response ∈ answer)
    (success : response.isSuccess = true) : Voting table region := by
  have clash : ∀ {other : Command}, command (trimlastenter str) = other → other ≠ .addVotes →
      other ≠ .removeVotes → False := by
    intro other same notAdd notRemove
    rcases selected with added | removed
    · exact notAdd (same.symm.trans added)
    · exact notRemove (same.symm.trans removed)
  cases step with
  | refused failure =>
      obtain rfl := List.mem_singleton.mp member
      simp [failure] at success
  | polls ruled =>
      rcases pollRule_eq ruled with ⟨opens, _⟩ | ⟨closes, _⟩
      · exact (clash opens (by decide) (by decide)).elim
      · exact (clash closes (by decide) (by decide)).elim
  | votesAdded _ target _ voting => exact named.unique target ▸ voting
  | votesRemoved _ target _ voting => exact named.unique target ▸ voting
  | regionAdded other => exact (clash other (by decide) (by decide)).elim
  | votesRead other => exact (clash other (by decide) (by decide)).elim
  | votesCounted other => exact (clash other (by decide) (by decide)).elim
  | won other => exact (clash other (by decide) (by decide)).elim

/-- After a successful `Close_Polls` no vote request in the subtree of its region succeeds. -/
def ClosingFinal (history : List Answered) : Prop :=
  ∀ past closing between voting future,
    history = past ++ closing :: (between ++ voting :: future) →
    command (trimlastenter closing.input) = .closePolls → .success ∈ closing.output →
    (command (trimlastenter voting.input) = .addVotes ∨
      command (trimlastenter voting.input) = .removeVotes) →
    ∀ region target, closing.before.Names (argvpOf closing.input) 1 region →
      voting.before.Names (argvpOf voting.input) 1 target →
      Below voting.before.children region target →
      ∀ response ∈ voting.output, response.isSuccess = false

end Sealing

theorem closing_final (modulus : Nat) (file : CStr) {start table : Table} {history : List Answered}
    (created : createDAG file = some start) (run : Run (dispatchCode modulus) start history table)
    (keeping : Along (fun _ => SealKeeping) history) : ClosingFinal history := by
  intro past closing between voting future whole closes success votes region target named targeted below
    response member
  have initial := createDAG_initial created
  subst whole
  obtain ⟨toClosing, afterClosing, closed, rest⟩ := run.split
  obtain ⟨toVoting, afterVoting, voted, _⟩ := rest.split
  have wellFormed := Run.wellFormed initial.wellFormed toClosing
  have step := dispatchCode_step wellFormed.nonempty closed
  have nowClosed : (afterClosing.node region).closed = true :=
    step.closes closes success (keeping past closing _ rfl) named
  have votingWellFormed := Run.wellFormed (wellFormed.step closed) toVoting
  have stillClosed : (voting.before.node region).closed = true := by
    have carried : WellFormed voting.before ∧ (voting.before.node region).closed = true := by
      refine Run.invariant_state (fun table => WellFormed table ∧ (table.node region).closed = true)
        ⟨wellFormed.step closed, nowClosed⟩ ?_ toVoting
      intro state input output after ⟨formed, shut⟩ answered
      exact ⟨formed.step answered, (dispatchCode_step formed.nonempty answered).closed_stays shut⟩
    exact carried.2
  have shut : WellFormed voting.before ∧ Sealed voting.before := by
    have bracketed : past ++ closing :: (between ++ voting :: future) =
        (past ++ closing :: between) ++ voting :: future := by simp
    rw [bracketed] at run keeping
    refine Run.invariant (fun _ table => WellFormed table ∧ Sealed table)
      ⟨initial.wellFormed, ?_⟩ ?_ run.split.1 (Run.along_prefix_of_append keeping)
    · intro i _ isClosed
      simp [(initial.untouched i).closed] at isClosed
    · intro _ state input output after _ ⟨formed, shut⟩ keeping answered
      exact ⟨formed.step answered,
        shut.step formed keeping (dispatchCode_step formed.nonempty answered)⟩
  have notOpen := shut.2 region target stillClosed below
  cases success : response.isSuccess with
  | false => rfl
  | true =>
      have accepting :=
        ((dispatchCode_step votingWellFormed.nonempty voted).voting votes targeted member
        success).isOpen
      rw [notOpen] at accepting
      cases accepting

/-- The region file `R:A` with the same flags at both regions. -/
def twoRegions (isOpen closed : Bool) : Table :=
  ⟨[{ name := ['R'], children := [1], isOpen, closed }, { name := ['A'], isOpen, closed }]⟩

theorem closing_final_sample : createDAG "R:A".toList = some (twoRegions false false) ∧
    ClosingFinal [⟨twoRegions false false, "OP;R".toList, [.success]⟩,
      ⟨twoRegions true false, "CP;R".toList, [.success]⟩,
      ⟨twoRegions false true, "AV;A;X:1".toList, [.regionClosed ['A']]⟩] := by
  have opened : SealKeeping (twoRegions false false) "OP;R".toList :=
    { addressable := fun _ _ _ _ _ => Named.addressable (.of_names (by decide) (by decide))
      opening := fun _ above _ _ _ _ _ => match above with
        | 0 => rfl
        | 1 => rfl
        | _ + 2 => rfl
      closing := fun _ _ _ closes => nomatch closes }
  have closed : SealKeeping (twoRegions true false) "CP;R".toList :=
    { addressable := fun _ _ _ _ _ => Named.addressable (.of_names (by decide) (by decide))
      opening := fun _ _ _ opens => nomatch opens
      closing := by
        intro region i below _ ⟨field, present, found⟩ _ _ isOpen
        cases present
        cases found
        have root : Visits closeRule (twoRegions true false) 0 0 := ⟨by decide, .refl⟩
        match below with
        | 0 => exact root
        | 1 => exact ⟨root.1, .tail root.2 ⟨⟨1, by decide, by decide⟩, by decide⟩⟩
        | _ + 2 => cases isOpen }
  have voted : SealKeeping (twoRegions false true) "AV;A;X:1".toList :=
    { addressable := fun _ _ selected => nomatch selected
      opening := fun _ _ _ opens => nomatch opens
      closing := fun _ _ _ closes => nomatch closes }
  have run : Run (dispatchCode (2 ^ 32)) (twoRegions false false)
      [⟨twoRegions false false, "OP;R".toList, [.success]⟩,
        ⟨twoRegions true false, "CP;R".toList, [.success]⟩,
        ⟨twoRegions false true, "AV;A;X:1".toList, [.regionClosed ['A']]⟩] (twoRegions false true) :=
    Run.of_execute ["OP;R".toList, "CP;R".toList, "AV;A;X:1".toList] (by rfl)
  refine ⟨by decide, closing_final (2 ^ 32) "R:A".toList (by decide) run ?_⟩
  exact Run.along_cons.mpr ⟨opened, Run.along_cons.mpr ⟨closed, Run.along_cons.mpr
    ⟨voted, Run.along_nil⟩⟩⟩

/-- A region added below a closed one is opened and takes votes. -/
theorem closing_not_final : ∃ (file : CStr) (start table : Table) (history : List Answered),
    createDAG file = some start ∧ start.names.Nodup ∧
    Run (dispatchCode (2 ^ 32)) start history table ∧ ¬ ClosingFinal history := by
  have done : execute (dispatchCode (2 ^ 32)) ((createDAG "R:A".toList).get rfl)
    (["OP;R", "CP;R", "AR;R;B", "OP;B", "AV;B;X:1"].map String.toList) = .ok (_, _) := rfl
  refine ⟨"R:A".toList, _, _, _, rfl, by decide, Run.of_execute _ done, fun final => ?_⟩
  have refused := final [_] _ [_, _] _ [] rfl (by decide) (by decide) (.inl (by decide)) 0 2
    ⟨_, rfl, rfl⟩ ⟨_, rfl, rfl⟩ (.single (by decide)) .success (by decide)
  cases refused

end VoteCounting.Server
