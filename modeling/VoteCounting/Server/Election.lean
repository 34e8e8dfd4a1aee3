import VoteCounting.Server.Flags
import VoteCounting.Server.Meaning
import VoteCounting.Server.Range
import VoteCounting.Server.Winner

namespace VoteCounting.Server

open Counters CString

/-- The votes one request adds. -/
structure Sheet where
  region : CStr
  votes : List Counter
deriving DecidableEq, Repr

def Sheet.request (sheet : Sheet) : Request := .addVotes sheet.region sheet.votes

def election (root : CStr) (sheets : List Sheet) : List Request :=
  .openPolls root :: (sheets.map Sheet.request ++ [.closePolls root, .returnWinner])

/-- All votes for a candidate. -/
def votesFor (sheets : List Sheet) (name : CStr) : Int :=
  (sheets.map fun sheet => total sheet.votes name).sum

/-- A right answer to `Return_Winner`. -/
def Outcome (sheets : List Sheet) : Response → Prop
  | .winner name => 0 < votesFor sheets name ∧ ∀ other, votesFor sheets other ≤ votesFor sheets name
  | .noVotes => ∀ name, votesFor sheets name = 0
  | _ => False

/-- Regions with names of their own, all of them below the root, which is not the only one. -/
structure Electoral (table : Table) : Prop where
  named : Named table
  reached : ∀ i < table.size, Below table.children 0 i
  inner : table.children 0 ≠ []

/-- Votes for leaves, no more for a candidate than an `int` can count. -/
structure ProperSheets (table : Table) (sheets : List Sheet) : Prop where
  leaf : ∀ sheet ∈ sheets, ∃ i, table.lookup sheet.region = some i ∧ table.children i = []
  positive : ∀ sheet ∈ sheets, ∀ vote ∈ sheet.votes, 0 < vote.count
  few : ∀ name, votesFor sheets name < 2 ^ 31

def filed (table : Table) (sheets : List Sheet) (i : Nat) (name : CStr) : Int :=
  (sheets.map fun sheet => if table.lookup sheet.region = some i then total sheet.votes name else 0).sum

def Filed (table : Table) (sheets : List Sheet) (i : Nat) (name : CStr) : Prop :=
  ∃ sheet ∈ sheets, table.lookup sheet.region = some i ∧ name ∈ names sheet.votes

section Sheets

variable {table after : Table} {sheets : List Sheet} {sheet : Sheet} {region i : Nat} {name : CStr}

theorem filed_stores (found : table.lookup sheet.region = some region) :
    Stores (filed table sheets) (filed table (sheets ++ [sheet])) (Filed table sheets)
      (Filed table (sheets ++ [sheet])) region (total sheet.votes) (· ∈ names sheet.votes) where
  ledger_eq i name := by
    simp only [filed, List.map_append, List.map_cons, List.map_nil, List.sum_append, List.sum_cons,
      List.sum_nil, add_zero, found, Option.some.injEq]
  added_iff i name := by
    simp [Filed, or_and_right, exists_or, found]

/-- Every sheet is counted once. -/
theorem subtreeTotal_filed (wellFormed : WellFormed table)
    (below : ∀ sheet ∈ sheets, ∃ i, table.lookup sheet.region = some i ∧ Below table.children 0 i) :
    subtreeTotal table (filed table sheets) 0 name = votesFor sheets name := by
  induction sheets with
  | nil => simp [subtreeTotal, filed, votesFor]
  | cons sheet rest ih =>
      obtain ⟨⟨i, found, under⟩, others⟩ := List.forall_mem_cons.mp below
      have once : (subtree table.children table.size 0).count i = 1 :=
        List.count_eq_one_of_mem (wellFormed.forest.nodup_subtree _ _)
          (wellFormed.mem_subtree_iff.mpr under)
      have own : ((subtree table.children table.size 0).map fun j =>
          if table.lookup sheet.region = some j then total sheet.votes name else 0).sum =
            total sheet.votes name := by
        rw [List.sum_map_eq_nsmul_single i _ fun j other _ => if_neg fun same =>
          other (Option.some.inj (same.symm.trans found)), once, if_pos found, one_nsmul]
      have rest_eq := ih others
      simp only [subtreeTotal, filed, votesFor, List.map_cons, List.sum_cons] at rest_eq ⊢
      rw [List.sum_map_add, own, rest_eq]

end Sheets

section Orders

variable {table : Table} {left right : List Sheet}

theorem votesFor_perm (perm : left.Perm right) (name : CStr) :
    votesFor left name = votesFor right name :=
  (perm.map _).sum_eq

theorem ProperSheets.perm (perm : left.Perm right) (proper : ProperSheets table left) :
    ProperSheets table right where
  leaf sheet held := proper.leaf sheet (perm.mem_iff.mpr held)
  positive sheet held := proper.positive sheet (perm.mem_iff.mpr held)
  few name := votesFor_perm perm name ▸ proper.few name

/-- The outcome does not depend on the order of the sheets. -/
theorem Outcome.perm (perm : left.Perm right) {answer : Response} (outcome : Outcome left answer) :
    Outcome right answer := by
  have same : votesFor left = votesFor right := funext (votesFor_perm perm)
  cases answer with
  | winner | noVotes =>
      rw [Outcome, ← same]
      exact outcome
  | _ => exact outcome

end Orders

section Polls

variable {table after : Table} {rule : PollRule} {already notReady : CStr → Response}
  {region : CStr} {i : Nat}

/-- A region that may be marked is marked. -/
theorem performPolls_allowed (found : table.lookup region = some i)
    (trimmed : trimwhitespace region = region) (allowed : rule.refusal (table.node i) = none) :
    ∃ after, performPolls table rule already notReady region = .ok ([.success], after) ∧
      visitPolls rule (table.size + 1) table (.field region) = some (1, after) := by
  obtain ⟨f, after, visited⟩ := visitPolls_total rule table (.field region)
  rcases visitPolls_cases visited with ⟨missed, _⟩ | ⟨j, alsoFound, refused | ⟨_, rfl⟩⟩
  · rw [trimmed, found] at missed
    cases missed
  · rw [trimmed, found] at alsoFound
    obtain rfl := Option.some.inj alsoFound
    rw [allowed] at refused
    cases refused.1
  · refine ⟨after, ?_, visited⟩
    rw [visitPolls_field, trimmed, found] at visited
    simp only [performPolls, onRegion, found, visited]
    rfl

theorem Governed.root (governed : Governed table) :
    table.lookup (table.node 0).name = some 0 ∧
      trimwhitespace (table.node 0).name = (table.node 0).name :=
  ⟨lookup_root governed.wellFormed.nonempty, governed.named.trimmed 0⟩

/-- Every region is open. -/
structure Opened (table : Table) : Prop where
  governed : Governed table
  isOpen : ∀ i < table.size, (table.node i).isOpen = true

theorem Opened.notClosed (opened : Opened table) (inside : i < table.size) :
    (table.node i).closed = false := by
  by_contra closed
  exact opened.governed.lawful.exclusive i ⟨opened.isOpen i inside, by simpa using closed⟩

/-- The polls of the root are those of all regions. -/
theorem Electoral.opens (modulus : Nat) (electoral : Electoral table) (initial : Initial table) :
    ∃ opened,
    (Request.openPolls (table.node 0).name).perform modulus table = .ok ([.success], opened) ∧
      Opened opened ∧ OnlyFlags table opened := by
  have untouched := initial.untouched
  have governed : Governed table :=
    ⟨initial.wellFormed, electoral.named, initial.lawful⟩
  obtain ⟨found, trimmed⟩ := governed.root
  have allowed : openRule.refusal (table.node 0) = none := by
    simp [openRule, (untouched 0).isOpen, (untouched 0).closed]
  obtain ⟨opened, performed, visited⟩ := performPolls_allowed found trimmed allowed
  have named : table.lookup (trimwhitespace (table.node 0).name) = some 0 := trimmed.symm ▸ found
  have polls := governed.opens named allowed visited
  have children : opened.children = table.children := funext polls.kept.children
  refine ⟨opened, performed, ⟨⟨governed.wellFormed.congr polls.kept.size children,
    governed.named.visited (visitPolls_visited visited),
    governed.lawful.opened governed.wellFormed governed.named named visited⟩, fun i inside => ?_⟩,
    polls.kept⟩
  rw [polls.kept.size] at inside
  exact polls.opened i ((polls.changed i).mpr
    (.inr ⟨electoral.reached i inside, (untouched i).isOpen, (untouched i).closed⟩))

theorem Opened.closes (modulus : Nat) (opened : Opened table)
    (reached : ∀ i < table.size, Below table.children 0 i) : ∃ closed,
      (Request.closePolls (table.node 0).name).perform modulus table = .ok ([.success], closed) ∧
        OnlyFlags table closed ∧ ∀ i < table.size, settled (closed.node i) = true := by
  have nonempty := opened.governed.wellFormed.nonempty
  obtain ⟨found, trimmed⟩ := opened.governed.root
  have allowed : closeRule.refusal (table.node 0) = none := by
    simp [closeRule, opened.isOpen 0 nonempty, opened.notClosed nonempty]
  obtain ⟨closed, performed, visited⟩ := performPolls_allowed found trimmed allowed
  have polls := opened.governed.closes (trimmed.symm ▸ found) allowed visited
  refine ⟨closed, performed, polls.kept, fun i inside => ?_⟩
  obtain ⟨shut, notOpen⟩ := polls.closed i ((polls.changed i).mpr
    (.inr ⟨reached i inside, opened.isOpen i inside⟩))
  simp [settled, shut, notOpen]

end Polls

/-- While votes are added, the counters are those of the sheets so far. -/
structure Polling (start : Table) (sheets : List Sheet) (table : Table) : Prop where
  opened : Opened table
  size : table.size = start.size
  name : ∀ i, (table.node i).name = (start.node i).name
  children : table.children = start.children
  cast : Cast (filed start sheets) (Filed start sheets) table
  fit : CountsFit intModulus table
  book : ∀ i, BookOf (filed start sheets) (Filed start sheets) table i
  uncounted : ∀ i, table.children i ≠ [] → (table.node i).hasdata = false
  nonneg : ∀ i, ∀ entry ∈ (table.node i).rootCounter, 0 ≤ entry.count

section Votes

variable {modulus : Nat} {start table after : Table} {sheets : List Sheet} {sheet : Sheet}
  {entries votes : List Counter} {entry : Counter} {cursor : Cursor} {region i : Nat} {name : CStr}
  {amount : Int}

theorem count_le_total (nonneg : ∀ entry ∈ entries, 0 ≤ entry.count) (member : entry ∈ entries) :
    entry.count ≤ total entries entry.name := by
  induction entries with
  | nil => cases member
  | cons first rest ih =>
      obtain ⟨own, others⟩ := List.forall_mem_cons.mp nonneg
      rw [total_cons]
      rcases List.mem_cons.mp member with rfl | later
      · have more : 0 ≤ total rest entry.name := total_nonneg others
        rw [if_pos rfl]
        omega
      · have bound := ih others later
        split <;> omega

theorem nonneg_credit (nonneg : ∀ entry ∈ entries, 0 ≤ entry.count) (positive : 0 ≤ amount) :
    ∀ entry ∈ credit 0 entries name amount, 0 ≤ entry.count := by
  induction entries with
  | nil => simpa [credit] using positive
  | cons first rest ih =>
      obtain ⟨own, others⟩ := List.forall_mem_cons.mp nonneg
      rw [credit]
      split
      · refine List.forall_mem_cons.mpr ⟨?_, others⟩
        rw [Int.bmod_zero]
        exact Int.add_nonneg own positive
      · exact List.forall_mem_cons.mpr ⟨own, ih others⟩

theorem nonneg_addAll (nonneg : ∀ entry ∈ cursor.entries, 0 ≤ entry.count)
    (positive : ∀ vote ∈ votes, 0 < vote.count) :
    ∀ entry ∈ (addAll 0 votes cursor).entries, 0 ≤ entry.count := by
  induction votes generalizing cursor with
  | nil => exact nonneg
  | cons vote rest ih =>
      obtain ⟨own, others⟩ := List.forall_mem_cons.mp positive
      obtain ⟨passed, ahead⟩ := List.forall_mem_append.mp nonneg
      refine ih ?_ others
      rw [addVote_entries]
      exact List.forall_mem_append.mpr ⟨passed, nonneg_credit ahead own.le⟩

theorem filed_le (positive : ∀ sheet ∈ sheets, ∀ vote ∈ sheet.votes, 0 < vote.count) :
    filed table sheets i name ≤ votesFor sheets name := by
  refine List.sum_le_sum fun sheet held => ?_
  have share : 0 ≤ total sheet.votes name :=
    total_nonneg fun vote member => (positive sheet held vote member).le
  split <;> omega

theorem Polling.lookup (polling : Polling start sheets table) (region : CStr) :
    table.lookup region = start.lookup region := by
  rw [Table.lookup_eq_names, Table.lookup_eq_names,
    Table.names_eq_of_node polling.size polling.name]

/-- One more sheet is booked. -/
theorem Polling.add (polling : Polling start sheets table)
    (found : start.lookup sheet.region = some region) (leaf : start.children region = [])
    (positive : ∀ other ∈ sheets ++ [sheet], ∀ vote ∈ other.votes, 0 < vote.count)
    (few : ∀ name, votesFor (sheets ++ [sheet]) name < 2 ^ 31) :
    ∃ after, sheet.request.perform intModulus table = .ok ([.success], after) ∧
      Polling start (sheets ++ [sheet]) after := by
  have present : table.lookup sheet.region = some region := (polling.lookup _).trans found
  have inside := (Table.lookup_some present).1
  have noChild : table.children region = [] := polling.children ▸ leaf
  have voting : Voting table region :=
    ⟨inside, noChild, polling.opened.isOpen region inside, polling.opened.notClosed inside⟩
  have stores : Stores (filed start sheets) (filed start (sheets ++ [sheet])) (Filed start sheets)
      (Filed start (sheets ++ [sheet])) region (total sheet.votes) (· ∈ names sheet.votes) :=
    filed_stores found
  have positiveVotes := positive sheet (by simp)
  have nonneg : ∀ entry ∈ (addAll 0 sheet.votes ⟨[], (table.node region).rootCounter⟩).entries,
      0 ≤ entry.count := nonneg_addAll (polling.nonneg region) positiveVotes
  have room : ∀ entry ∈ (addAll 0 sheet.votes ⟨[], (table.node region).rootCounter⟩).entries,
      Fits intModulus entry.count := by
    intro entry member
    refine fits_of_inRange ⟨nonneg entry member, ?_⟩
    have exact : total (addAll 0 sheet.votes ⟨[], (table.node region).rootCounter⟩).entries entry.name =
        filed start (sheets ++ [sheet]) region entry.name := by
      rw [Int.modEq_zero_iff.mp total_addAll_modEq, stores.ledger_eq, if_pos rfl]
      exact congrArg (· + _) ((polling.book region).leaf_total polling.cast noChild)
    calc entry.count ≤ filed start (sheets ++ [sheet]) region entry.name :=
          (count_le_total nonneg member).trans_eq exact
      _ ≤ votesFor (sheets ++ [sheet]) entry.name := filed_le positive
      _ < 2 ^ 31 := few entry.name
  have apart : ∀ above, Below table.children above region → above ≠ region →
      (table.node above).hasdata = false := fun above below other =>
    polling.uncounted above fun leaf => other (below_leaf leaf below).symm
  obtain ⟨after, performed, stored, listed⟩ : ∃ after,
      sheet.request.perform intModulus table = .ok ([.success], after) ∧
      VotesBooked table region (total sheet.votes) (· ∈ names sheet.votes) after ∧
      (after.node region).rootCounter =
        (addAll 0 sheet.votes ⟨[], (table.node region).rootCounter⟩).entries := by
    refine ⟨_, ?_, votesBooked_added voting room fun _ => apart, ?_⟩
    · simp only [Sheet.request, Request.perform, performAdd, onRegion, present, noChild, voting.isOpen,
        voting.notClosed]
      rfl
    · rw [Table.node_modify_self inside, addAll_exact room]
  have counters : ∀ (P : Int → Prop) (i : Nat),
      (∀ entry ∈ (addAll 0 sheet.votes ⟨[], (table.node region).rootCounter⟩).entries, P entry.count) →
      (∀ entry ∈ (table.node i).rootCounter, P entry.count) →
      ∀ entry ∈ (after.node i).rootCounter, P entry.count := by
    intro P i new old
    by_cases own : i = region
    · rw [own, listed]
      exact new
    · rw [stored.others i own]
      exact old
  have frame := stored.frame
  have governed := polling.opened.governed
  refine ⟨after, performed, ⟨⟨⟨governed.wellFormed.congr frame.size frame.children_eq,
    governed.named.congr frame.size frame.name,
    governed.lawful.of_flags frame.children_eq frame.isOpen frame.closed⟩, fun i held => ?_⟩,
    frame.size.trans polling.size, fun i => (frame.name i).trans (polling.name i),
    frame.children_eq.trans polling.children, stored.cast stores polling.cast polling.book,
    fun i => counters _ i room (polling.fit i), stored.book stores polling.cast polling.book,
    fun i inner => ?_, fun i => counters (0 ≤ ·) i nonneg (polling.nonneg i)⟩⟩
  · rw [frame.isOpen]
    exact polling.opened.isOpen i (frame.size ▸ held)
  · rw [frame.children] at inner
    rw [stored.others i fun same => inner (same ▸ noChild)]
    exact polling.uncounted i inner

theorem votesFor_append (first later : List Sheet) (name : CStr) :
    votesFor (first ++ later) name = votesFor first name + votesFor later name := by
  rw [votesFor, List.map_append, List.sum_append, ← votesFor, ← votesFor]

theorem votesFor_nonneg (positive : ∀ sheet ∈ sheets, ∀ vote ∈ sheet.votes, 0 < vote.count) :
    0 ≤ votesFor sheets name := by
  refine List.sum_nonneg fun share held => ?_
  obtain ⟨sheet, member, rfl⟩ := List.mem_map.mp held
  exact total_nonneg fun vote inside => (positive sheet member vote inside).le

/-- All sheets are booked, one after another. -/
theorem Polling.addAll {rest : List Sheet} (polling : Polling start sheets table)
    (proper : ProperSheets start (sheets ++ rest)) :
    ∃ after, performAll intModulus table (rest.map Sheet.request) =
        .ok (List.replicate rest.length .success, after) ∧ Polling start (sheets ++ rest) after := by
  induction rest generalizing sheets table with
  | nil => exact ⟨table, rfl, by rwa [List.append_nil]⟩
  | cons sheet rest ih =>
      have shape : sheets ++ sheet :: rest = (sheets ++ [sheet]) ++ rest := by simp
      obtain ⟨region, found, leaf⟩ := proper.leaf sheet (by simp)
      rw [shape] at proper
      have few : ∀ name, votesFor (sheets ++ [sheet]) name < 2 ^ 31 := fun name => by
        have whole := proper.few name
        have more : 0 ≤ votesFor rest name := votesFor_nonneg fun other held =>
          proper.positive other (List.mem_append_right _ held)
        rw [votesFor_append] at whole
        omega
      obtain ⟨middle, performed, booked⟩ := polling.add found leaf
        (fun other held => proper.positive other (List.mem_append_left _ held)) few
      obtain ⟨after, later, done⟩ := ih booked proper
      exact ⟨after, performAll_append (performAll_one performed) later, shape ▸ done⟩

end Votes

section Winning

variable {start table opened : Table} {sheets : List Sheet}

/-- No votes have been added when the polls open. -/
theorem Initial.polling (initial : Initial start) (opened : Opened table)
    (kept : OnlyFlags start table) : Polling start [] table where
  opened := opened
  size := kept.size
  name := kept.name
  children := funext kept.children
  cast := ⟨fun _ _ _ => rfl, by simp [Filed], by simp [Filed]⟩
  fit i := by simp [kept.rootCounter, (initial.untouched i).rootCounter]
  book i := by
    have untouched := initial.untouched i
    refine ⟨fun _ => ⟨(kept.rootCounter i).trans untouched.rootCounter, by simp [Filed]⟩,
      fun flag => ?_, by simp [kept.rootCounter, untouched.rootCounter], by simp [Filed],
      by simp [kept.rootCounter, untouched.rootCounter]⟩
    rw [kept.hasdata, untouched.hasdata] at flag
    cases flag
  uncounted i _ := (kept.hasdata i).trans (initial.untouched i).hasdata
  nonneg i := by simp [kept.rootCounter, (initial.untouched i).rootCounter]

/-- Where every region is closed, the votes are counted. -/
theorem returnWinner_settled {modulus : Nat} (wellFormed : WellFormed table)
    (closed : ∀ i < table.size, settled (table.node i) = true) :
    ∃ after, aggregate modulus table.size table 0 = some after ∧
      returnWinner modulus table = .ok ([winnerAnswer (after.node 0)], after) := by
  obtain ⟨after, counted⟩ := aggregate_total modulus wellFormed.forest
    ⟨Nat.le_add_left _ 0, wellFormed.nonempty⟩
  have first : table.nodes.head? = some (table.node 0) := by
    rw [List.head?_eq_getElem?, List.getElem?_eq_getElem wellFormed.nonempty,
      Table.node_eq_getElem wellFormed.nonempty]
  have leaves : (table.nodes.all fun node => !node.children.isEmpty || settled node) = true := by
    rw [List.all_eq_true]
    intro node member
    obtain ⟨i, inside, rfl⟩ := List.mem_iff_getElem.mp member
    rw [← Table.node_eq_getElem inside, closed i inside, Bool.or_true]
  refine ⟨after, counted, ?_⟩
  simp only [returnWinner, first, lookup_root wellFormed.nonempty, closed 0 wellFormed.nonempty, leaves,
    counted, winnerAnswer, Bool.not_true, Bool.or_false, Bool.false_eq_true, if_false]
  split <;> rfl

/-- The counters of the regions, whatever their flags. -/
structure Counted (start : Table) (sheets : List Sheet) (table : Table) : Prop where
  wellFormed : WellFormed table
  cast : Cast (filed start sheets) (Filed start sheets) table
  fit : CountsFit intModulus table
  book : ∀ i, BookOf (filed start sheets) (Filed start sheets) table i
  tracked : ∀ i, i ≠ 0 → Tracked intModulus (filed start sheets) table i

theorem votesFor_pos {name : CStr}
    (positive : ∀ sheet ∈ sheets, ∀ vote ∈ sheet.votes, 0 < vote.count)
    (voted : ∃ sheet ∈ sheets, name ∈ names sheet.votes) : 0 < votesFor sheets name := by
  obtain ⟨sheet, held, listed⟩ := voted
  obtain ⟨before, later, rfl⟩ := List.append_of_mem held
  obtain ⟨vote, member, rfl⟩ := List.mem_map.mp listed
  have own := count_le_total (fun other inside => (positive sheet held other inside).le) member
  have counts := positive sheet held vote member
  have earlier : 0 ≤ votesFor before vote.name := votesFor_nonneg fun other inside =>
    positive other (List.mem_append_left _ inside)
  have others : 0 ≤ votesFor later vote.name := votesFor_nonneg fun other inside =>
    positive other (List.mem_append_right _ (List.mem_cons_of_mem sheet inside))
  have split : votesFor (sheet :: later) vote.name =
      total sheet.votes vote.name + votesFor later vote.name := rfl
  rw [votesFor_append, split]
  omega

theorem Counted.outcome {after : Table} (counted : Counted start sheets table)
    (uncounted : (table.node 0).hasdata = false)
    (whole : ∀ name, subtreeTotal table (filed start sheets) 0 name = votesFor sheets name)
    (positive : ∀ sheet ∈ sheets, ∀ vote ∈ sheet.votes, 0 < vote.count)
    (few : ∀ name, votesFor sheets name < 2 ^ 31)
    (done : aggregate intModulus table.size table 0 = some after) :
    Outcome sheets (winnerAnswer (after.node 0)) := by
  obtain ⟨wellFormed, cast, fit, book, tracked⟩ := counted
  have merged := aggregate_merged wellFormed cast fit (fun flag => ((book 0).empty flag).1)
    (fun i below proper => ⟨book i, tracked i proper⟩) done
  obtain ⟨rootBook, rootTracked⟩ := merged.book wellFormed cast (book 0) uncounted
  have none := ((book 0).empty uncounted).2
  have gains : (after.node 0).hasdata = true ↔
      ∃ name, AddedBelow table (Filed start sheets) 0 name := by
    rw [merged.gains, uncounted]
    simp only [Bool.false_eq_true, false_or]
    constructor
    · rintro ⟨child, held, name, below⟩
      exact ⟨name, addedBelow_iff.mpr (.inr ⟨child, held, below⟩)⟩
    · rintro ⟨name, below⟩
      rcases addedBelow_iff.mp below with own | ⟨child, held, below⟩
      · exact absurd own (none name)
      · exact ⟨child, held, name, below⟩
  rw [winnerAnswer]
  cases flag : (after.node 0).hasdata with
  | true =>
      have unique := rootBook.unique none
      have totals : ∀ name, total (after.node 0).rootCounter name = votesFor sheets name := by
        intro name
        have inside : InRange (votesFor sheets name) := ⟨votesFor_nonneg positive, few name⟩
        refine (fits_total unique (merged.fit 0)).eq_of_modEq (fits_of_inRange inside) ?_
        rw [← whole, ← merged.frame.subtreeTotal_eq]
        exact rootTracked flag name
      obtain ⟨name, i, _, sheet, held, _, listed⟩ := gains.mp flag
      have voted := votesFor_pos positive ⟨sheet, held, listed⟩
      obtain ⟨above, largest⟩ := winnerName_total unique ⟨name, (totals name).symm ▸ voted⟩
      simp only [totals] at above largest
      exact ⟨above, largest⟩
  | false =>
      have silent : ∀ other, ¬ AddedBelow table (Filed start sheets) 0 other := fun other added => by
        rw [gains.mpr ⟨other, added⟩] at flag
        cases flag
      intro name
      rw [← whole]
      exact subtreeTotal_eq_zero wellFormed cast silent

/-- Closing the polls keeps the counters. -/
theorem Polling.counted {closed : Table} (polling : Polling start sheets table)
    (kept : OnlyFlags table closed) : Counted start sheets closed where
  wellFormed := polling.opened.governed.wellFormed.congr kept.size (funext kept.children)
  cast := polling.cast.congr kept.size (funext kept.children)
  fit := polling.fit.congr kept.rootCounter
  book i := (polling.book i).congr (funext kept.children) (kept.rootCounter i) (kept.hasdata i)
  tracked i _ := by
    refine Tracked.congr ?_ kept.size (funext kept.children) (kept.rootCounter i) (kept.hasdata i)
    intro flag name
    -- only leaves have data yet
    have leaf : table.children i = [] := by
      by_contra inner
      rw [polling.uncounted i inner] at flag
      cases flag
    rw [subtreeTotal_leaf polling.opened.governed.wellFormed leaf,
      (polling.book i).leaf_total polling.cast leaf]

/-- All requests succeed, and the answer to the last one is right. -/
theorem election_performed (initial : Initial start) (electoral : Electoral start)
    (proper : ProperSheets start sheets) :
    ∃ answer after, performAll intModulus start (election (start.node 0).name sheets) =
        .ok (.success :: (List.replicate sheets.length .success ++ [.success, answer]), after) ∧
      Outcome sheets answer := by
  obtain ⟨opened, opens, isOpened, flags⟩ := electoral.opens intModulus initial
  obtain ⟨polled, adds, polling⟩ := (initial.polling isOpened flags).addAll
    ((List.nil_append sheets).symm ▸ proper)
  rw [List.nil_append] at polling
  have reached : ∀ i < polled.size, Below polled.children 0 i := by
    rw [polling.size, polling.children]
    exact electoral.reached
  obtain ⟨closed, closes, kept, shut⟩ := polling.opened.closes intModulus reached
  rw [polling.name] at closes
  have counted := polling.counted kept
  have children : closed.children = start.children := (funext kept.children).trans polling.children
  rw [← kept.size] at shut
  obtain ⟨after, done, wins⟩ := returnWinner_settled counted.wellFormed shut
  refine ⟨_, after, ?_, counted.outcome ?_ (fun name => ?_) proper.positive proper.few done⟩
  · rw [election, ← List.singleton_append]
    have ends : performAll intModulus polled [.closePolls (start.node 0).name, .returnWinner] =
        .ok ([.success, winnerAnswer (after.node 0)], after) :=
      performAll_append (performAll_one closes) (performAll_one wins)
    exact performAll_append (performAll_one opens) (performAll_append adds ends)
  · rw [kept.hasdata]
    exact polling.uncounted 0 (polling.children ▸ electoral.inner)
  · have all : subtreeTotal closed (filed start sheets) 0 name =
        subtreeTotal start (filed start sheets) 0 name :=
      subtreeTotal_congr (kept.size.trans polling.size) children
    rw [all]
    refine subtreeTotal_filed initial.wellFormed fun sheet held => ?_
    obtain ⟨i, found, _⟩ := proper.leaf sheet held
    exact ⟨i, found, electoral.reached i (Table.lookup_some found).1⟩

end Winning

end VoteCounting.Server
