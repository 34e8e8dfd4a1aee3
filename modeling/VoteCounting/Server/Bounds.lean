import VoteCounting.Server.Counting
import VoteCounting.Server.Range

namespace VoteCounting.Server

open Counters CString

/-- The nearest regions with data below a region, down to a bounded depth. -/
def sources (table : Table) : Nat → Nat → List Nat
  | 0, _ => []
  | fuel + 1, region =>
      (table.children region).flatMap fun child =>
        if (table.node child).hasdata then [child] else sources table fuel child

/-- The votes those regions list for a candidate. -/
def tally (table : Table) (region : Nat) (name : CStr) : Int :=
  ((sources table table.size region).map fun i => total (table.node i).rootCounter name).sum

/-- The request makes the server run `aggregate` on the region. -/
def Aggregates (table : Table) (str : CStr) (region : Nat) : Prop :=
  (command (trimlastenter str) = .countVotes ∧ table.Names (argvpOf str) 1 region ∧
      (table.node region).hasdata = false) ∨
    (command (trimlastenter str) = .returnWinner ∧ region = 0 ∧ settled (table.node 0) = true ∧
      ∀ i < table.size, table.children i = [] → settled (table.node i) = true)

/-- A request whose additions, removals and sums stay in range. -/
structure RangeSafe (table : Table) (str : CStr) : Prop where
  adds : ∀ region votes, Serves table str region votes → command (trimlastenter str) = .addVotes →
    RoomToAdd (table.node region).rootCounter votes
  removes : ∀ region votes, Serves table str region votes → command (trimlastenter str) = .removeVotes →
    RoomToRemove (table.node region).rootCounter votes
  sums : ∀ region, Aggregates table str region → ∀ name,
    (firstCount (table.node region).rootCounter name).getD 0 + tally table region name < 2 ^ 31

def TableInRange (table : Table) : Prop := ∀ i, ListInRange (table.node i).rootCounter

/-- A region without data has no list. -/
def UncountedEmpty (table : Table) : Prop :=
  ∀ i, (table.node i).hasdata = false → (table.node i).rootCounter = []

section Sums

variable {modulus fuel more : Nat} {table after : Table} {region child i : Nat} {name : CStr}
  {entries amounts : List Counter} {amount : Int}

theorem credit_exact (room : Fits modulus ((firstCount entries name).getD 0 + amount)) :
    credit modulus entries name amount = credit 0 entries name amount := by
  induction entries with
  | nil => rfl
  | cons entry rest ih =>
      rw [credit, credit]
      rw [firstCount] at room
      split
      · rename_i same
        rw [if_pos same, Option.getD_some] at room
        have kept : (entry.count + amount).bmod modulus = entry.count + amount := room
        rw [kept, Int.bmod_zero]
      · rename_i different
        rw [if_neg different] at room
        rw [ih room]

theorem credit_inRange (fit : ListInRange entries)
    (room : InRange ((firstCount entries name).getD 0 + amount)) :
    ListInRange (credit 0 entries name amount) := by
  induction entries with
  | nil => simpa [credit, ListInRange, firstCount] using room
  | cons entry rest ih =>
      obtain ⟨inside, restFit⟩ := (listInRange_cons entry).mp fit
      rw [credit]
      rw [firstCount] at room
      split
      · rename_i same
        rw [if_pos same, Option.getD_some] at room
        rw [listInRange_cons, Int.bmod_zero]
        exact ⟨room, restFit⟩
      · rename_i different
        rw [if_neg different] at room
        exact (listInRange_cons entry).mpr ⟨inside, ih restFit room⟩

theorem ListInRange.firstCount_nonneg (fit : ListInRange entries) :
    0 ≤ (firstCount entries name).getD 0 := by
  cases found : firstCount entries name with
  | none => exact Int.le_refl 0
  | some count =>
      obtain ⟨entry, member, rfl⟩ := mem_of_firstCount found
      exact (fit entry member).1

theorem ListInRange.total_nonneg (fit : ListInRange entries) : 0 ≤ total entries name :=
  Server.total_nonneg fun entry member => (fit entry member).1

/-- Counts copied into a list stay in range where each candidate's sum does, and are exact. -/
theorem creditAll_inRange (fit : ListInRange entries) (amountsFit : ListInRange amounts)
    (room : ∀ name, (firstCount entries name).getD 0 + total amounts name < 2 ^ 31) :
    ListInRange (creditAll intModulus entries amounts) ∧
      ∀ name, total (creditAll intModulus entries amounts) name =
        total entries name + total amounts name := by
  induction amounts generalizing entries with
  | nil => exact ⟨fit, by simp⟩
  | cons entry rest ih =>
      obtain ⟨inside, restFit⟩ := (listInRange_cons entry).mp amountsFit
      have sum : InRange ((firstCount entries entry.name).getD 0 + entry.count) := by
        have held : 0 ≤ (firstCount entries entry.name).getD 0 := fit.firstCount_nonneg
        have later : 0 ≤ total rest entry.name := restFit.total_nonneg
        have bound := room entry.name
        have least := inside.1
        rw [total_cons, if_pos rfl] at bound
        exact ⟨by omega, by omega⟩
      have credited := credit_inRange fit sum
      have totals : ∀ other, total (credit 0 entries entry.name entry.count) other =
          total entries other + if entry.name = other then entry.count else 0 := by
        intro other
        have exact : total (credit 0 entries entry.name entry.count) other ≡ total entries other +
            (if entry.name = other then entry.count else 0) [ZMOD (0 : Nat)] := total_credit_modEq
        exact Int.modEq_zero_iff.mp exact
      rw [creditAll_cons, credit_exact (fits_of_inRange sum)]
      obtain ⟨range, exact⟩ := ih credited restFit fun other => by
        have bound := room other
        rw [total_cons] at bound
        rw [firstCount_credit]
        split
        · rename_i same
          subst same
          rw [if_pos rfl] at bound
          cases found : firstCount entries entry.name with
          | none =>
              rw [found] at bound
              simpa [← add_assoc] using bound
          | some count =>
              rw [found] at bound
              simpa [← add_assoc] using bound
        · rename_i different
          rwa [if_neg different, zero_add] at bound
      refine ⟨range, fun other => ?_⟩
      rw [exact, totals, total_cons, add_assoc]

theorem sources_fuel (forest : Forest table.size table.children)
    (enough : Enough table.size fuel region) (enoughMore : Enough table.size more region) :
    sources table fuel region = sources table more region := by
  apply forest.fuel_eq _ enough enoughMore
  intro fuel more region same
  rw [sources, sources]
  apply List.flatMap_congr
  intro child member
  rw [same child member]

/-- What a child adds to the tally of its parent. -/
def handed (table : Table) (child : Nat) (name : CStr) : Int :=
  if (table.node child).hasdata then total (table.node child).rootCounter name
  else tally table child name

theorem tally_eq (wellFormed : WellFormed table) :
    tally table region name =
      ((table.children region).map fun child => handed table child name).sum := by
  have nonempty := wellFormed.nonempty
  have deep : Enough table.size (table.size + 1) region := ⟨by omega, by omega⟩
  rw [tally, sources_fuel wellFormed.forest ⟨by omega, nonempty⟩ deep, sources]
  generalize table.children region = children
  induction children with
  | nil => rfl
  | cons child rest ih =>
      rw [List.flatMap_cons, List.map_append, List.sum_append, ih, List.map_cons, List.sum_cons, handed]
      congr 1
      split
      · simp
      · rfl

theorem tally_nonneg (range : TableInRange table) : 0 ≤ tally table region name := by
  apply List.sum_nonneg
  intro votes member
  obtain ⟨i, _, rfl⟩ := List.mem_map.mp member
  exact (range i).total_nonneg

theorem handed_nonneg (range : TableInRange table) : 0 ≤ handed table child name := by
  rw [handed]
  split
  · exact (range child).total_nonneg
  · exact tally_nonneg range

theorem tally_child_le (wellFormed : WellFormed table) (range : TableInRange table)
    (held : child ∈ table.children region) (uncounted : (table.node child).hasdata = false) :
    tally table child name ≤ tally table region name := by
  have share : tally table child name = handed table child name := by
    rw [handed, uncounted, if_neg Bool.false_ne_true]
  rw [share, tally_eq wellFormed]
  apply List.single_le_sum
  · intro votes member
    obtain ⟨other, _, rfl⟩ := List.mem_map.mp member
    exact handed_nonneg range
  · exact List.mem_map_of_mem held

theorem tally_mono (wellFormed : WellFormed table) (range : TableInRange table)
    (path : Recounted table region i) : tally table i name ≤ tally table region name := by
  induction path with
  | refl => exact Int.le_refl _
  | tail _ step ih => exact Int.le_trans (tally_child_le wellFormed range step.1 step.2.1) ih

theorem share_eq (empty : UncountedEmpty table) : share modulus table child =
    if (table.node child).hasdata then (table.node child).rootCounter
    else (refreshed modulus table child).rootCounter := by
  rw [share]
  split
  · rfl
  · rename_i uncounted
    split
    · rfl
    · rename_i leaf
      rw [refreshed_leaf (not_not.mp leaf), empty child (by simpa using uncounted)]

theorem refreshed_eq (empty : UncountedEmpty table) : refreshed modulus table i =
    { table.node i with
      rootCounter := creditAll modulus (table.node i).rootCounter (gathered modulus table i)
      hasdata := (table.node i).hasdata || !(gathered modulus table i).isEmpty } := by
  rw [refreshed, foldl_copyCounter_eq (empty i)]

theorem gathered_inRange (wellFormed : WellFormed table) (range : TableInRange table)
    (children : ∀ child ∈ table.children i, (table.node child).hasdata = false →
      ListInRange (refreshed intModulus table child).rootCounter ∧
        ∀ name, total (refreshed intModulus table child).rootCounter name = tally table child name)
    (empty : UncountedEmpty table) : ListInRange (gathered intModulus table i) ∧
      ∀ name, total (gathered intModulus table i) name = tally table i name := by
  rw [gathered_eq wellFormed]
  constructor
  · intro entry member
    obtain ⟨child, held, inside⟩ := List.mem_flatMap.mp member
    rw [share_eq empty] at inside
    split at inside
    · exact range child entry inside
    · rename_i uncounted
      exact (children child held (by simpa using uncounted)).1 entry inside
  · intro name
    rw [total_flatMap, tally_eq wellFormed]
    congr 1
    apply List.map_congr_left
    intro child held
    rw [share_eq empty, handed]
    split
    · rfl
    · rename_i uncounted
      exact (children child held (by simpa using uncounted)).2 name

theorem refreshed_inRange (wellFormed : WellFormed table) (range : TableInRange table)
    (empty : UncountedEmpty table) (i : Nat) (room : ∀ name, tally table i name < 2 ^ 31)
    (uncounted : (table.node i).hasdata = false) :
    ListInRange (refreshed intModulus table i).rootCounter ∧
      ∀ name, total (refreshed intModulus table i).rootCounter name = tally table i name := by
  revert room uncounted
  refine wellFormed.forest.bottom_up (P := fun i => (∀ name, tally table i name < 2 ^ 31) →
    (table.node i).hasdata = false → ListInRange (refreshed intModulus table i).rootCounter ∧
      ∀ name, total (refreshed intModulus table i).rootCounter name = tally table i name)
    (fun i ih room uncounted => ?_) i
  obtain ⟨inside, totals⟩ := gathered_inRange wellFormed range (fun child held childUncounted =>
    ih child held (fun name => Int.lt_of_le_of_lt
      (tally_child_le wellFormed range held childUncounted) (room name)) childUncounted) empty
  rw [refreshed_eq empty, empty i uncounted]
  have nothing : ListInRange [] := by simp [ListInRange]
  obtain ⟨kept, exact⟩ := creditAll_inRange nothing inside fun name => by
    rw [totals]
    simpa [firstCount] using room name
  exact ⟨kept, fun name => by rw [exact, totals, total_nil, zero_add]⟩

theorem UncountedEmpty.refreshed (empty : UncountedEmpty table)
    (uncounted : (refreshed modulus table i).hasdata = false) :
    (refreshed modulus table i).rootCounter = [] := by
  rw [refreshed_eq empty] at uncounted ⊢
  simp only [Bool.or_eq_false_iff, Bool.not_eq_false', List.isEmpty_iff] at uncounted
  obtain ⟨before, nothing⟩ := uncounted
  simp only [nothing, empty i before, creditAll_nil]

theorem UncountedEmpty.aggregate (empty : UncountedEmpty table) (wellFormed : WellFormed table)
    (computed : Server.aggregate modulus fuel table region = some after) : UncountedEmpty after := by
  have all := aggregate_gathered wellFormed computed
  intro i uncounted
  by_cases path : Recounted table region i
  · rw [all.recounted i path] at uncounted ⊢
    exact empty.refreshed uncounted
  · rw [all.kept i path] at uncounted ⊢
    exact empty i uncounted

theorem TableInRange.aggregate (range : TableInRange table) (empty : UncountedEmpty table)
    (wellFormed : WellFormed table)
    (room : ∀ name, (firstCount (table.node region).rootCounter name).getD 0 +
      tally table region name < 2 ^ 31)
    (computed : Server.aggregate intModulus fuel table region = some after) : TableInRange after := by
  have all := aggregate_gathered wellFormed computed
  have bound : ∀ name, tally table region name < 2 ^ 31 := by
    intro name
    have least : 0 ≤ (firstCount (table.node region).rootCounter name).getD 0 :=
      (range region).firstCount_nonneg
    have sum := room name
    omega
  intro i
  by_cases path : Recounted table region i
  · rw [all.recounted i path]
    rcases Relation.ReflTransGen.cases_tail path with rfl | ⟨_, _, step⟩
    · obtain ⟨inside, totals⟩ := gathered_inRange wellFormed range (fun child held uncounted =>
        refreshed_inRange wellFormed range empty child (fun name => Int.lt_of_le_of_lt
          (tally_child_le wellFormed range held uncounted) (bound name)) uncounted) empty
      rw [refreshed_eq empty]
      exact (creditAll_inRange (range _) inside fun name => by rw [totals]; exact room name).1
    · exact (refreshed_inRange wellFormed range empty i (fun name => Int.lt_of_le_of_lt
        (tally_mono wellFormed range path) (bound name)) step.2.1).1
  · rw [all.kept i path]
    exact range i

end Sums

/-- What every reachable table of a safe run satisfies. -/
structure Bounded (table : Table) : Prop where
  wellFormed : WellFormed table
  range : TableInRange table
  empty : UncountedEmpty table

section Steps

variable {table after : Table} {str : CStr} {answer : List Response} {region : Nat}
  {entries : List Counter}

theorem TableInRange.modify {change : Node → Node} (range : TableInRange table)
    (changed : ListInRange (change (table.node region)).rootCounter) :
    TableInRange (table.modify region change) :=
  Table.forall_node_modify (P := fun node => ListInRange node.rootCounter) range changed

theorem UncountedEmpty.modify {change : Node → Node} (empty : UncountedEmpty table)
    (changed : (change (table.node region)).hasdata = false →
      (change (table.node region)).rootCounter = []) : UncountedEmpty (table.modify region change) :=
  Table.forall_node_modify (P := fun node => node.hasdata = false → node.rootCounter = [])
    empty changed

theorem removeAll_of_nil {modulus : Nat} {votes : List Counter} :
    (removeAll modulus votes []).1 = [] := by
  have none : names (removeAll modulus votes []).1 = [] := names_removeAll
  exact List.map_eq_nil_iff.mp none

theorem Bounded.range_step (bounded : Bounded table) (safe : RangeSafe table str)
    (answered : dispatchCode intModulus table str = .ok (answer, after)) : TableInRange after := by
  cases dispatchCode_step bounded.wellFormed.nonempty answered with
  | refused | votesRead => exact bounded.range
  | polls _ _ _ _ visited =>
      intro i
      rw [((visitPolls_visited visited).node i).rootCounter]
      exact bounded.range i
  | @votesAdded input target cursor selected named present voting added =>
      obtain ⟨votes, parsed, rfl⟩ := addTokens_ok added
      have room :=
        safe.adds target votes ⟨input, named, present, voting, parsed, .inl selected⟩ selected
      exact bounded.range.modify
        ((addAll_inRange_iff (bounded.range target) (fits_parseVotes parsed)).mpr
        ⟨by simp [ListInRange], room⟩)
  | @votesRemoved input target entries stopped selected named present voting checked removed =>
      obtain ⟨votes, parsed, covered, result⟩ := removal_of_checked checked removed
      obtain rfl := congrArg Prod.fst result
      have inList : ∀ vote ∈ votes, vote.name ∈ names (table.node target).rootCounter :=
        fun vote member => (covered vote member).mem_names
      have room := safe.removes target votes
        ⟨input, named, present, voting, parsed, .inr ⟨selected, covered⟩⟩ selected
      exact bounded.range.modify (removeAll_inRange (bounded.range target) inList room)
  | @regionAdded parent childname =>
      intro i
      by_cases new : i = table.size
      · rw [new, addChild_node_new]
        simp [create, ListInRange]
      · rw [addChild_proj Node.rootCounter (fun _ _ => rfl) new]
        exact bounded.range i
  | votesCounted selected named uncounted counted =>
      exact bounded.range.aggregate bounded.empty bounded.wellFormed
        (safe.sums _ (.inl ⟨selected, named, uncounted⟩)) counted
  | won selected root leaves counted =>
      exact bounded.range.aggregate bounded.empty bounded.wellFormed
        (safe.sums 0 (.inr ⟨selected, rfl, root, leaves⟩)) counted

theorem Bounded.empty_step (bounded : Bounded table)
    (answered : dispatchCode intModulus table str = .ok (answer, after)) : UncountedEmpty after := by
  cases dispatchCode_step bounded.wellFormed.nonempty answered with
  | refused | votesRead => exact bounded.empty
  | polls _ _ _ _ visited =>
      intro i uncounted
      have kept := (visitPolls_visited visited).node i
      rw [kept.rootCounter]
      exact bounded.empty i (kept.hasdata ▸ uncounted)
  | votesAdded => exact bounded.empty.modify fun flag => by cases flag
  | @votesRemoved input target entries stopped _ _ _ _ checked removed =>
      obtain ⟨votes, parsed, covered, result⟩ := removal_of_checked checked removed
      obtain rfl := congrArg Prod.fst result
      refine bounded.empty.modify fun uncounted => ?_
      rw [bounded.empty target uncounted]
      exact removeAll_of_nil
  | @regionAdded parent childname =>
      intro i uncounted
      by_cases new : i = table.size
      · rw [new, addChild_node_new]
        rfl
      · rw [addChild_proj Node.hasdata (fun _ _ => rfl) new] at uncounted
        rw [addChild_proj Node.rootCounter (fun _ _ => rfl) new]
        exact bounded.empty i uncounted
  | votesCounted _ _ _ counted => exact bounded.empty.aggregate bounded.wellFormed counted
  | won _ _ _ counted => exact bounded.empty.aggregate bounded.wellFormed counted

theorem Bounded.step (bounded : Bounded table) (safe : RangeSafe table str)
    (answered : dispatchCode intModulus table str = .ok (answer, after)) : Bounded after :=
  ⟨bounded.wellFormed.step answered, bounded.range_step safe answered, bounded.empty_step answered⟩

end Steps

/-- Runs whose requests are safe keep every count in range. -/
theorem counters_in_range (file : CStr) {table : Table} {history : List Answered}
    (served : Served intModulus file history table) (safe : Along (fun _ => RangeSafe) history) :
    TableInRange table := by
  obtain ⟨start, created, run⟩ := served
  have initial := createDAG_initial created
  have reached : Bounded table := by
    refine Run.invariant (fun _ table => Bounded table)
      ⟨initial.wellFormed, fun i => ?_, fun i _ => (initial.untouched i).rootCounter⟩ ?_ run safe
    · rw [(initial.untouched i).rootCounter]
      simp [ListInRange]
    · exact fun _ bounded safe answered => bounded.step safe answered
  exact reached.range

theorem counters_in_range_sample : TableInRange (votedTable true [⟨['X'], 3⟩] [⟨['X'], 3⟩]) := by
  have run : Run (dispatchCode intModulus) (votedTable false [] [])
      [⟨votedTable false [] [], "OP;R".toList, [.success]⟩,
        ⟨votedTable true [] [], "AV;A;X:3".toList, [.success]⟩,
        ⟨votedTable true [] [⟨['X'], 3⟩], "CV;R".toList, [.votes [⟨['X'], 3⟩]]⟩]
      (votedTable true [⟨['X'], 3⟩] [⟨['X'], 3⟩]) :=
    Run.of_execute (["OP;R", "AV;A;X:3", "CV;R"].map String.toList) (by rfl)
  have opened : RangeSafe (votedTable false [] []) "OP;R".toList := by
    refine ⟨fun _ _ _ adds => (nomatch adds), fun _ _ _ removes => (nomatch removes), fun _ sums => ?_⟩
    rcases sums with ⟨counts, _⟩ | ⟨wins, _⟩
    · cases counts
    · cases wins
  have voted : RangeSafe (votedTable true [] []) "AV;A;X:3".toList := by
    refine ⟨fun region votes serves _ => ?_, fun _ _ _ removes => (nomatch removes), fun _ sums => ?_⟩
    · obtain ⟨input, ⟨field, named, found⟩, present, _, parsed, _⟩ := serves
      cases named
      cases found
      cases present
      cases parsed
      exact ⟨⟨by decide, by decide⟩, trivial⟩
    · rcases sums with ⟨counts, _⟩ | ⟨wins, _⟩
      · cases counts
      · cases wins
  have counted : RangeSafe (votedTable true [] [⟨['X'], 3⟩]) "CV;R".toList := by
    refine ⟨fun _ _ _ adds => (nomatch adds), fun _ _ _ removes => (nomatch removes),
      fun _ sums name => ?_⟩
    rcases sums with ⟨_, ⟨field, named, found⟩, _⟩ | ⟨wins, _⟩
    · cases named
      cases found
      have votes : tally (votedTable true [] [⟨['X'], 3⟩]) 0 name = if ['X'] = name then 3 else 0 := by
        simp [tally, sources, votedTable, Table.children, Table.node, Table.size]
      have empty : ((votedTable true [] [⟨['X'], 3⟩]).node 0).rootCounter = [] := rfl
      rw [votes, empty, firstCount]
      split <;> decide
    · cases wins
  exact counters_in_range "R:A".toList ⟨votedTable false [] [], by decide, run⟩
    (Run.along_cons.mpr
      ⟨opened, Run.along_cons.mpr ⟨voted, Run.along_cons.mpr ⟨counted, Run.along_nil⟩⟩⟩)

/-- A negative amount is booked as it stands. -/
theorem counters_not_in_range : ∃ (file : CStr) (history : List Answered) (table : Table),
    Served intModulus file history table ∧ ¬ TableInRange table := by
  refine ⟨"R:A".toList, [⟨votedTable false [] [], "OP;R".toList, [.success]⟩,
      ⟨votedTable true [] [], "AV;A;X:-5".toList, [.success]⟩],
    votedTable true [] [⟨['X'], -5⟩], ⟨votedTable false [] [], by decide, ?_⟩, fun range => ?_⟩
  · exact Run.of_execute (["OP;R", "AV;A;X:-5"].map String.toList) (by rfl)
  · have low := (range 1 ⟨['X'], -5⟩ (by decide)).1
    exact absurd low (by decide)

end VoteCounting.Server
