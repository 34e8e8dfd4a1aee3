import VoteCounting.Server.Gathering
import VoteCounting.Server.Ledger

namespace VoteCounting.Server

open Counters

def leafVotes (table : Table) (i : Nat) (name : CStr) : Int :=
  if table.children i = [] then total (table.node i).rootCounter name else 0

/-- A leaf below the region lists the candidate. -/
def LeafLists (table : Table) (region : Nat) (name : CStr) : Prop :=
  ∃ leaf, Below table.children region leaf ∧ table.children leaf = [] ∧
    name ∈ names (table.node leaf).rootCounter

/-- Each candidate of the leaves below, once and with the sum of its counts. -/
structure Summarises (modulus : Nat) (table : Table) (region : Nat)
    (entries : List Counter) : Prop where
  unique : (names entries).Nodup
  listed : ∀ name, name ∈ names entries ↔ LeafLists table region name
  counts : ∀ entry ∈ entries,
    entry.count = (subtreeTotal table (leafVotes table) region entry.name).bmod modulus

/-- A region below which every list is either absent or right. -/
structure Countable (modulus : Nat) (table : Table) (region : Nat) : Prop where
  leaf : ∀ i, Below table.children region i → table.children i = [] →
    (table.node i).hasdata = false → (table.node i).rootCounter = []
  counted : ∀ i, Below table.children region i → table.children i ≠ [] →
    (table.node i).hasdata = true → Summarises modulus table i (table.node i).rootCounter
  /-- An old list may remain only where it is about to be replaced. -/
  uncounted : ∀ i, Below table.children region i → table.children i ≠ [] →
    (table.node i).hasdata = false →
    (table.node i).rootCounter = [] ∨ ∃ name, LeafLists table i name

/-- A child hands over what its leaves hold. -/
structure Shares (modulus : Nat) (table : Table) (child : Nat) : Prop where
  totals : ∀ name, total (share modulus table child) name ≡
    subtreeTotal table (leafVotes table) child name [ZMOD modulus]
  listed : ∀ name, name ∈ names (share modulus table child) ↔ LeafLists table child name

section Aggregation

variable {modulus fuel : Nat} {table after : Table} {region child i : Nat} {name : CStr}
  {entries : List Counter} {parent : Node}

/-- The first count copied into a region without data replaces what the region had. -/
theorem foldl_copyCounter_uncounted (uncounted : parent.hasdata = false) (some : entries ≠ []) :
    entries.foldl (copyCounter modulus) parent =
      { parent with rootCounter := creditAll modulus [] entries, hasdata := true } := by
  cases entries with
  | nil => exact absurd rfl some
  | cons entry rest =>
      have first : copyCounter modulus parent entry =
          { parent with rootCounter := [entry], hasdata := true } := by
        rw [copyCounter, uncounted]
        rfl
      rw [List.foldl_cons, first, foldl_copyCounter_eq (by simp)]
      simp [credit]

theorem leafLists_leaf (leaf : table.children i = []) :
    LeafLists table i name ↔ name ∈ names (table.node i).rootCounter := by
  constructor
  · intro ⟨j, below, _, member⟩
    rcases Relation.ReflTransGen.cases_head below with rfl | ⟨child, held, _⟩
    · exact member
    · rw [leaf] at held
      cases held
  · exact fun member => ⟨i, .refl, leaf, member⟩

theorem leafLists_interior (interior : table.children i ≠ []) :
    LeafLists table i name ↔ ∃ child ∈ table.children i, LeafLists table child name := by
  constructor
  · intro ⟨j, below, leaf, member⟩
    rcases Relation.ReflTransGen.cases_head below with rfl | ⟨child, held, rest⟩
    · exact absurd leaf interior
    · exact ⟨child, held, j, rest, leaf, member⟩
  · intro ⟨child, held, j, rest, leaf, member⟩
    exact ⟨j, .head held rest, leaf, member⟩

theorem leafTotal_eq_zero (wellFormed : WellFormed table) (none : ¬ LeafLists table i name) :
    subtreeTotal table (leafVotes table) i name = 0 := by
  apply List.sum_eq_zero
  intro votes member
  obtain ⟨j, inside, rfl⟩ := List.mem_map.mp member
  rw [leafVotes]
  split
  · rename_i leaf
    exact total_of_absent fun listed => none ⟨j, wellFormed.mem_subtree_iff.mp inside, leaf, listed⟩
  · rfl

theorem leafTotal_leaf (wellFormed : WellFormed table) (leaf : table.children i = []) :
    subtreeTotal table (leafVotes table) i name = total (table.node i).rootCounter name := by
  rw [wellFormed.subtreeTotal_eq, leaf, leafVotes, if_pos leaf]
  simp

theorem leafTotal_interior (wellFormed : WellFormed table) (interior : table.children i ≠ []) :
    subtreeTotal table (leafVotes table) i name =
      ((table.children i).map fun child => subtreeTotal table (leafVotes table) child name).sum := by
  rw [wellFormed.subtreeTotal_eq, leafVotes, if_neg interior, zero_add]

theorem Summarises.total_modEq (summary : Summarises modulus table i entries)
    (wellFormed : WellFormed table) (name : CStr) :
    total entries name ≡ subtreeTotal table (leafVotes table) i name [ZMOD modulus] := by
  by_cases member : name ∈ names entries
  · obtain ⟨entry, held, rfl⟩ := List.mem_map.mp member
    rw [total_of_mem summary.unique held, summary.counts entry held]
    exact bmod_modEq _ _
  · rw [total_of_absent member,
      leafTotal_eq_zero wellFormed fun lists => member ((summary.listed name).mpr lists)]

theorem gathered_totals (wellFormed : WellFormed table) (interior : table.children i ≠ [])
    (shares : ∀ child ∈ table.children i, Shares modulus table child) (name : CStr) :
    total (gathered modulus table i) name ≡
      subtreeTotal table (leafVotes table) i name [ZMOD modulus] := by
  rw [gathered_eq wellFormed, total_flatMap, leafTotal_interior wellFormed interior]
  exact sum_modEq fun child held => (shares child held).totals name

theorem mem_names_gathered (wellFormed : WellFormed table) (interior : table.children i ≠ [])
    (shares : ∀ child ∈ table.children i, Shares modulus table child) :
    name ∈ names (gathered modulus table i) ↔ LeafLists table i name := by
  rw [gathered_eq wellFormed, mem_names_flatMap, leafLists_interior interior]
  exact exists_congr fun child => and_congr_right fun held => (shares child held).listed name

theorem refreshed_uncounted (wellFormed : WellFormed table) (interior : table.children i ≠ [])
    (shares : ∀ child ∈ table.children i, Shares modulus table child)
    (uncounted : (table.node i).hasdata = false)
    (stale : (table.node i).rootCounter = [] ∨ ∃ name, LeafLists table i name) :
    (refreshed modulus table i).rootCounter = creditAll modulus [] (gathered modulus table i) ∧
      ((refreshed modulus table i).hasdata = true ↔ ∃ name, LeafLists table i name) := by
  have lists : ∀ name, name ∈ names (gathered modulus table i) ↔ LeafLists table i name :=
    fun name => mem_names_gathered wellFormed interior shares
  by_cases nothing : gathered modulus table i = []
  · have none : ¬ ∃ name, LeafLists table i name := by
      intro ⟨name, listed⟩
      have member := (lists name).mpr listed
      rw [nothing] at member
      cases member
    rw [refreshed, nothing, List.foldl_nil, uncounted]
    exact ⟨stale.resolve_right none, by simp [none]⟩
  · rw [refreshed, foldl_copyCounter_uncounted uncounted nothing]
    refine ⟨rfl, fun _ => ?_, fun _ => rfl⟩
    by_contra none
    exact nothing (eq_nil_of_no_names fun name member => none ⟨name, (lists name).mp member⟩)

theorem Countable.shares (countable : Countable modulus table region) (wellFormed : WellFormed table)
    (below : Below table.children region i) : Shares modulus table i := by
  revert below
  refine wellFormed.forest.bottom_up
    (P := fun i => Below table.children region i → Shares modulus table i) (fun i ih below => ?_) i
  by_cases leaf : table.children i = []
  · have own : share modulus table i = (table.node i).rootCounter := by
      rw [share]
      split
      · rfl
      · rename_i uncounted
        rw [if_neg (not_not.mpr leaf), countable.leaf i below leaf (by simpa using uncounted)]
    refine ⟨fun name => ?_, fun name => ?_⟩
    · rw [own, leafTotal_leaf wellFormed leaf]
    · rw [own, leafLists_leaf leaf]
  · have children : ∀ child ∈ table.children i, Shares modulus table child :=
      fun child held => ih child held (below.tail held)
    cases counted : (table.node i).hasdata with
    | true =>
        have own : share modulus table i = (table.node i).rootCounter := by rw [share, if_pos counted]
        have summary := countable.counted i below leaf counted
        rw [← own] at summary
        exact ⟨summary.total_modEq wellFormed, summary.listed⟩
    | false =>
        have own : share modulus table i = creditAll modulus [] (gathered modulus table i) := by
          rw [share, counted, if_neg Bool.false_ne_true, if_pos leaf]
          exact (refreshed_uncounted wellFormed leaf children counted
            (countable.uncounted i below leaf counted)).1
        refine ⟨fun name => ?_, fun name => ?_⟩
        · rw [own]
          refine total_creditAll_modEq.trans ?_
          rw [total_nil, zero_add]
          exact gathered_totals wellFormed leaf children name
        · rw [own, mem_names_creditAll, names_nil, mem_names_gathered wellFormed leaf children]
          simp

end Aggregation

/-- The count of an interior region without data, from any state its lists can be read in. -/
theorem aggregate_summarises {modulus : Nat} {table : Table} {region : Nat}
    (wellFormed : WellFormed table) (fit : CountsFit modulus table)
    (countable : Countable modulus table region) (interior : table.children region ≠ [])
    (uncounted : (table.node region).hasdata = false) :
    ∃ after, aggregate modulus table.size table region = some after ∧
      Summarises modulus table region (after.node region).rootCounter ∧
      ((after.node region).hasdata = true ↔ ∃ leaf, Below table.children region leaf ∧
        table.children leaf = [] ∧ (table.node leaf).rootCounter ≠ []) ∧
      ∀ i, table.children i = [] → after.node i = table.node i := by
  have enough : Enough table.size table.size region := ⟨by omega, wellFormed.nonempty⟩
  obtain ⟨after, computed⟩ := aggregate_total modulus wellFormed.forest enough
  have shares : ∀ child ∈ table.children region, Shares modulus table child :=
    fun child held => countable.shares wellFormed (.single held)
  have own := (aggregate_gathered wellFormed computed).recounted region .refl
  obtain ⟨list, flag⟩ := refreshed_uncounted wellFormed interior shares uncounted
    (countable.uncounted region .refl interior uncounted)
  have kept : CountsFit modulus after :=
    aggregate_keeps (CountsFit modulus) (fun _ _ fit => fit.mergeChild) fit computed
  rw [← own] at list flag
  have unique : (names (after.node region).rootCounter).Nodup := by
    rw [list]
    exact nodup_creditAll List.nodup_nil
  refine ⟨after, computed, ⟨unique, fun name => ?_, fun entry held => ?_⟩, flag.trans ?_,
    fun i leaf => aggregate_leaf wellFormed computed leaf⟩
  · rw [list, mem_names_creditAll, mem_names_gathered wellFormed interior shares]
    simp
  · rw [← total_of_mem unique held]
    refine (fits_total unique (kept region)).eq_of_modEq (fits_bmod _ _) ?_
    rw [list]
    refine (total_creditAll_modEq.trans ?_).trans (bmod_modEq _ _).symm
    rw [total_nil, zero_add]
    exact gathered_totals wellFormed interior shares entry.name
  · constructor
    · intro ⟨name, leaf, below, noChild, member⟩
      refine ⟨leaf, below, noChild, fun empty => ?_⟩
      rw [empty] at member
      cases member
    · intro ⟨leaf, below, noChild, nonempty⟩
      obtain ⟨entry, rest, same⟩ := List.exists_cons_of_ne_nil nonempty
      exact ⟨entry.name, leaf, below, noChild, by simp [same]⟩

/-- A chain of three regions; the one in the middle may hold an old list, the last one votes. -/
def chainTable (old stored : List Counter) : Table :=
  ⟨[{ name := ['R'], children := [1] }, { name := ['A'], children := [2], rootCounter := old },
    { name := ['B'], rootCounter := stored, hasdata := !stored.isEmpty }]⟩

theorem chainTable_children {old stored : List Counter} {i c : Nat}
    (held : c ∈ (chainTable old stored).children i) : i < 2 ∧ c = i + 1 := by
  match i with
  | 0 => simpa [chainTable, Table.children, Table.node] using held
  | 1 => simpa [chainTable, Table.children, Table.node] using held
  | 2 => simp [chainTable, Table.children, Table.node] at held
  | i + 3 => simp [chainTable, Table.children, Table.node] at held

theorem chainTable_interior {old stored : List Counter} {i : Nat}
    (interior : (chainTable old stored).children i ≠ []) : i < 2 := by
  obtain ⟨c, rest, held⟩ := List.exists_cons_of_ne_nil interior
  exact (chainTable_children (c := c) (by rw [held]; simp)).1

theorem chainTable_wellFormed (old stored : List Counter) : WellFormed (chainTable old stored) := by
  refine ⟨by simp [chainTable, Table.size], ?_, ?_, ?_⟩
  · intro i c member
    have bounds := chainTable_children member
    have three : (chainTable old stored).size = 3 := rfl
    omega
  · intro i j c left right
    have first := chainTable_children left
    have second := chainTable_children right
    omega
  · intro i
    match i with
    | 0 => simp [chainTable, Table.children, Table.node]
    | 1 => simp [chainTable, Table.children, Table.node]
    | 2 => simp [chainTable, Table.children, Table.node]
    | i + 3 => simp [chainTable, Table.children, Table.node]

theorem chainTable_leaf {old stored : List Counter} {i : Nat}
    (leaf : (chainTable old stored).children i = [])
    (uncounted : ((chainTable old stored).node i).hasdata = false) :
    ((chainTable old stored).node i).rootCounter = [] := by
  match i with
  | 0 => cases leaf
  | 1 => cases leaf
  | 2 => simpa [chainTable, Table.node] using uncounted
  | i + 3 => rfl

theorem chainTable_uncounted {old stored : List Counter} {i : Nat} (inner : i < 2) :
    ((chainTable old stored).node i).hasdata = false := by
  match i with
  | 0 => rfl
  | 1 => rfl

theorem aggregate_summarises_sample :
    ∃ after, aggregate intModulus 3 (chainTable [⟨['Y'], 1⟩] [⟨['X'], 2⟩, ⟨['X'], 1⟩]) 0 = some after ∧
      Summarises intModulus (chainTable [⟨['Y'], 1⟩] [⟨['X'], 2⟩, ⟨['X'], 1⟩]) 0
        (after.node 0).rootCounter := by
  have fit : CountsFit intModulus (chainTable [⟨['Y'], 1⟩] [⟨['X'], 2⟩, ⟨['X'], 1⟩]) := by
    intro i entry member
    match i with
    | 0 => cases member
    | 1 =>
        obtain rfl := List.mem_singleton.mp member
        rfl
    | 2 =>
        rcases List.mem_cons.mp member with rfl | member
        · rfl
        · obtain rfl := List.mem_singleton.mp member
          rfl
    | i + 3 => cases member
  have countable : Countable intModulus (chainTable [⟨['Y'], 1⟩] [⟨['X'], 2⟩, ⟨['X'], 1⟩]) 0 := by
    refine ⟨fun i _ => chainTable_leaf, fun i _ interior counted => ?_, fun i _ interior _ => ?_⟩
    · rw [chainTable_uncounted (chainTable_interior interior)] at counted
      cases counted
    · match i, chainTable_interior interior with
      | 0, _ => exact .inl rfl
      | 1, _ => exact .inr ⟨['X'], 2, .single (by decide), rfl, by decide⟩
  obtain ⟨after, computed, summary, _⟩ :=
    aggregate_summarises (chainTable_wellFormed _ _) fit countable (by decide) rfl
  exact ⟨after, computed, summary⟩

/-- An old list in the middle is handed up where no leaf has votes. -/
theorem aggregate_not_summarises : ∃ (table after : Table) (region : Nat), WellFormed table ∧
    (∀ i, table.children i = [] → (table.node i).hasdata = false → (table.node i).rootCounter = []) ∧
    table.children region ≠ [] ∧ (table.node region).hasdata = false ∧
    (table.node region).rootCounter = [] ∧
    (∀ i, Below table.children region i → table.children i ≠ [] → (table.node i).hasdata = true →
      Summarises intModulus table i (table.node i).rootCounter) ∧
    aggregate intModulus table.size table region = some after ∧
    ¬ Summarises intModulus table region (after.node region).rootCounter := by
  refine ⟨chainTable [⟨['X'], 1⟩] [], _, 0, chainTable_wellFormed _ _, fun i => chainTable_leaf,
    by decide, rfl, rfl, fun i _ interior counted => ?_, rfl, fun summary => ?_⟩
  · rw [chainTable_uncounted (chainTable_interior interior)] at counted
    cases counted
  · obtain ⟨leaf, _, noChild, member⟩ := (summary.listed ['X']).mp (by decide)
    match leaf with
    | 0 => cases noChild
    | 1 => cases noChild
    | 2 => cases member
    | leaf + 3 => cases member

end VoteCounting.Server
