import VoteCounting.Server.Counts

namespace VoteCounting.Server

open Counters

/-- `aggregate` goes on into a child without data that has children itself. -/
def Reaches (table : Table) (region child : Nat) : Prop :=
  child ∈ table.children region ∧ (table.node child).hasdata = false ∧ table.children child ≠ []

/-- The regions one call of `aggregate` writes. -/
def Recounted (table : Table) : Nat → Nat → Prop :=
  Relation.ReflTransGen (Reaches table)

/-- The counts copied into a region, in order, down to a bounded depth. -/
def gatheredFrom (modulus : Nat) (table : Table) : Nat → Nat → List Counter
  | 0, _ => []
  | fuel + 1, region =>
      (table.children region).flatMap fun child =>
        if (table.node child).hasdata then (table.node child).rootCounter
        else if table.children child ≠ [] then
          ((gatheredFrom modulus table fuel child).foldl (copyCounter modulus)
            (table.node child)).rootCounter
        else []

def gathered (modulus : Nat) (table : Table) (region : Nat) : List Counter :=
  gatheredFrom modulus table table.size region

/-- A region after its counts were copied. -/
def refreshed (modulus : Nat) (table : Table) (region : Nat) : Node :=
  (gathered modulus table region).foldl (copyCounter modulus) (table.node region)

/-- What a child hands to its parent. -/
def share (modulus : Nat) (table : Table) (child : Nat) : List Counter :=
  if (table.node child).hasdata then (table.node child).rootCounter
  else if table.children child ≠ [] then (refreshed modulus table child).rootCounter
  else []

/-- What a call of `aggregate` leaves behind. -/
structure Gathered (modulus : Nat) (table : Table) (region : Nat) (after : Table) : Prop where
  recounted : ∀ i, Recounted table region i → after.node i = refreshed modulus table i
  kept : ∀ i, ¬ Recounted table region i → after.node i = table.node i

/-- The state between two rounds of the loop of `aggregate`. -/
structure Gathering (modulus : Nat) (table : Table) (region : Nat) (done : List Nat)
    (current : Table) : Prop where
  frame : CountersOnly table current
  merged : current.node region =
    (done.flatMap (share modulus table)).foldl (copyCounter modulus) (table.node region)
  recounted : ∀ child ∈ done, Reaches table region child → ∀ i, Recounted table child i →
    current.node i = refreshed modulus table i
  kept : ∀ i, i ≠ region → (∀ child ∈ done, Reaches table region child → ¬ Recounted table child i) →
    current.node i = table.node i

section Gathering

variable {modulus fuel more : Nat} {table other current after : Table} {region child i : Nat}
  {done : List Nat}

theorem Recounted.below (path : Recounted table region i) : Below table.children region i :=
  Relation.ReflTransGen.mono (fun _ _ step => step.1) _ _ path

theorem Recounted.congr (same : ∀ j, Below table.children region j → other.node j = table.node j)
    (path : Recounted table region i) : Recounted other region i := by
  induction path with
  | refl => exact .refl
  | @tail a b path step ih =>
      have above : Below table.children region a := Recounted.below path
      have held : other.children a = table.children a := by
        rw [Table.children, same a above]
        rfl
      have target := same b (above.tail step.1)
      have below : other.children b = table.children b := by
        rw [Table.children, target]
        rfl
      refine ih.tail ⟨?_, ?_, ?_⟩
      · rw [held]
        exact step.1
      · rw [target]
        exact step.2.1
      · rw [below]
        exact step.2.2

theorem gatheredFrom_congr (same : ∀ j, Below table.children region j → other.node j = table.node j) :
    gatheredFrom modulus other fuel region = gatheredFrom modulus table fuel region := by
  induction fuel generalizing region with
  | zero => rfl
  | succ fuel ih =>
      have held : other.children region = table.children region := by
        rw [Table.children, same region .refl]
        rfl
      rw [gatheredFrom, gatheredFrom, held]
      apply List.flatMap_congr
      intro child member
      have path : Below table.children region child := .single member
      have below : other.children child = table.children child := by
        rw [Table.children, same child path]
        rfl
      have inner := ih fun j under => same j (Relation.ReflTransGen.head member under)
      rw [same child path, below, inner]

theorem refreshed_congr (size : other.size = table.size)
    (same : ∀ j, Below table.children region j → other.node j = table.node j) :
    refreshed modulus other region = refreshed modulus table region := by
  rw [refreshed, refreshed, gathered, gathered, size, gatheredFrom_congr same, same region .refl]

/-- More fuel gathers nothing more once the leaves are reached. -/
theorem gatheredFrom_fuel (forest : Forest table.size table.children)
    (enough : Enough table.size fuel region) (enoughMore : Enough table.size more region) :
    gatheredFrom modulus table fuel region = gatheredFrom modulus table more region := by
  apply forest.fuel_eq _ enough enoughMore
  intro fuel more region same
  rw [gatheredFrom, gatheredFrom]
  apply List.flatMap_congr
  intro child member
  rw [same child member]

theorem gathered_eq (wellFormed : WellFormed table) :
    gathered modulus table region = (table.children region).flatMap (share modulus table) := by
  have nonempty := wellFormed.nonempty
  have deep : Enough table.size (table.size + 1) region := ⟨by omega, by omega⟩
  rw [gathered, gatheredFrom_fuel wellFormed.forest ⟨by omega, nonempty⟩ deep]
  rfl

theorem refreshed_leaf (leaf : table.children region = []) :
    refreshed modulus table region = table.node region := by
  have nothing : gathered modulus table region = [] := by
    rw [gathered]
    cases table.size with
    | zero => rfl
    | succ fuel => rw [gatheredFrom, leaf]; rfl
  rw [refreshed, nothing]
  rfl

theorem Gathering.nil : Gathering modulus table region [] table where
  frame := .refl table
  merged := rfl
  recounted := by simp
  kept _ _ _ := rfl

theorem Gathering.untouched (wellFormed : WellFormed table)
    (sofar : Gathering modulus table region done current)
    (earlier : ∀ c ∈ done, c ∈ table.children region) (held : child ∈ table.children region)
    (fresh : child ∉ done) (under : Below table.children child i) : current.node i = table.node i := by
  apply sofar.kept
  · intro same
    exact wellFormed.forest.not_below_parent held (same ▸ under)
  · intro c member _ path
    have same := wellFormed.forest.siblings_apart (earlier c member) held path.below under
    exact fresh (same ▸ member)

theorem Gathering.merge (wellFormed : WellFormed table)
    (sofar : Gathering modulus table region done current)
    (held : child ∈ table.children region) {counted : Table} (frame : CountersOnly current counted)
    (kept : ∀ i, ¬ (Reaches table region child ∧ Recounted table child i) →
      counted.node i = current.node i)
    (inner : Reaches table region child → ∀ i, Recounted table child i →
      counted.node i = refreshed modulus table i)
    (handed : (counted.node child).rootCounter = share modulus table child) :
    Gathering modulus table region (done ++ [child]) (mergeChild modulus counted region child) := by
  have inside : region < counted.size := by
    rw [frame.size, sofar.frame.size]
    have bounds := wellFormed.forest.later held
    omega
  have others : ∀ i, i ≠ region →
      (mergeChild modulus counted region child).node i = counted.node i := fun i other =>
    Table.node_modify_of_ne (Ne.symm other)
  have beyond : ∀ c, c ∈ table.children region → ∀ i, Recounted table c i → i ≠ region := by
    intro c member i path same
    exact wellFormed.forest.not_below_parent member (same ▸ path.below)
  refine ⟨(sofar.frame.trans frame).trans mergeChild_frame, ?_, ?_, ?_⟩
  · have own : counted.node region = current.node region :=
      kept region fun both => beyond child held region both.2 rfl
    rw [mergeChild, Table.node_modify_self inside, handed, own, sofar.merged]
    simp [List.foldl_append]
  · intro c member step i path
    rw [others i (beyond c step.1 i path)]
    by_cases again : Reaches table region child ∧ Recounted table child i
    · exact inner again.1 i again.2
    · rw [kept i again]
      rcases List.mem_append.mp member with before | last
      · exact sofar.recounted c before step i path
      · obtain rfl := List.mem_singleton.mp last
        exact absurd ⟨step, path⟩ again
  · intro i other apart
    rw [others i other, kept i fun both => apart child (by simp) both.1 both.2]
    exact sofar.kept i other fun c member => apart c (by simp [member])

theorem Gathering.round (wellFormed : WellFormed table)
    (sofar : Gathering modulus table region done current)
    (earlier : ∀ c ∈ done, c ∈ table.children region) (held : child ∈ table.children region)
    (fresh : child ∉ done)
    (inner : ∀ counted, aggregate modulus fuel current child = some counted →
      Gathered modulus current child counted)
    (ran : aggregateChild modulus fuel region current child = some after) :
    Gathering modulus table region (done ++ [child]) after := by
  have untouched : ∀ j, Below table.children child j → current.node j = table.node j :=
    fun j under => sofar.untouched wellFormed earlier held fresh under
  have own := untouched child .refl
  have children : current.children = table.children := sofar.frame.children_eq
  rw [aggregateChild, own, children] at ran
  split at ran
  · rename_i counted
    cases ran
    refine sofar.merge wellFormed held (.refl current) (fun _ _ => rfl) (fun step => ?_) ?_
    · have flag := step.2.1
      rw [counted] at flag
      cases flag
    · rw [share, if_pos counted, own]
  · rename_i uncounted
    split at ran
    · rename_i interior
      obtain ⟨counted, computed, rfl⟩ := Option.map_eq_some_iff.mp ran
      have all := inner counted computed
      have back : ∀ j, Below current.children child j → table.node j = current.node j := by
        rw [children]
        exact fun j under => (untouched j under).symm
      have refresh : ∀ i, Recounted table child i → counted.node i = refreshed modulus table i := by
        intro i path
        rw [all.recounted i (path.congr untouched)]
        exact refreshed_congr sofar.frame.size fun j under =>
          untouched j (Relation.ReflTransGen.trans path.below under)
      refine sofar.merge wellFormed held (aggregate_frame computed) (fun i apart => ?_)
        (fun _ => refresh) ?_
      · apply all.kept
        intro path
        exact apart ⟨⟨held, by simpa using uncounted, interior⟩, path.congr back⟩
      · rw [refresh child .refl, share, if_neg uncounted, if_pos interior]
    · rename_i leaf
      cases ran
      have nothing : share modulus table child = [] := by
        rw [share, if_neg uncounted, if_neg leaf]
      refine ⟨sofar.frame, ?_, ?_, ?_⟩
      · rw [sofar.merged]
        simp [nothing]
      · intro c member step
        rcases List.mem_append.mp member with before | last
        · exact sofar.recounted c before step
        · obtain rfl := List.mem_singleton.mp last
          exact absurd step.2.2 leaf
      · exact fun i other apart => sofar.kept i other fun c member => apart c (by simp [member])

/-- Every region after a call of `aggregate`. -/
theorem aggregate_gathered (wellFormed : WellFormed table)
    (computed : aggregate modulus fuel table region = some after) :
    Gathered modulus table region after := by
  induction fuel generalizing table region after with
  | zero => cases computed
  | succ fuel ih =>
      rw [aggregate_succ] at computed
      have all : Gathering modulus table region (table.children region) after := by
        refine Loop.invariant (Gathering modulus table region) .nil ?_ computed
        intro done rest child current next whole sofar ran
        have distinct := wellFormed.forest.unique region
        rw [whole] at distinct
        have held : child ∈ table.children region := by simp [whole]
        refine sofar.round wellFormed (fun c member => by simp [whole, member]) held ?_ ?_ ran
        · intro again
          exact (List.nodup_append.mp distinct).2.2 child again child (by simp) rfl
        · intro counted inner
          have formed : WellFormed current := by
            refine ⟨sofar.frame.size ▸ wellFormed.nonempty, ?_⟩
            rw [sofar.frame.size, sofar.frame.children_eq]
            exact wellFormed.forest
          exact ih formed inner
      constructor
      · intro i path
        rcases Relation.ReflTransGen.cases_head path with rfl | ⟨child, step, rest⟩
        · rw [all.merged, refreshed, gathered_eq wellFormed]
        · exact all.recounted child step.1 step i rest
      · intro i apart
        apply all.kept
        · rintro rfl
          exact apart .refl
        · exact fun child _ step path => apart (.head step path)

theorem aggregate_leaf (wellFormed : WellFormed table)
    (computed : aggregate modulus fuel table region = some after) (leaf : table.children i = []) :
    after.node i = table.node i := by
  have all := aggregate_gathered wellFormed computed
  by_cases path : Recounted table region i
  · rw [all.recounted i path, refreshed_leaf leaf]
  · exact all.kept i path

end Gathering

end VoteCounting.Server
