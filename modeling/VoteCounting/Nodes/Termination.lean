import VoteCounting.Nodes.Parser

namespace VoteCounting.Nodes

open CString Relation

/-! The recursion of `NumOfDescendant` on the tables the parser accepts, with cycles or without.

A node is marked as done behind its children, so that a call inside a cycle never returns.
-/

/-- Each of these nodes is unmarked and has a child among them. -/
structure Endless (node : NodeArray) (nodes : Set Nat) : Prop where
  unmarked : ∀ i ∈ nodes, (node i).status = false
  onwards : ∀ i ∈ nodes, ∃ c ∈ kids node i, c ∈ nodes

section Recursion

variable {size fuel num : Nat} {node state after : NodeArray} {nodes : Set Nat} {child i : Nat}
  {result : Int}

/-- What a change of one node keeps is the same at every node. -/
theorem update_kept {β : Type} (proj : Node → β) {changed : Node}
    (same : proj changed = proj (node num)) (i : Nat) :
    proj (Function.update node num changed i) = proj (node i) := by
  by_cases own : i = num
  · rw [own, Function.update_self, same]
  · rw [Function.update_of_ne own]

theorem kids_addDescendants {count : Int} : kids (addDescendants node num count) = kids node :=
  funext fun i => update_kept Node.children (by rfl) i

theorem kids_setStatus : kids (setStatus node num) = kids node :=
  funext fun i => update_kept Node.children (by rfl) i

theorem status_addDescendants {count : Int} :
    (addDescendants node num count i).status = (node i).status :=
  update_kept Node.status (by rfl) i

/-- A call without cycles below returns, and it changes no children. -/
theorem numOfDescendant_returns (inside : ∀ {i c}, c ∈ kids node i → i < size ∧ c < size)
    (acyclic : ∀ i, ¬ TransGen (fun a b => b ∈ kids node a) i i) (present : num < size)
    (enough : (descendants size (kids node) num).card ≤ fuel) :
    ∃ result after, numOfDescendant fuel node num = some (result, after) ∧ kids after = kids node := by
  induction fuel generalizing node num with
  | zero =>
      have member : num ∈ descendants size (kids node) num := mem_descendants.mpr ⟨present, .refl⟩
      rw [Finset.card_eq_zero.mp (Nat.le_zero.mp enough)] at member
      exact absurd member (Finset.notMem_empty num)
  | succ fuel ih =>
      have loop : ∃ state, (kids node num).foldlM (countChild fuel num) node = some state ∧
          kids state = kids node := by
        refine Loop.total (fun state => kids state = kids node) rfl fun state same child held => ?_
        rw [countChild]
        split
        · have smaller := card_descendants_child (acyclic num) present held
          rw [← same] at inside acyclic
          obtain ⟨result, after, returned, kept⟩ := ih inside acyclic (inside (same ▸ held)).2
            (by rw [same]; omega)
          exact ⟨_, by rw [returned]; rfl, by rw [kids_addDescendants, kept, same]⟩
        · exact ⟨_, rfl, by rw [kids_addDescendants, same]⟩
      obtain ⟨state, ran, same⟩ := loop
      exact ⟨_, _, by rw [numOfDescendant_succ, ran]; rfl, by rw [kids_setStatus, same]⟩

theorem Endless.addDescendants {count : Int} (endless : Endless node nodes) :
    Endless (addDescendants node num count) nodes where
  unmarked i held := status_addDescendants.trans (endless.unmarked i held)
  onwards := by
    rw [kids_addDescendants]
    exact endless.onwards

/-- A call that returns was not for one of the endless nodes, and has left them as they were. -/
theorem Endless.call (endless : Endless node nodes)
    (returned : numOfDescendant fuel node num = some (result, after)) :
    num ∉ nodes ∧ Endless after nodes ∧ kids after = kids node := by
  induction fuel generalizing node num result after with
  | zero => cases returned
  | succ fuel ih =>
      rw [numOfDescendant_succ, Option.map_eq_some_iff] at returned
      obtain ⟨state, ran, same⟩ := returned
      have loop : (∀ c ∈ kids node num, c ∉ nodes) ∧ Endless state nodes ∧ kids state = kids node := by
        refine Loop.invariant (fun done state => (∀ c ∈ done, c ∉ nodes) ∧ Endless state nodes ∧
          kids state = kids node) ⟨by simp, endless, rfl⟩ ?_ ran
        intro done rest child state next _ ⟨clear, endless, kept⟩ counted
        rw [countChild] at counted
        split at counted
        · obtain ⟨⟨result, after⟩, returned, rfl⟩ := Option.map_eq_some_iff.mp counted
          obtain ⟨outside, still, sameKids⟩ := ih endless returned
          exact ⟨List.forall_mem_append.mpr ⟨clear, List.forall_mem_singleton.mpr outside⟩,
            still.addDescendants, by rw [kids_addDescendants, sameKids, kept]⟩
        · rename_i marked
          cases counted
          have outside : child ∉ nodes := by
            intro held
            simp [endless.unmarked child held] at marked
          exact ⟨List.forall_mem_append.mpr ⟨clear, List.forall_mem_singleton.mpr outside⟩,
            endless.addDescendants, by rw [kids_addDescendants, kept]⟩
      obtain ⟨clear, still, kept⟩ := loop
      have outside : num ∉ nodes := by
        intro held
        obtain ⟨c, child, inside⟩ := endless.onwards num held
        exact clear c child inside
      obtain rfl : setStatus state num = after := congrArg Prod.snd same
      refine ⟨outside, ⟨fun i held => ?_, ?_⟩, by rw [kids_setStatus, kept]⟩
      · have other : i ≠ num := fun same => outside (same ▸ held)
        rw [setStatus_of_ne other]
        exact still.unmarked i held
      · rw [kids_setStatus]
        exact still.onwards

/-- The nodes on cycles. -/
theorem endless_cycles (fresh : ∀ i, (node i).status = false) :
    Endless node {i | TransGen (fun a b => b ∈ kids node a) i i} where
  unmarked i _ := fresh i
  onwards i cycle := by
    obtain ⟨c, held, back⟩ := TransGen.head'_iff.mp cycle
    exact ⟨c, held, TransGen.tail' back held⟩

theorem findRoot_returns (inside : ∀ {i c}, c ∈ kids node i → i < size ∧ c < size)
    (acyclic : ∀ i, ¬ TransGen (fun a b => b ∈ kids node a) i i) :
    (findRoot size size node).isSome := by
  have loop : ∃ search, (List.range size).foldlM (inspect size) ⟨node, -1, 0⟩ = some search ∧
      kids search.node = kids node := by
    refine Loop.total (fun search : Search => kids search.node = kids node) rfl fun search same i
      member => ?_
    rw [← same] at inside acyclic
    obtain ⟨result, after, returned, kept⟩ := numOfDescendant_returns inside acyclic
      (List.mem_range.mp member) card_descendants_le
    refine ⟨_, by rw [inspect, returned]; rfl, ?_⟩
    dsimp only
    split <;> rw [kept, same]
  obtain ⟨search, ran, _⟩ := loop
  rw [findRoot, ran]
  rfl

theorem Endless.findRoot (endless : Endless node nodes) (held : i ∈ nodes) (present : i < size) :
    findRoot fuel size node = none := by
  rw [Nodes.findRoot, Option.map_eq_none_iff]
  cases ran : (List.range size).foldlM (inspect fuel) ⟨node, -1, 0⟩ with
  | none => rfl
  | some search =>
      have clear : (∀ i ∈ List.range size, i ∉ nodes) ∧ Endless search.node nodes := by
        refine Loop.invariant
          (fun done (search : Search) => (∀ i ∈ done, i ∉ nodes) ∧ Endless search.node nodes)
          ⟨by simp, endless⟩ ?_ ran
        rintro done rest i search next - ⟨clear, endless⟩ inspected
        obtain ⟨⟨result, after⟩, returned, rfl⟩ := Option.map_eq_some_iff.mp inspected
        obtain ⟨outside, still, _⟩ := endless.call returned
        exact ⟨List.forall_mem_append.mpr ⟨clear, List.forall_mem_singleton.mpr outside⟩,
          by dsimp only; split <;> exact still⟩
      exact absurd held (clear.1 i (List.mem_range.mpr present))

/-- The calls for all nodes return exactly if there is no cycle. -/
theorem findRoot_returns_iff (inside : ∀ {i c}, c ∈ kids node i → i < size ∧ c < size)
    (fresh : ∀ i, (node i).status = false) : (∃ fuel, (findRoot fuel size node).isSome) ↔
      ∀ i, ¬ TransGen (fun a b => b ∈ kids node a) i i := by
  constructor
  · intro ⟨fuel, returned⟩ i cycle
    obtain ⟨_, _, held⟩ := TransGen.tail'_iff.mp cycle
    rw [(endless_cycles fresh).findRoot cycle (inside held).2] at returned
    cases returned
  · intro acyclic
    exact ⟨size, findRoot_returns inside acyclic⟩

end Recursion

/-- The parent's line lists the child, and both are among the regions. -/
def ListedBelow (lines : List CStr) (parent child : CStr) : Prop :=
  (parent, child) ∈ declared lines ∧ parent ∈ regionNames lines ∧ child ∈ regionNames lines

section Cycles

variable {lines : List CStr} {names : List CStr} {pairs : List (CStr × CStr)} {i c : Nat}
  {name other : CStr}

theorem mem_childIndices : c ∈ childIndices names pairs i ↔
    ∃ pair ∈ pairs, index names pair.1 = some i ∧ index names pair.2 = some c := by
  rw [childIndices, List.mem_filterMap]
  refine exists_congr fun pair => and_congr_right fun _ => ?_
  split
  · rename_i found
    exact (and_iff_right found).symm
  · rename_i other
    exact iff_of_false (by simp) fun found => other found.1

theorem index_name (found : index names name = some i) : names.getD i [] = name := by
  rw [List.getD_eq_getElem?_getD, (index_eq_some_iff.mp found).1]
  rfl

/-- A cycle of nodes is a cycle of names, and the other way round. -/
theorem cycle_iff :
    (∃ i, TransGen (fun a b => b ∈ childIndices (regionNames lines) (declared lines) a) i i) ↔
      ∃ name, TransGen (ListedBelow lines) name name := by
  constructor
  · rintro ⟨i, cycle⟩
    refine ⟨(regionNames lines).getD i [],
      TransGen.lift (fun i => (regionNames lines).getD i []) ?_ _ _ cycle⟩
    intro a b held
    obtain ⟨pair, member, parent, child⟩ := mem_childIndices.mp held
    simp only [Function.onFun, index_name parent, index_name child]
    exact ⟨member, index_isSome.mp (by rw [parent]; rfl), index_isSome.mp (by rw [child]; rfl)⟩
  · rintro ⟨name, cycle⟩
    refine ⟨(index (regionNames lines) name).getD 0,
      TransGen.lift (fun name => (index (regionNames lines) name).getD 0) ?_ _ _ cycle⟩
    rintro parent child ⟨member, listed, alsoListed⟩
    obtain ⟨i, found⟩ := Option.isSome_iff_exists.mp (index_isSome.mpr listed)
    obtain ⟨c, alsoFound⟩ := Option.isSome_iff_exists.mp (index_isSome.mpr alsoListed)
    simp only [Function.onFun, found, alsoFound, Option.getD_some]
    exact mem_childIndices.mpr ⟨(parent, child), member, found, alsoFound⟩

end Cycles

/-- On an accepted file the search for the root ends exactly if no region comes back to itself
along the lines. -/
theorem findRoot_ends_iff {text : List Char} {parse : Parse} (accepted : parseInput text = some parse) :
    (∃ fuel, (findRoot fuel parse.names.length parse.node).isSome) ↔
      ∀ region, ¬ TransGen (ListedBelow (getlines text)) region region := by
  obtain ⟨_, rfl⟩ := parseInput_eq_some_iff.mp accepted
  have inside : ∀ {i c}, c ∈ childIndices (regionNames (getlines text)) (declared (getlines text)) i →
      i < (regionNames (getlines text)).length ∧ c < (regionNames (getlines text)).length := by
    intro i c held
    obtain ⟨pair, _, parent, child⟩ := mem_childIndices.mp held
    exact ⟨index_lt parent, index_lt child⟩
  refine (findRoot_returns_iff inside fun _ => rfl).trans ?_
  rw [← not_exists, ← not_exists]
  exact not_congr cycle_iff

theorem exists_parse {text : List Char} (accepted : Accepted (getlines text)) :
    ∃ parse, parseInput text = some parse := ⟨_, parseInput_eq_some_iff.mpr ⟨accepted, rfl⟩⟩

/-- `A` lies between the root and the leaf `B`. -/
def threeLevels : List Char := "2 X Y \nWho_Won A B C\nWho_Won : A C\nA : B\n".toList

theorem findRoot_ends_iff_sample : ∃ parse, parseInput threeLevels = some parse ∧
    ((∃ fuel, (findRoot fuel parse.names.length parse.node).isSome) ↔
      ∀ region, ¬ TransGen (ListedBelow (getlines threeLevels)) region region) := by
  have lines : Accepted (getlines threeLevels) := ⟨by decide, by decide, by decide⟩
  obtain ⟨parse, accepted⟩ := exists_parse lines
  exact ⟨parse, accepted, findRoot_ends_iff accepted⟩

/-- Two regions that list each other, apart from the root. -/
theorem findRoot_endless : ∃ parse, parseInput "1 X\nWho_Won A B\nA : B\nB : A\n".toList = some parse ∧
    ∀ fuel, findRoot fuel parse.names.length parse.node = none := by
  have accepted : Accepted (getlines "1 X\nWho_Won A B\nA : B\nB : A\n".toList) :=
    ⟨by decide, by decide, by decide⟩
  refine ⟨_, parseInput_eq_some_iff.mpr ⟨accepted, rfl⟩, fun fuel => ?_⟩
  refine @Endless.findRoot _ _ _ {1, 2} 1 ⟨fun _ _ => rfl, ?_⟩ (by simp) (by decide)
  rintro i (rfl | rfl)
  · exact ⟨2, by decide, by simp⟩
  · exact ⟨1, by decide, by simp⟩

end VoteCounting.Nodes
