import VoteCounting.Nodes.Descendants

namespace VoteCounting.Nodes

/-! The search for the root: the first node with the most descendants, as they are counted.

A node that is called again after a call for one of its ancestors counts its children twice.
-/

structure Search where
  node : NodeArray
  parent : Int
  most : Int

def inspect (fuel : Nat) (search : Search) (i : Nat) : Option Search :=
  (numOfDescendant fuel search.node i).map fun result =>
    if search.most < result.1 then ⟨result.2, i, result.1⟩
    else ⟨result.2, search.parent, search.most⟩

def findRoot (fuel numofnodes : Nat) (node : NodeArray) : Option Int :=
  ((List.range numofnodes).foldlM (inspect fuel) ⟨node, -1, 0⟩).map Search.parent

/-- The nodes as the parser leaves them. -/
def Parsed (size : Nat) (node : NodeArray) : Prop :=
  ∀ y < size, (node y).status = false ∧ (node y).numDescendant = (kids node y).length

/-- Listed after one of its ancestors. -/
def Late (children : Nat → List Nat) (i : Nat) : Prop := ∃ a < i, Below children a i

noncomputable section

/-- The number of descendants, without the node. -/
def numBelow (size : Nat) (children : Nat → List Nat) (i : Nat) : Int :=
  (descendants size children i).card - 1

/-- The descendants that are not children. -/
def numFurther (size : Nat) (children : Nat → List Nat) (i : Nat) : Int :=
  numBelow size children i - (children i).length

open Classical in
/-- The children that were counted twice before the node is called again. -/
def recounted (children : Nat → List Nat) (i : Nat) : List Nat :=
  (children i).filter fun c => c < i ∧ Late children c

/-- What a second call for a node counts too much. -/
def overcount (size : Nat) (children : Nat → List Nat) (i : Nat) : Int :=
  ∑ y ∈ descendants size (recounted children) i, numFurther size children y

open Classical in
/-- What the call for a node in the loop returns. -/
def answer (size : Nat) (children : Nat → List Nat) (i : Nat) : Int :=
  numBelow size children i + if Late children i then overcount size children i else 0

end

/-- The array when the loop comes to node `i`. -/
structure Listed (size : Nat) (children : Nat → List Nat) (i : Nat) (node : NodeArray) : Prop where
  same : kids node = children
  status : ∀ y < size, (node y).status = true ↔ ∃ a < i, Below children a y
  fresh : ∀ y < size, (node y).status = false → (node y).numDescendant = (children y).length
  settled : ∀ y < size, (node y).status = true → (node y).numDescendant =
    if y < i then answer size children y else numBelow size children y

def Best (count : Nat → Int) (i : Nat) (search : Search) : Prop :=
  (search.parent = -1 ∧ search.most = 0 ∧ ∀ x < i, count x ≤ 0) ∨
    ∃ p < i, search.parent = p ∧ search.most = count p ∧ 0 < count p ∧
      (∀ x < p, count x < count p) ∧ ∀ x < i, count x ≤ count p

/-- The count of a node, if it is settled, or else what a call for it returns. -/
noncomputable def worth (size : Nat) (children : Nat → List Nat) (node : NodeArray) (y : Nat) : Int :=
  if (node y).status then (node y).numDescendant else numBelow size children y

section Root

variable {size fuel i c y root : Nat} {children : Nat → List Nat} {node after : NodeArray}

theorem numBelow_eq (tree : Branching size children) (inside : i < size) :
    numBelow size children i = (children i).length +
      ((children i).map (numBelow size children)).sum := by
  have count := tree.sum_descendants (fun _ => (1 : Int)) inside
  have each : ((children i).map fun c => ∑ _ ∈ descendants size children c, (1 : Int)) =
      (children i).map fun c => 1 + numBelow size children c := by
    apply List.map_congr_left
    intro c _
    simp [numBelow]
  rw [each, List.sum_map_add] at count
  simp only [Finset.sum_const, List.map_const', List.sum_replicate, nsmul_eq_mul, mul_one] at count
  rw [numBelow, count]
  ring

theorem numBelow_root (tree : Rooted size children root) : numBelow size children root = size - 1 := by
  have all : descendants size children root = Finset.range size := by
    ext y
    rw [mem_descendants, Finset.mem_range]
    exact ⟨fun member => member.1, fun inside => ⟨inside, tree.reached y inside⟩⟩
  rw [numBelow, all, Finset.card_range]

theorem numBelow_lt (tree : Rooted size children root) (other : i ≠ root) :
    numBelow size children i < size - 1 := by
  have fewer : descendants size children i ⊆ (Finset.range size).erase root := by
    intro y member
    obtain ⟨inside, below⟩ := mem_descendants.mp member
    refine Finset.mem_erase.mpr ⟨?_, Finset.mem_range.mpr inside⟩
    intro same
    rcases Relation.ReflTransGen.cases_tail (same ▸ below) with same | ⟨parent, _, held⟩
    · exact other same.symm
    · exact tree.parentless parent held
  have bound := Finset.card_le_card fewer
  rw [Finset.card_erase_of_mem (Finset.mem_range.mpr tree.present), Finset.card_range] at bound
  have present := tree.present
  rw [numBelow]
  omega

theorem root_not_late (tree : Rooted size children root) : ¬ Late children root := by
  rintro ⟨a, before, below⟩
  rcases Relation.ReflTransGen.cases_tail below with same | ⟨parent, _, held⟩
  · omega
  · exact tree.parentless parent held

theorem answer_of_not_late (early : ¬ Late children i) :
    answer size children i = numBelow size children i := by
  rw [answer, if_neg early, add_zero]

theorem answer_of_late (late : Late children i) :
    answer size children i = numBelow size children i + overcount size children i := by
  rw [answer, if_pos late]

theorem sum_recounted (weight : Nat → Int) :
    ((recounted children i).map weight).sum =
      ((children i).map fun c => open Classical in if c < i ∧ Late children c then weight c
        else 0).sum := by
  rw [recounted]
  induction children i with
  | nil => rfl
  | cons c rest ih => by_cases again : c < i ∧ Late children c <;> simp [again, ih]

/-- A node called again adds what its children are worth by then. -/
theorem answer_again (tree : Branching size children) (inside : i < size) (late : Late children i) :
    answer size children i = numBelow size children i + ((children i).map fun c =>
      if c < i then answer size children c else numBelow size children c).sum := by
  have inner : Branching size (recounted children) := tree.restrict fun _ => List.filter_sublist
  have each :
    ((children i).map fun c => if c < i then answer size children c else numBelow size children c) =
      (children i).map fun c => numBelow size children c +
        open Classical in if c < i ∧ Late children c then overcount size children c else 0 := by
    apply List.map_congr_left
    intro c _
    by_cases before : c < i
    · by_cases again : Late children c <;> simp [before, again, answer]
    · simp [before]
  have total : overcount size children i = numFurther size children i +
      ((recounted children i).map (overcount size children)).sum :=
    inner.sum_descendants (numFurther size children) inside
  have whole := numBelow_eq tree inside
  rw [answer_of_late late, total, each, List.sum_map_add, sum_recounted, numFurther]
  omega

theorem worth_of_settled (settled : (node y).status = true) :
    worth size children node y = (node y).numDescendant := if_pos settled

theorem worth_of_unsettled (unsettled : (node y).status = false) :
    worth size children node y = numBelow size children y := by
  rw [worth, unsettled]
  rfl

/-- The settled children of a node that is not settled are not too large. -/
theorem Listed.worth_child (listed : Listed size children i node) (tree : Branching size children)
    (inside : y < size) (unsettled : (node y).status = false) (held : c ∈ children y) :
    worth size children node c = numBelow size children c := by
  have apart : ∀ a < i, ¬ Below children a y := fun a before below => by
    rw [(listed.status y inside).mpr ⟨a, before, below⟩] at unsettled
    cases unsettled
  cases status : (node c).status with
  | false => exact worth_of_unsettled status
  | true =>
      rw [worth_of_settled status, listed.settled c (tree.inside held).2 status]
      by_cases before : c < i
      · rw [if_pos before]
        apply answer_of_not_late
        rintro ⟨a, earlier, below⟩
        rcases Relation.ReflTransGen.cases_tail below with same | ⟨parent, path, step⟩
        · omega
        · exact apart a (by omega) (tree.single step held ▸ path)
      · rw [if_neg before]

theorem Listed.sum_children (listed : Listed size children i node) (tree : Branching size children)
    (inside : y < size) (unsettled : (node y).status = false) :
    (node y).numDescendant + ((children y).map (worth size children node)).sum =
      numBelow size children y := by
  have each : (children y).map (worth size children node) = (children y).map (numBelow size children) :=
    List.map_congr_left fun c held => listed.worth_child tree inside unsettled held
  rw [listed.fresh y inside unsettled, each, ← numBelow_eq tree inside]

theorem Listed.values (listed : Listed size children i node) (tree : Branching size children)
    (inside : i < size) : Values node i (worth size children node) where
  settled y _ _ status := worth_of_settled status
  fresh y below _ status := by
    have present := tree.below_inside inside (listed.same ▸ below)
    rw [listed.same, listed.sum_children tree present status, worth_of_unsettled status]
  closed y below status c held := by
    rw [listed.same] at below held
    obtain ⟨a, before, path⟩ := (listed.status y (tree.below_inside inside below)).mp status
    exact (listed.status c (tree.inside held).2).mpr ⟨a, before, path.tail held⟩

/-- The call for node `i` returns its answer. -/
theorem Listed.own (listed : Listed size children i node) (tree : Branching size children)
    (inside : i < size) :
    (node i).numDescendant + ((kids node i).map (worth size children node)).sum =
      answer size children i := by
  have late : (node i).status = true ↔ Late children i := listed.status i inside
  rw [listed.same]
  cases status : (node i).status with
  | true =>
      rw [listed.settled i inside status, if_neg (by omega), answer_again tree inside (late.mp status)]
      refine congrArg (_ + List.sum ·) (List.map_congr_left fun c held => ?_)
      obtain ⟨a, before, path⟩ := late.mp status
      have present := (tree.inside held).2
      have settled := (listed.status c present).mpr ⟨a, before, path.tail held⟩
      rw [worth_of_settled settled, listed.settled c present settled]
  | false =>
      have early : ¬ Late children i := fun again => by
        rw [late.mpr again] at status
        cases status
      rw [listed.sum_children tree inside status, answer_of_not_late early]

theorem Listed.start (parsed : Parsed size node) : Listed size (kids node) 0 node where
  same := rfl
  status y inside := by simp [(parsed y inside).1]
  fresh y inside _ := (parsed y inside).2
  settled y inside status := by simp [(parsed y inside).1] at status

/-- The count of a node below `i` after the call for `i`. -/
theorem Listed.settled_below (listed : Listed size children i node) (present : y < size)
    (other : y ≠ i) :
    worth size children node y = if y < i + 1 then answer size children y
      else numBelow size children y := by
  have order : y < i + 1 ↔ y < i := by omega
  cases status : (node y).status with
  | true =>
      rw [worth_of_settled status, listed.settled y present status]
      simp only [order]
  | false =>
      have later : ¬ y < i := fun earlier => by
        rw [(listed.status y present).mpr ⟨y, earlier, .refl⟩] at status
        cases status
      rw [worth_of_unsettled status, if_neg (by omega)]

/-- One round of the loop. -/
theorem Listed.next (listed : Listed size children i node) (tree : Branching size children)
    (inside : i < size) (enough : size ≤ fuel) :
    ∃ after, numOfDescendant fuel node i = some (answer size children i, after) ∧
      Listed size children (i + 1) after := by
  obtain ⟨after, ran, counted⟩ := numOfDescendant_counted (listed.same ▸ tree) inside
    (listed.values tree inside) (card_descendants_le.trans enough)
  rw [listed.own tree inside] at ran
  have status : ∀ y, (after y).status = true ↔ Below children i y ∨ (node y).status = true := fun _ =>
    listed.same ▸ counted.status_iff
  have under :
      ∀ y, Below children i y → y ≠ i → after y = (node y).settle (worth size children node y) :=
    fun _ below other => counted.under (listed.same ▸ below) other
  have apart : ∀ y, ¬ Below children i y → after y = node y := fun y below =>
    counted.kept y (listed.same ▸ below)
  refine ⟨after, ran, counted.kids_eq.trans listed.same, fun y present => ?_,
    fun y present unsettled => ?_,
    fun y present settled => ?_⟩
  · rw [status, listed.status y present]
    constructor
    · rintro (below | ⟨a, before, below⟩)
      · exact ⟨i, by omega, below⟩
      · exact ⟨a, by omega, below⟩
    · rintro ⟨a, before, below⟩
      rcases Nat.lt_succ_iff_lt_or_eq.mp before with earlier | rfl
      · exact .inr ⟨a, earlier, below⟩
      · exact .inl below
  · rw [← Bool.not_eq_true, status, not_or] at unsettled
    rw [apart y unsettled.1]
    exact listed.fresh y present (Bool.not_eq_true _ ▸ unsettled.2)
  · by_cases self : y = i
    · rw [self, counted.own, listed.own tree inside, if_pos (by omega)]
      rfl
    · rw [← listed.settled_below present self]
      by_cases below : Below children i y
      · rw [under y below self]
        rfl
      · have before := ((status y).mp settled).resolve_left below
        rw [apart y below, worth_of_settled before]

theorem Best.next {count : Nat → Int} {search : Search} (best : Best count i search) :
    Best count (i + 1) (if search.most < count i then ⟨after, i, count i⟩
      else ⟨after, search.parent, search.most⟩) := by
  have last : ∀ {x}, x < i + 1 → x < i ∨ x = i := fun bound => Nat.lt_succ_iff_lt_or_eq.mp bound
  rcases best with ⟨parent, most, small⟩ | ⟨p, before, parent, most, positive, first, largest⟩
  · by_cases more : search.most < count i
    · rw [if_pos more]
      refine .inr ⟨i, by omega, rfl, rfl, by omega, fun x earlier => ?_, fun x bound => ?_⟩
      · have bound := small x earlier
        omega
      · rcases last bound with earlier | rfl
        · have bound := small x earlier
          omega
        · exact le_refl _
    · rw [if_neg more]
      refine .inl ⟨parent, most, fun x bound => ?_⟩
      rcases last bound with earlier | rfl
      · exact small x earlier
      · omega
  · by_cases more : search.most < count i
    · rw [if_pos more]
      refine .inr ⟨i, by omega, rfl, rfl, by omega, fun x earlier => ?_, fun x bound => ?_⟩
      · have bound := largest x earlier
        omega
      · rcases last bound with earlier | rfl
        · have bound := largest x earlier
          omega
        · exact le_refl _
    · rw [if_neg more]
      refine .inr ⟨p, by omega, parent, most, positive, first, fun x bound => ?_⟩
      rcases last bound with earlier | rfl
      · exact largest x earlier
      · omega

theorem findRoot_best (tree : Branching size (kids node)) (parsed : Parsed size node)
    (enough : size ≤ fuel) : ∃ search, findRoot fuel size node = some search.parent ∧
      Best (answer size (kids node)) size search := by
  have loop : ∃ search, (List.range size).foldlM (inspect fuel) ⟨node, -1, 0⟩ = some search ∧
      Listed size (kids node) (List.range size).length search.node ∧
        Best (answer size (kids node)) (List.range size).length search := by
    refine Loop.total_invariant (fun done search => Listed size (kids node) done.length search.node ∧
      Best (answer size (kids node)) done.length search) ?_ ?_
    · exact ⟨Listed.start parsed, .inl ⟨rfl, rfl, by simp⟩⟩
    intro done rest i search whole holds
    obtain ⟨listed, best⟩ := holds
    have turn : done.length < size ∧ i = done.length := by
      have entry := congrArg (·[done.length]?) whole
      have within := congrArg List.length whole
      simp only [List.length_range, List.length_append, List.length_cons] at within
      simp only [List.getElem?_append_right le_rfl, Nat.sub_self, List.getElem?_cons_zero] at entry
      rw [List.getElem?_range (by omega)] at entry
      exact ⟨by omega, (Option.some.inj entry).symm⟩
    obtain ⟨inside, rfl⟩ := turn
    obtain ⟨after, ran, kept⟩ := listed.next tree inside enough
    refine ⟨_, by rw [inspect, ran]; rfl, ?_⟩
    rw [List.length_append]
    refine ⟨?_, best.next⟩
    dsimp only
    split <;> exact kept
  obtain ⟨search, ran, _, best⟩ := loop
  rw [List.length_range] at best
  exact ⟨search, by rw [findRoot, ran]; rfl, best⟩

/-- The root is found, unless the answer for a node listed after one of its ancestors is larger
(or as large, where the node comes before the root). -/
theorem findRoot_root_iff (tree : Rooted size (kids node) root) (two : 2 ≤ size)
    (parsed : Parsed size node) (enough : size ≤ fuel) :
    findRoot fuel size node = some (root : Int) ↔ ∀ x < size, Late (kids node) x →
      (x < root → numBelow size (kids node) x + overcount size (kids node) x < size - 1) ∧
      (root < x → numBelow size (kids node) x + overcount size (kids node) x ≤ size - 1) := by
  obtain ⟨search, found, best⟩ := findRoot_best tree.branching parsed enough
  have top : answer size (kids node) root = size - 1 := by
    rw [answer_of_not_late (root_not_late tree), numBelow_root tree]
  have present := tree.present
  rw [found, Option.some.injEq]
  rcases best with ⟨_, _, small⟩ | ⟨p, before, parent, _, _, first, largest⟩
  · have bound := small root present
    omega
  · rw [parent, Nat.cast_inj]
    constructor
    · rintro rfl x inside late
      rw [← answer_of_late late, ← top]
      exact ⟨first x, fun _ => largest x inside⟩
    · intro sound
      have others : ∀ x < size, x ≠ root → (x < root → answer size (kids node) x < size - 1) ∧
          (root < x → answer size (kids node) x ≤ size - 1) := by
        intro x inside other
        by_cases late : Late (kids node) x
        · rw [answer_of_late late]
          exact sound x inside late
        · have bound := numBelow_lt tree other
          rw [answer_of_not_late late]
          exact ⟨fun _ => bound, fun _ => bound.le⟩
      by_contra other
      obtain ⟨below, above⟩ := others p before other
      rcases Nat.lt_or_gt_of_ne other with lower | higher
      · have bound := largest root present
        have short := below lower
        omega
      · have bound := first root higher
        have short := above higher
        omega

def chain (size : Nat) : NodeArray := fun i =>
  if i + 1 < size then { children := [i + 1], numDescendant := 1 } else {}

theorem mem_kids_chain : c ∈ kids (chain size) i ↔ c = i + 1 ∧ c < size := by
  rw [kids, chain]
  split
  · rename_i more
    rw [List.mem_singleton]
    omega
  · simp
    omega

theorem chain_rooted (positive : 0 < size) : Rooted size (kids (chain size)) 0 where
  inside held := by
    rw [mem_kids_chain] at held
    omega
  single left right := by
    rw [mem_kids_chain] at left right
    omega
  unique i := by
    rw [kids, chain]
    split <;> simp
  present := positive
  parentless i held := by
    rw [mem_kids_chain] at held
    omega
  reached i inside := by
    induction i with
    | zero => exact .refl
    | succ i ih => exact (ih (by omega)).tail (mem_kids_chain.mpr ⟨rfl, inside⟩)

theorem chain_parsed : Parsed size (chain size) := by
  intro y _
  rw [kids, chain]
  split <;> exact ⟨rfl, rfl⟩

theorem findRoot_root_iff_sample : findRoot 4 4 (chain 4) = some 0 ↔ ∀ x < 4, Late (kids (chain 4)) x →
    (x < 0 → numBelow 4 (kids (chain 4)) x + overcount 4 (kids (chain 4)) x < 4 - 1) ∧
    (0 < x → numBelow 4 (kids (chain 4)) x + overcount 4 (kids (chain 4)) x ≤ 4 - 1) :=
  findRoot_root_iff (chain_rooted (by decide)) (by decide) chain_parsed le_rfl

/-- In a chain of five, the second node has three descendants and counts two of them twice. -/
theorem findRoot_missed : ¬ ∀ (size root : Nat) (node : NodeArray), Rooted size (kids node) root →
    2 ≤ size → Parsed size node → findRoot size size node = some (root : Int) := by
  intro claim
  have first := claim 5 0 (chain 5) (chain_rooted (by decide)) (by decide) chain_parsed
  have second : findRoot 5 5 (chain 5) = some 1 := by decide
  rw [second] at first
  cases first

end Root

end VoteCounting.Nodes
