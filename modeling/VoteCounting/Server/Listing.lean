import VoteCounting.Server.Structure

namespace VoteCounting.Server

open Counters CString

/-- The list and the tree hold the same regions. -/
structure Agree (table : Table) : Prop where
  parent : ∀ i, 0 < i → i < table.size → ∃! parent, parent < table.size ∧ i ∈ table.children parent
  inside : ∀ parent, ∀ child ∈ table.children parent, child < table.size

/-- Every region but the root is in a child array. -/
def Parented (table : Table) : Prop :=
  ∀ i, 0 < i → i < table.size → ∃ parent, i ∈ table.children parent

/-- The tokens of the lines that are not comments. -/
def headings (lines : List CStr) : List (List CStr) :=
  (lines.filter fun buf => buf.head? ≠ some '#').map fun buf => makeargv buf ':'

/-- The lines after the first one of a region file: a region and its children each. -/
def parentLines (file : CStr) : List (List CStr) := headings (getlines file).tail

/-- No region gets another line after one that gave it children. -/
def ListedOnce (lines : List (List CStr)) : Prop :=
  lines.Pairwise fun earlier later => earlier.head? = later.head? → earlier.tail = []

/-- The line is about a region that has children already. -/
def Repeats (table : Table) (line : List CStr) : Prop :=
  ∃ i, 0 < i ∧ i < table.size ∧ line.head? = some (table.node i).name ∧ table.children i ≠ []

section Listing

variable {modulus linecounter : Nat} {table after start : Table} {region i j : Nat} {buf : CStr}
  {names : List CStr} {line : List CStr} {lines : List CStr}

theorem agree_iff (wellFormed : WellFormed table) : Agree table ↔ Parented table := by
  constructor
  · intro agree i positive inside
    obtain ⟨parent, ⟨_, held⟩, _⟩ := agree.parent i positive inside
    exact ⟨parent, held⟩
  · intro parented
    refine ⟨fun i positive inside => ?_, fun parent child held => (wellFormed.forest.later held).2⟩
    obtain ⟨parent, held⟩ := parented i positive inside
    refine ⟨parent, ⟨?_, held⟩, fun other both => wellFormed.forest.single both.2 held⟩
    have bounds := wellFormed.forest.later held
    omega

theorem names_eq_getElem (bound : i < table.names.length) : table.names[i] = (table.node i).name := by
  have inside : i < table.size := by simpa [Table.names] using bound
  simp [Table.names, Table.node_eq_getElem inside]

/-- Only the root may share its name. -/
theorem name_inj (distinct : table.names.tail.Nodup) (leftPositive : 0 < i) (rightPositive : 0 < j)
    (left : i < table.size) (right : j < table.size)
    (same : (table.node i).name = (table.node j).name) : i = j := by
  have length : table.nodes.length = table.size := rfl
  have leftInside : i < table.names.length := by simpa [Table.names] using left
  have rightInside : j < table.names.length := by simpa [Table.names] using right
  rw [← names_eq_getElem leftInside, ← names_eq_getElem rightInside] at same
  have leftBound : i - 1 < table.names.tail.length := by
    simp only [Table.names, List.length_tail, List.length_map]
    omega
  have rightBound : j - 1 < table.names.tail.length := by
    simp only [Table.names, List.length_tail, List.length_map]
    omega
  have equal : table.names.tail[i - 1] = table.names.tail[j - 1] := by
    simpa [List.getElem_tail, Nat.sub_add_cancel leftPositive,
      Nat.sub_add_cancel rightPositive] using same
  have indices := (List.Nodup.getElem_inj_iff distinct).mp equal
  omega

theorem addLine_names :
    (addLine table region names).names = table.names ++ names.map trimlastenter := by
  have kept : (table.modify region fun node =>
      { node with children := List.range' table.size names.length }).names = table.names := by
    apply Table.names_eq_of_node (by simp)
    exact fun i => Table.node_modify_proj Node.name fun _ => rfl
  rw [← kept]
  simp [addLine, Table.names, create, Function.comp_def]

theorem addLine_name (inside : i < table.size) :
    ((addLine table region names).node i).name = (table.node i).name := by
  rw [addLine_node_old inside]
  exact Table.node_modify_proj Node.name fun _ => rfl

/-- A line after the first one names a region behind the root. -/
theorem readLine_parent (later : linecounter ≠ 0) (data : buf.head? ≠ some '#')
    (read : readLine linecounter table buf = some after) :
    ∃ region names, 0 < region ∧ region < table.size ∧
      makeargv buf ':' = (table.node region).name :: names ∧ after = addLine table region names := by
  rw [readLine, if_neg data] at read
  cases tokens : makeargv buf ':' with
  | nil => simp [tokens] at read
  | cons name names =>
      simp only [tokens, if_neg later] at read
      cases found : table.nodes.tail.findIdx? fun node => node.name == name with
      | none => simp [found] at read
      | some k =>
          simp only [found, Option.some.injEq] at read
          obtain ⟨bound, hit, _⟩ := List.findIdx?_eq_some_iff_getElem.mp found
          rw [List.length_tail] at bound
          have inside : k + 1 < table.size := by
            rw [Table.size]
            omega
          refine ⟨k + 1, names, by omega, inside, ?_, read.symm⟩
          rw [Table.node_eq_getElem inside]
          have named : table.nodes[k + 1].name = name := by simpa [List.getElem_tail] using hit
          rw [named]

/-- Children that were there before lose their parent. -/
theorem parented_addLine (wellFormed : WellFormed table) (present : region < table.size) :
    Parented (addLine table region names) ↔ Parented table ∧ table.children region = [] := by
  have size : (addLine table region names).size = table.size + names.length := addLine_size
  have children : (addLine table region names).children = _ := addLine_children present
  constructor
  · intro parented
    have old : ∀ i, 0 < i → i < table.size → ∃ parent, parent ≠ region ∧ i ∈ table.children parent := by
      intro i positive inside
      obtain ⟨parent, held⟩ := parented i positive (by omega)
      rw [children] at held
      by_cases same : parent = region
      · subst same
        rw [Function.update_self] at held
        have bounds := List.mem_range'_1.mp held
        omega
      · rw [Function.update_of_ne same] at held
        exact ⟨parent, same, held⟩
    refine ⟨fun i positive inside => ?_, List.eq_nil_iff_forall_not_mem.mpr fun child held => ?_⟩
    · obtain ⟨parent, _, held⟩ := old i positive inside
      exact ⟨parent, held⟩
    · have bounds := wellFormed.forest.later held
      obtain ⟨parent, different, again⟩ := old child (by omega) bounds.2
      exact different (wellFormed.forest.single again held)
  · intro ⟨parented, childless⟩ i positive inside
    rw [size] at inside
    by_cases old : i < table.size
    · obtain ⟨parent, held⟩ := parented i positive old
      refine ⟨parent, ?_⟩
      rw [children, Function.update_of_ne fun same => ?_]
      · exact held
      · rw [same, childless] at held
        cases held
    · refine ⟨region, ?_⟩
      rw [children, Function.update_self]
      exact List.mem_range'_1.mpr ⟨by omega, by omega⟩

theorem repeats_self (distinct : table.names.tail.Nodup) (positive : 0 < region)
    (present : region < table.size) :
    ¬ Repeats table ((table.node region).name :: names) ↔ table.children region = [] := by
  constructor
  · intro fresh
    by_contra occupied
    exact fresh ⟨region, positive, present, rfl, occupied⟩
  · intro childless ⟨i, iPositive, inside, same, occupied⟩
    have equal := name_inj distinct iPositive positive inside present (Option.some.inj same).symm
    exact occupied (equal ▸ childless)

theorem repeats_addLine (positive : 0 < region) (present : region < table.size)
    (childless : table.children region = []) :
    ¬ Repeats (addLine table region names) line ↔
      (some (table.node region).name = line.head? → names = []) ∧ ¬ Repeats table line := by
  have size : (addLine table region names).size = table.size + names.length := addLine_size
  have children : (addLine table region names).children = _ := addLine_children present
  constructor
  · intro fresh
    refine ⟨fun same => ?_, fun again => ?_⟩
    · by_contra occupied
      refine fresh ⟨region, positive, by omega, ?_, ?_⟩
      · rw [addLine_name present, same]
      · rw [children, Function.update_self]
        intro none
        exact occupied (List.length_eq_zero_iff.mp (List.range'_eq_nil_iff.mp none))
    · obtain ⟨i, iPositive, inside, same, occupied⟩ := again
      refine fresh ⟨i, iPositive, by omega, ?_, ?_⟩
      · rw [addLine_name inside, same]
      · rw [children]
        by_cases self : i = region
        · rw [self] at occupied
          exact absurd childless occupied
        · rwa [Function.update_of_ne self]
  · intro ⟨own, fresh⟩ ⟨i, iPositive, inside, same, occupied⟩
    rw [children] at occupied
    by_cases self : i = region
    · rw [self, addLine_name present] at same
      rw [self, Function.update_self, own same.symm] at occupied
      exact occupied rfl
    · rw [Function.update_of_ne self] at occupied
      by_cases old : i < table.size
      · rw [addLine_name old] at same
        exact fresh ⟨i, iPositive, old, same, occupied⟩
      · rw [Table.children, Table.node_of_size_le (by omega)] at occupied
        exact occupied rfl

theorem readLine_names (later : linecounter ≠ 0) (read : readLine linecounter table buf = some after) :
    ∃ more, after.names.tail = table.names.tail ++ more := by
  by_cases data : buf.head? = some '#'
  · rw [readLine, if_pos data] at read
    cases read
    exact ⟨[], by simp⟩
  · obtain ⟨region, names, _, present, _, rfl⟩ := readLine_parent later data read
    have nonempty : table.names ≠ [] := by
      intro none
      have length := congrArg List.length none
      simp only [Table.names, List.length_map, List.length_nil] at length
      exact absurd present (by rw [Table.size, length]; omega)
    exact ⟨names.map trimlastenter, by rw [addLine_names, List.tail_append_of_ne_nil nonempty]⟩

theorem readLines_names (later : linecounter ≠ 0)
    (read : readLines linecounter table lines = some after) :
    ∃ more, after.names.tail = table.names.tail ++ more := by
  induction lines generalizing table linecounter with
  | nil =>
      cases read
      exact ⟨[], by simp⟩
  | cons buf rest ih =>
      obtain ⟨middle, first, remaining⟩ := Option.bind_eq_some_iff.mp read
      obtain ⟨more, same⟩ := readLine_names later first
      obtain ⟨evenMore, again⟩ := ih (Nat.succ_ne_zero _) remaining
      exact ⟨more ++ evenMore, by rw [again, same, List.append_assoc]⟩

theorem readLines_parented (wellFormed : WellFormed table) (later : linecounter ≠ 0)
    (read : readLines linecounter table lines = some start) (distinct : start.names.tail.Nodup) :
    Parented start ↔ Parented table ∧ ListedOnce (headings lines) ∧
      ∀ line ∈ headings lines, ¬ Repeats table line := by
  induction lines generalizing table linecounter with
  | nil =>
      cases read
      simp [headings, ListedOnce]
  | cons buf rest ih =>
      obtain ⟨more, same⟩ := readLines_names later read
      have distinctHere : table.names.tail.Nodup := by
        rw [same] at distinct
        exact (List.nodup_append.mp distinct).1
      obtain ⟨middle, first, remaining⟩ := Option.bind_eq_some_iff.mp read
      by_cases data : buf.head? = some '#'
      · have skipped : headings (buf :: rest) = headings rest := by simp [headings, data]
        rw [readLine, if_pos data] at first
        cases first
        rw [skipped]
        exact ih wellFormed (Nat.succ_ne_zero _) remaining
      · obtain ⟨region, names, positive, present, tokens, rfl⟩ := readLine_parent later data first
        have unfolded :
            headings (buf :: rest) = ((table.node region).name :: names) :: headings rest := by
          simp [headings, data, tokens]
        have step := ih (wellFormed.addLine present) (Nat.succ_ne_zero _) remaining
        rw [step, unfolded, ListedOnce, ListedOnce, List.pairwise_cons, List.forall_mem_cons,
          parented_addLine wellFormed present, repeats_self distinctHere positive present]
        constructor
        · rintro ⟨⟨parented, childless⟩, once, fresh⟩
          have each := fun line member =>
            (repeats_addLine positive present childless).mp (fresh line member)
          exact ⟨parented, ⟨fun line member => (each line member).1, once⟩, childless,
            fun line member => (each line member).2⟩
        · rintro ⟨parented, ⟨own, once⟩, childless, fresh⟩
          exact ⟨⟨parented, childless⟩, once, fun line member =>
            (repeats_addLine positive present childless).mpr
              ⟨own line member, fresh line member⟩⟩

theorem createDAG_parented {file : CStr} (created : createDAG file = some start)
    (distinct : start.names.tail.Nodup) : Parented start ↔ ListedOnce (parentLines file) := by
  have single : ∀ node : Node, Parented { nodes := [node] } := by
    intro node i positive inside
    have one : Table.size { nodes := [node] } = 1 := rfl
    omega
  have childless : ∀ (name : CStr) i, Table.children { nodes := [{ name }] } i = [] := by
    intro name i
    cases i <;> rfl
  have fresh : ∀ name, WellFormed { nodes := [{ name }] } := by
    intro name
    refine ⟨by simp [Table.size], ?_⟩
    constructor <;> intros <;> simp_all
  rw [createDAG] at created
  rw [parentLines]
  cases lines : getlines file with
  | nil =>
      rw [lines] at created
      cases created
      simp [single, headings, ListedOnce]
  | cons buf rest =>
      rw [lines] at created
      obtain ⟨middle, first, remaining⟩ := Option.bind_eq_some_iff.mp created
      have ready : WellFormed middle ∧ Parented middle ∧ ∀ line, ¬ Repeats middle line := by
        by_cases data : buf.head? = some '#'
        · rw [readLine, if_pos data] at first
          cases first
          refine ⟨fresh [], single _, ?_⟩
          rintro line ⟨i, _, _, _, occupied⟩
          exact occupied (childless [] i)
        · rw [readLine, if_neg data] at first
          cases tokens : makeargv buf ':' with
          | nil => simp [tokens] at first
          | cons name names =>
              simp only [tokens, if_pos, Option.some.injEq] at first
              have present : 0 < Table.size { nodes := [({ name } : Node)] } := by simp [Table.size]
              have same : middle = addLine { nodes := [{ name }] } 0 names := first.symm
              rw [same]
              refine ⟨(fresh name).addLine present,
                (parented_addLine (fresh name) present).mpr ⟨single _, childless name 0⟩, ?_⟩
              rintro line ⟨i, positive, _, _, occupied⟩
              rw [addLine_children present, Function.update_of_ne (by omega)] at occupied
              exact occupied (childless name i)
      obtain ⟨wellFormed, parented, none⟩ := ready
      rw [readLines_parented wellFormed (by omega) remaining distinct, List.tail_cons]
      exact ⟨fun all => all.2.1, fun once => ⟨parented, once, fun line _ => none line⟩⟩

theorem parented_addChild {parent : Nat} {childname : CStr} (present : parent < table.size) :
    Parented (addChild table parent childname) ↔ Parented table := by
  have children : (addChild table parent childname).children = _ := addChild_children present
  constructor
  · intro parented i positive inside
    obtain ⟨other, held⟩ := parented i positive (by rw [addChild_size]; omega)
    rw [children, Forest.addLeaf] at held
    by_cases same : other = parent
    · subst same
      rw [Function.update_self] at held
      rcases List.mem_append.mp held with old | fresh
      · exact ⟨other, old⟩
      · have new := List.mem_singleton.mp fresh
        omega
    · rw [Function.update_of_ne same] at held
      exact ⟨other, held⟩
  · intro parented i positive inside
    rw [addChild_size] at inside
    rw [children]
    by_cases new : i = table.size
    · refine ⟨parent, ?_⟩
      rw [Forest.addLeaf, Function.update_self, new]
      exact List.mem_append_right _ (List.mem_singleton_self _)
    · obtain ⟨other, held⟩ := parented i positive (by omega)
      refine ⟨other, ?_⟩
      rw [Forest.addLeaf]
      by_cases same : other = parent
      · subst same
        rw [Function.update_self]
        exact List.mem_append_left _ held
      · rwa [Function.update_of_ne same]

/-- No request changes whether the list and the tree hold the same regions. -/
theorem Run.parented_iff {history : List Answered} (wellFormed : WellFormed start)
    (run : Run (dispatchCode modulus) start history table) : Parented table ↔ Parented start := by
  induction run with
  | nil => exact Iff.rfl
  | @snoc past state after input output run answered ih =>
      have formed : WellFormed state := Run.wellFormed wellFormed run
      rw [← ih]
      rcases (dispatchCode_step formed.nonempty answered).shape with
        ⟨size, children⟩ | ⟨parent, childname, named, _, rfl⟩
      · rw [Parented, Parented, size, children]
      · exact parented_addChild named.inside

end Listing

/-- The lookup list and the tree agree in every state exactly where the region file does not list
a region again after it gave it children. -/
theorem list_and_tree_agree_iff {modulus : Nat} {file : CStr} {start table : Table}
    {history : List Answered} (created : createDAG file = some start)
    (distinct : start.names.tail.Nodup) (run : Run (dispatchCode modulus) start history table) :
    Agree table ↔ ListedOnce (parentLines file) := by
  have wellFormed := (createDAG_initial created).wellFormed
  rw [agree_iff (Run.wellFormed wellFormed run), Run.parented_iff wellFormed run,
    createDAG_parented created distinct]

theorem list_and_tree_agree_iff_sample :
    Agree (addChild ⟨[{ name := ['R'], children := [1] }, { name := ['A'], children := [2] },
        { name := ['B'] }]⟩ 0 ['C']) ↔
      ListedOnce (parentLines "R:A\nA:B\n".toList) := by
  have run : Run (dispatchCode 0)
      ⟨[{ name := ['R'], children := [1] }, { name := ['A'], children := [2] }, { name := ['B'] }]⟩
      [⟨⟨[{ name := ['R'], children := [1] }, { name := ['A'], children := [2] }, { name := ['B'] }]⟩,
        "AR;R;C".toList, [.regionAdded ['C']]⟩]
      (addChild ⟨[{ name := ['R'], children := [1] }, { name := ['A'], children := [2] },
        { name := ['B'] }]⟩ 0 ['C']) := Run.of_execute ["AR;R;C".toList] (by rfl)
  exact list_and_tree_agree_iff (by decide) (by decide) run

/-- The second line for `A` takes `B` out of the tree. -/
theorem list_and_tree_disagree : ∃ (file : CStr) (start : Table), createDAG file = some start ∧
    start.names.tail.Nodup ∧ ¬ Agree start := by
  refine ⟨"R:A\nA:B\nA:C\n".toList, ⟨[{ name := ['R'], children := [1] },
    { name := ['A'], children := [3] }, { name := ['B'] }, { name := ['C'] }]⟩, by decide,
      by decide, ?_⟩
  intro agree
  obtain ⟨parent, ⟨_, held⟩, _⟩ := agree.parent 2 (by decide) (by decide)
  match parent with
  | 0 => exact absurd held (by decide)
  | 1 => exact absurd held (by decide)
  | 2 => cases held
  | 3 => cases held
  | parent + 4 => cases held

end VoteCounting.Server
