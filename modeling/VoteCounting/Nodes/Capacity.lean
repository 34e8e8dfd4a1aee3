import VoteCounting.Data.Loop
import VoteCounting.Nodes.Parser

namespace VoteCounting.Nodes

open CString Relation

/-- `MAX_NODES`, the length of `visited`. -/
def maxNodes : Nat := 50

/-- The length of `children`; `num_children` is stored right behind it. -/
def maxChildren : Nat := 10

/-- `none` where `children` is left. -/
def boundedCreatTree (names : List CStr) (node : NodeArray) (fathername childname : CStr) :
    Option NodeArray :=
  match index names fathername with
  | none => some node
  | some i =>
      match index names childname with
      | none => some node
      | some j =>
          if (node i).children.length < maxChildren then
            some (Function.update node i { node i with children := (node i).children ++ [j] })
          else none

/-- `none` where `visited` or `children` is left. -/
def boundedAddChild (fathername : CStr) (parse : Parse) (token : CStr) : Option Parse :=
  if parse.visited.length + 1 < maxNodes then
    (boundedCreatTree parse.names parse.node fathername (trimwhitespace token)).map fun node =>
      { parse with visited := parse.visited ++ [trimwhitespaceBuffer token], node := node }
  else none

def boundedInputLine (parse : Parse) (linecounter : Nat) (buf : CStr) : Option Parse :=
  if linecounter < 2 then parseInputLine parse linecounter buf
  else
    let argvp := makeargv buf delim
    (argvp.drop 2).foldlM (boundedAddChild (trimwhitespace (argvp.headD []))) parse

def boundedLines : Nat → Parse → List CStr → Option Parse
  | _, parse, [] => some parse
  | linecounter, parse, buf :: rest =>
      if buf.head? = some '#' then boundedLines linecounter parse rest
      else (boundedInputLine parse linecounter (strcpy buf)).bind fun after =>
        boundedLines (linecounter + 1) after rest

/-- Nothing was written outside the arrays. -/
structure InBounds (parse : Parse) : Prop where
  visited : parse.visited.length < maxNodes
  children : ∀ i, (parse.node i).children.length ≤ maxChildren

section Bounds

variable {names : List CStr} {parse after : Parse} {father child token line : CStr}
  {node next : NodeArray}
  {linecounter : Nat} {lines : List CStr}

theorem InBounds.of_addChild (inBounds : InBounds (addChild father parse token)) : InBounds parse := by
  constructor
  · have longer := inBounds.visited
    simp only [addChild, List.length_append] at longer
    omega
  · intro i
    have longer := inBounds.children i
    simp only [addChild, creatTree_apply, List.length_append] at longer
    omega

theorem boundedCreatTree_eq_some_iff (children : ∀ i, (node i).children.length ≤ maxChildren) :
    boundedCreatTree names node father child = some next ↔
      next = creatTree names node father child ∧ ∀ i, (next i).children.length ≤ maxChildren := by
  have same : some node = some next ↔ next = node ∧ ∀ i, (next i).children.length ≤ maxChildren := by
    rw [Option.some.injEq]
    exact ⟨fun equal => ⟨equal.symm, equal ▸ children⟩, fun both => both.1.symm⟩
  rw [boundedCreatTree, creatTree]
  cases index names father with
  | none => exact same
  | some i =>
      cases index names child with
      | none => exact same
      | some j =>
          simp only
          split
          · rename_i room
            rw [Option.some.injEq]
            refine ⟨fun equal => ⟨equal.symm, fun k => ?_⟩, fun both => both.1.symm⟩
            rw [← equal, Function.update_apply]
            split
            · simp only [List.length_append, List.length_singleton]
              omega
            · exact children k
          · rename_i full
            refine iff_of_false (by simp) ?_
            rintro ⟨rfl, within⟩
            have longer := within i
            simp only [Function.update_self, List.length_append, List.length_singleton] at longer
            omega

theorem boundedAddChild_eq_some_iff (inBounds : InBounds parse) :
    boundedAddChild father parse token = some after ↔ after = addChild father parse token ∧
      InBounds after := by
  rw [boundedAddChild, addChild]
  split
  · rename_i room
    simp only [Option.map_eq_some_iff, boundedCreatTree_eq_some_iff inBounds.children]
    constructor
    · rintro ⟨_, ⟨rfl, children⟩, rfl⟩
      exact ⟨rfl, by simpa using room, children⟩
    · rintro ⟨rfl, within⟩
      exact ⟨_, ⟨rfl, within.children⟩, rfl⟩
  · rename_i full
    refine iff_of_false (by simp) ?_
    rintro ⟨rfl, within⟩
    have longer := within.visited
    simp only [List.length_append, List.length_singleton] at longer
    omega

/-- The candidates and the regions take no place in the arrays. -/
theorem InBounds.parseInputLine_early (inBounds : InBounds parse) (early : linecounter < 2)
    (read : parseInputLine parse linecounter line = some after) : InBounds after := by
  have visited := inBounds.visited
  have children := inBounds.children
  rw [parseInputLine] at read
  split_ifs at read
  · obtain rfl := Option.some.inj read
    exact ⟨visited, children⟩
  · obtain rfl := Option.some.inj read
    exact ⟨visited, fun i => by simp⟩
  · omega

/-- A line leaves the arrays exactly where they are too short for what it adds. -/
theorem boundedInputLine_eq_some_iff (inBounds : InBounds parse) :
    boundedInputLine parse linecounter line = some after ↔
      parseInputLine parse linecounter line = some after ∧ InBounds after := by
  by_cases early : linecounter < 2
  · rw [boundedInputLine, if_pos early]
    exact ⟨fun read => ⟨read, inBounds.parseInputLine_early early read⟩, And.left⟩
  · have notFirst : linecounter ≠ 0 := by omega
    have notSecond : linecounter ≠ 1 := by omega
    simp only [boundedInputLine, parseInputLine, if_neg early, if_neg notFirst, if_neg notSecond]
    rw [Loop.foldlM_guarded (fun _ _ => InBounds.of_addChild) boundedAddChild_eq_some_iff inBounds,
      Option.some.injEq, eq_comm]

/-- The lines of children only add. -/
theorem InBounds.of_readLines (later : 2 ≤ linecounter)
    (read : readLines linecounter parse lines = some after)
    (inBounds : InBounds after) : InBounds parse := by
  induction lines generalizing linecounter parse with
  | nil =>
      obtain rfl := Option.some.inj read
      exact inBounds
  | cons line rest ih =>
      rw [readLines] at read
      split at read
      · exact ih later read
      · rw [parseInputLine_later later, Option.bind_some] at read
        have longer := ih (by omega) read
        constructor
        · have visited := longer.visited
          simp only [List.length_append] at visited
          omega
        · intro i
          have children := longer.children i
          simp only [List.length_append] at children
          omega

/-- The arrays are not left exactly where the parser's result fits into them. -/
theorem boundedLines_eq_some_iff (inBounds : InBounds parse) :
    boundedLines linecounter parse lines = some after ↔
    readLines linecounter parse lines = some after ∧ InBounds after := by
  induction lines generalizing linecounter parse with
  | nil =>
      rw [boundedLines, readLines]
      refine ⟨fun same => ⟨same, ?_⟩, And.left⟩
      obtain rfl := Option.some.inj same
      exact inBounds
  | cons line rest ih =>
      rw [boundedLines, readLines]
      split
      · exact ih inBounds
      · simp only [Option.bind_eq_some_iff, boundedInputLine_eq_some_iff inBounds]
        constructor
        · rintro ⟨middle, ⟨first, fits⟩, remaining⟩
          obtain ⟨read, within⟩ := (ih fits).mp remaining
          exact ⟨⟨middle, first, read⟩, within⟩
        · rintro ⟨⟨middle, first, read⟩, within⟩
          have fits : InBounds middle := by
            by_cases early : linecounter < 2
            · exact inBounds.parseInputLine_early early first
            · exact .of_readLines (by omega) read within
          exact ⟨middle, ⟨first, fits⟩, (ih fits).mpr ⟨read, within⟩⟩

end Bounds

/-- The pairs of parent and child, without the blank tokens. -/
def branches (lines : List CStr) : List (CStr × CStr) := (declared lines).filter (·.2 ≠ [])

/-- The children the line of a region declares. -/
def childrenOf (lines : List CStr) (region : CStr) : List CStr :=
  ((branches lines).filter (·.1 = region)).map Prod.snd

/-- At most `MAX_NODES` regions, whose lines form a tree rooted at `Who_Won`. -/
structure TreeFile (lines : List CStr) : Prop where
  leads : Leads lines
  distinct : (regionNames lines).Nodup
  few : (regionNames lines).length ≤ maxNodes
  rooted : whoWon ∈ regionNames lines
  listed : ∀ {parent child}, (parent, child) ∈ branches lines →
    parent ∈ regionNames lines ∧ child ∈ regionNames lines
  parentless : ∀ parent, (parent, whoWon) ∉ branches lines
  single : ∀ {parent other child}, (parent, child) ∈ branches lines → (other, child) ∈ branches lines →
    parent = other
  reached : ∀ {parent child}, (parent, child) ∈ branches lines →
    ReflTransGen (fun parent child => (parent, child) ∈ branches lines) whoWon parent
  once : (branches lines).Nodup

/-- Where the tree fits into the arrays. -/
structure Fits (lines : List CStr) : Prop where
  /-- No region has more children than `children` has entries. -/
  children : ∀ region, (childrenOf lines region).length ≤ maxChildren
  /-- `visited` has an entry for each token, the blank ones too. -/
  visited : ((childLines lines).flatMap childTokens).length < maxNodes
  /-- Where a region without a name is listed, no region has a blank token for a child. -/
  nameless : [] ∈ regionNames lines → ∀ region ∈ regionNames lines, (region, []) ∉ declared lines

section Trees

variable {lines : List CStr} {region : CStr} {i : Nat}

/-- Without blank tokens `visited` is long enough for a tree. -/
theorem TreeFile.branches_lt (tree : TreeFile lines) : (branches lines).length < maxNodes := by
  have unique : ((branches lines).map Prod.snd).Nodup :=
    tree.once.map_on fun first held second alsoHeld same => by
      obtain ⟨parent, child⟩ := first
      obtain ⟨other, again⟩ := second
      obtain rfl : child = again := same
      rw [tree.single held alsoHeld]
  have inside : (branches lines).map Prod.snd ⊆ (regionNames lines).erase whoWon := by
    intro child member
    obtain ⟨⟨parent, child⟩, held, rfl⟩ := List.mem_map.mp member
    rw [tree.distinct.mem_erase_iff]
    refine ⟨fun root => tree.parentless parent (root ▸ held), (tree.listed held).2⟩
  have length := (unique.subperm inside).length_le
  rw [List.length_map, List.length_erase_of_mem tree.rooted] at length
  have some := List.length_pos_of_mem tree.rooted
  have few := tree.few
  omega

theorem index_eq_iff_of_nodup {names : List CStr} {name : CStr} (distinct : names.Nodup) :
    index names name = some i ↔ names[i]? = some name := by
  rw [index_eq_some_iff, and_iff_left_iff_imp]
  intro found k earlier again
  have inside := (List.getElem?_eq_some_iff.mp again).1
  have same := (List.getElem?_inj inside distinct).mp (again.trans found.symm)
  omega

/-- The indices of a node are those of the children of its region. -/
theorem map_childIndices {names : List CStr} {pairs : List (CStr × CStr)} (distinct : names.Nodup)
    (found : names[i]? = some region) (listed : ∀ pair ∈ pairs, pair.2 ∈ names) :
    (childIndices names pairs i).map (names[·]?) =
      ((pairs.filter (·.1 = region)).map Prod.snd).map some := by
  induction pairs with
  | nil => rfl
  | cons pair rest ih =>
      rw [childIndices_cons, List.map_append, ih fun pair member =>
        listed pair (List.mem_cons_of_mem _ member)]
      have own : index names pair.1 = some i ↔ pair.1 = region := by
        rw [index_eq_iff_of_nodup distinct, found, Option.some.injEq, eq_comm]
      obtain ⟨j, child⟩ :=
        Option.isSome_iff_exists.mp (index_isSome.mpr (listed pair List.mem_cons_self))
      by_cases parent : pair.1 = region
      · have one : childIndices names [pair] i = [j] := by
          simp only [childIndices, List.filterMap_cons, List.filterMap_nil, own.mpr parent,
            if_true, child]
        simp [one, parent, (index_eq_some_iff.mp child).1]
      · simp [childIndices, mt own.mp parent, parent]

/-- Every region gets the children of its line exactly where no nameless one is added. -/
theorem TreeFile.children_iff (tree : TreeFile lines) :
    (∀ i region, (regionNames lines)[i]? = some region →
      (childIndices (regionNames lines) (declared lines) i).map ((regionNames lines)[·]?) =
        (childrenOf lines region).map some) ↔
      ([] ∈ regionNames lines → ∀ region ∈ regionNames lines, (region, []) ∉ declared lines) := by
  have sublist : (branches lines).Sublist (declared lines) := List.filter_sublist
  have named : (declared lines).filter (·.2 ≠ []) = (branches lines).filter (·.2 ≠ []) := by
    rw [branches, List.filter_filter]
    simp
  have none : ∀ region, (branches lines).count (region, []) = 0 := by
    intro region
    rw [List.count_eq_zero, branches]
    simp
  have kids := childIndices_eq_iff (regionNames lines) sublist named
  simp only [none, List.count_eq_zero] at kids
  have own : ∀ i region, (regionNames lines)[i]? = some region →
      (childIndices (regionNames lines) (branches lines) i).map ((regionNames lines)[·]?) =
        (childrenOf lines region).map some :=
    fun i region found => map_childIndices tree.distinct found fun pair member => (tree.listed member).2
  rw [← kids]
  constructor
  · intro equal i
    cases found : (regionNames lines)[i]? with
    | none =>
        have outside := List.getElem?_eq_none_iff.mp found
        rw [childIndices_outside outside, childIndices_outside outside]
    | some region =>
        have length := congrArg List.length ((equal i region found).trans (own i region found).symm)
        rw [List.length_map, List.length_map] at length
        exact ((sublist.filterMap _).eq_of_length length.symm).symm
  · intro equal i region found
    rw [equal i]
    exact own i region found

end Trees

/-- A tree of a root and its children is one. -/
theorem treeFile_of_star {lines : List CStr} (leads : Leads lines)
    (distinct : (regionNames lines).Nodup)
    (few : (regionNames lines).length ≤ maxNodes) (rooted : whoWon ∈ regionNames lines)
    (star : ∀ pair ∈ branches lines, pair.1 = whoWon ∧ pair.2 ∈ regionNames lines ∧ pair.2 ≠ whoWon)
    (once : (branches lines).Nodup) : TreeFile lines where
  leads := leads
  distinct := distinct
  few := few
  rooted := rooted
  listed held := by
    obtain ⟨rfl, known, _⟩ := star _ held
    exact ⟨rooted, known⟩
  parentless _ held := (star _ held).2.2 rfl
  single first second := (star _ first).1.trans (star _ second).1.symm
  reached held := by
    obtain ⟨rfl, _⟩ := star _ held
    exact .refl
  once := once

/-- The parser of a tree stays in its arrays and stores the children, exactly where the tree
fits. -/
theorem boundedLines_tree_iff {text : List Char} (tree : TreeFile (getlines text)) :
    (∃ parse, boundedLines 0 {} (getlines text) = some parse ∧
      ∀ i region, (regionNames (getlines text))[i]? = some region →
        (parse.node i).children.map ((regionNames (getlines text))[·]?) =
          (childrenOf (getlines text) region).map some) ↔
      Fits (getlines text) := by
  have start : InBounds {} := ⟨by decide, fun i => by simp⟩
  have visited : (outcome (getlines text)).visited.length =
      ((childLines (getlines text)).flatMap childTokens).length := List.length_map _
  simp only [boundedLines_eq_some_iff start, readLines_eq tree.leads, Option.some.injEq]
  constructor
  · rintro ⟨_, ⟨rfl, inBounds⟩, equal⟩
    refine ⟨fun region => ?_, visited ▸ inBounds.visited, tree.children_iff.mp equal⟩
    by_cases known : region ∈ regionNames (getlines text)
    · obtain ⟨i, found⟩ := List.mem_iff_getElem?.mp known
      have length := congrArg List.length (equal i region found)
      rw [List.length_map, List.length_map] at length
      exact length ▸ inBounds.children i
    · have none : (branches (getlines text)).filter (·.1 = region) = [] := by
        rw [List.filter_eq_nil_iff]
        rintro ⟨parent, child⟩ held
        have parentKnown := (tree.listed held).1
        simpa using fun same : parent = region => known (same ▸ parentKnown)
      rw [childrenOf, none]
      simp
  · intro fits
    have equal := tree.children_iff.mpr fits.nameless
    refine ⟨_, ⟨rfl, visited ▸ fits.visited, fun i => ?_⟩, equal⟩
    cases found : (regionNames (getlines text))[i]? with
    | none =>
        have nothing : ((outcome (getlines text)).node i).children = [] :=
          childIndices_outside (List.getElem?_eq_none_iff.mp found)
        rw [nothing]
        simp
    | some region =>
        have length := congrArg List.length (equal i region found)
        rw [List.length_map, List.length_map] at length
        exact (length ▸ fits.children region :)

def treeFile : List Char := "1 X\nWho_Won A B\nWho_Won : A B\n".toList

theorem boundedLines_tree_iff_sample :
    (∃ parse, boundedLines 0 {} (getlines treeFile) = some parse ∧
      ∀ i region, (regionNames (getlines treeFile))[i]? = some region →
        (parse.node i).children.map ((regionNames (getlines treeFile))[·]?) =
          (childrenOf (getlines treeFile) region).map some) ↔
      Fits (getlines treeFile) :=
  boundedLines_tree_iff <|
    treeFile_of_star (by decide) (by decide) (by decide) (by decide) (by decide) (by decide)

/-- `Who_Won` with eleven children. -/
def wideFile : List Char :=
  "1 X\nWho_Won A B C D E F G H I J K\nWho_Won : A B C D E F G H I J K\n".toList

/-- The index of the eleventh child is written behind the array. -/
theorem eleventh_child_outside :
    TreeFile (getlines wideFile) ∧ boundedLines 0 {} (getlines wideFile) = none := by
  refine ⟨treeFile_of_star (by decide) (by decide) (by decide) (by decide) (by decide) (by decide), ?_⟩
  rw [Option.eq_none_iff_forall_ne_some]
  intro parse read
  have children := ((boundedLines_eq_some_iff ⟨by decide, fun i => by simp⟩).mp read).2.children 0
  have same := ((boundedLines_eq_some_iff ⟨by decide, fun i => by simp⟩).mp read).1
  rw [readLines_eq (by decide), Option.some.injEq] at same
  rw [← same] at children
  revert children
  decide

end VoteCounting.Nodes
