import VoteCounting.Strings
import VoteCounting.Nodes.Root

namespace VoteCounting.Nodes

open CString

/-! The parser of the region file: the candidates, the regions, then one line for each region
with children.

`numofnodes` is taken to keep the number of regions from one line to the next, and arrays are
taken to be large enough.
-/

structure Parse where
  numCan : CStr := []
  canNames : List CStr := []
  /-- `visited` from its second entry on. -/
  visited : List CStr := []
  /-- The names of the first `numofnodes` nodes. -/
  names : List CStr := []
  node : NodeArray := fun _ => {}

def delim : List Char := [' ', '\t']

def makeargv (s : CStr) (delimiters : List Char) : List CStr := words delimiters.contains s

/-- The first node of this name. -/
def index (names : List CStr) (name : CStr) : Option Nat := names.findIdx? (· == name)

def creatTree (names : List CStr) (node : NodeArray) (fathername childname : CStr) : NodeArray :=
  match index names fathername with
  | none => node
  | some i =>
      match index names childname with
      | none => node
      | some j => Function.update node i { node i with children := (node i).children ++ [j] }

/-- `visited` holds the token itself, which is trimmed in its buffer. -/
def addChild (fathername : CStr) (parse : Parse) (token : CStr) : Parse :=
  { parse with
    visited := parse.visited ++ [trimwhitespaceBuffer token]
    node := creatTree parse.names parse.node fathername (trimwhitespace token) }

/-- `none` where the program exits. -/
def parseInputLine (parse : Parse) (linecounter : Nat) (buf : CStr) : Option Parse :=
  let argvp := makeargv buf delim
  if linecounter = 0 then
    if buf.head?.any Char.isDigit then
      some { parse with
        numCan := argvp.headD []
        canNames := makeargv (argvp.tail.flatMap (· ++ [' '])) [' '] }
    else none
  else if linecounter = 1 then
    some { parse with names := argvp.map trimwhitespace, node := fun _ => {} }
  else some ((argvp.drop 2).foldl (addChild (trimwhitespace (argvp.headD []))) parse)

/-- The loop over the lines.  Comments are not counted, and empty lines are. -/
def readLines : Nat → Parse → List CStr → Option Parse
  | _, parse, [] => some parse
  | linecounter, parse, buf :: rest =>
      if buf.head? = some '#' then readLines linecounter parse rest
      else (parseInputLine parse linecounter (strcpy buf)).bind fun after =>
        readLines (linecounter + 1) after rest

def findDAGLoop (visited : List CStr) : Int :=
  if (List.range visited.length).any fun i => (List.range visited.length).any fun ii =>
    visited[i]? == visited[ii]? && i != ii
  then 1 else 0

def whoWon : CStr := "Who_Won".toList

def initDescendants (numofnodes : Nat) (node : NodeArray) : NodeArray := fun i =>
  if i < numofnodes then { node i with numDescendant := (node i).children.length } else node i

/-- `none` where the program exits. -/
def parseInput (text : List Char) : Option Parse :=
  (readLines 0 {} (getlines text)).bind fun parse =>
    if parse.names.length < 2 then none
    else if findDAGLoop (whoWon :: parse.visited) = 1 then none
    else some { parse with node := initDescendants parse.names.length parse.node }

def argv (line : CStr) : List CStr := makeargv (strcpy line) delim

def dataLines (lines : List CStr) : List CStr := lines.filter fun buf => buf.head? ≠ some '#'

/-- The lines behind the candidates and the regions. -/
def childLines (lines : List CStr) : List CStr := (dataLines lines).drop 2

def regionNames (lines : List CStr) : List CStr :=
  (((dataLines lines)[1]?.map argv).getD []).map trimwhitespace

/-- The children a line names; the second word is skipped. -/
def childTokens (line : CStr) : List CStr := (argv line).drop 2

/-- The pairs of parent and child. -/
def edges (line : CStr) : List (CStr × CStr) :=
  (childTokens line).map fun token => (trimwhitespace ((argv line).headD []), trimwhitespace token)

def declared (lines : List CStr) : List (CStr × CStr) := (childLines lines).flatMap edges

/-- The children of node `i`. -/
def childIndices (names : List CStr) (pairs : List (CStr × CStr)) (i : Nat) : List Nat :=
  pairs.filterMap fun pair => if index names pair.1 = some i then index names pair.2 else none

/-- The file does not begin with anything but the number of candidates. -/
def Leads (lines : List CStr) : Prop :=
  (dataLines lines).head?.all fun line => (strcpy line).head?.any Char.isDigit

instance (lines : List CStr) : Decidable (Leads lines) := inferInstanceAs (Decidable (_ = true))

def outcome (lines : List CStr) : Parse where
  numCan := (((dataLines lines).head?.map argv).getD []).headD []
  canNames := makeargv ((((dataLines lines).head?.map argv).getD []).tail.flatMap (· ++ [' '])) [' ']
  visited := ((childLines lines).flatMap childTokens).map trimwhitespaceBuffer
  names := regionNames lines
  node i := { children := childIndices (regionNames lines) (declared lines) i }

section Reading

variable {lines rest : List CStr} {line name father : CStr} {names tokens : List CStr}
  {parse after : Parse}
  {pairs more : List (CStr × CStr)} {i linecounter : Nat} {text : List Char}

theorem index_eq_some_iff : index names name = some i ↔
    names[i]? = some name ∧ ∀ k < i, names[k]? ≠ some name := by
  rw [index, List.findIdx?_eq_some_iff_getElem]
  constructor
  · intro ⟨inside, same, before⟩
    refine ⟨by rw [List.getElem?_eq_getElem inside]; simpa using same, fun k earlier found => ?_⟩
    have short : k < names.length := by omega
    rw [List.getElem?_eq_getElem short, Option.some.injEq] at found
    exact before k earlier (by simpa using found)
  · intro ⟨found, before⟩
    obtain ⟨inside, same⟩ := List.getElem?_eq_some_iff.mp found
    refine ⟨inside, by simpa using same, fun k earlier => ?_⟩
    have short : k < names.length := by omega
    have other := before k earlier
    rw [List.getElem?_eq_getElem short] at other
    simpa using other

theorem index_isSome : (index names name).isSome ↔ name ∈ names := by
  rw [index, List.findIdx?_isSome, List.any_eq_true]
  simp

theorem index_lt (found : index names name = some i) : i < names.length :=
  (List.getElem?_eq_some_iff.mp (index_eq_some_iff.mp found).1).1

theorem childIndices_append :
    childIndices names (pairs ++ more) i = childIndices names pairs i ++ childIndices names more i :=
  List.filterMap_append

theorem childIndices_cons (pair : CStr × CStr) :
    childIndices names (pair :: pairs) i = childIndices names [pair] i ++
      childIndices names pairs i := by
  rw [← childIndices_append, List.singleton_append]

theorem creatTree_apply (child : CStr) (node : NodeArray) : creatTree names node father child i =
    { node i with children := (node i).children ++ childIndices names [(father, child)] i } := by
  rw [creatTree]
  simp only [childIndices, List.filterMap_cons, List.filterMap_nil]
  cases found : index names father with
  | none => simp
  | some k =>
      by_cases same : k = i
      · subst same
        cases index names child <;> simp
      · have other : i ≠ k := Ne.symm same
        cases index names child <;> simp [same, other]

/-- The tokens of one line. -/
theorem foldl_addChild : tokens.foldl (addChild father) parse =
    { parse with
      visited := parse.visited ++ tokens.map trimwhitespaceBuffer
      node := fun i => { parse.node i with
        children := (parse.node i).children ++
          childIndices parse.names (tokens.map fun token => (father, trimwhitespace token)) i } } := by
  induction tokens generalizing parse with
  | nil => simp [childIndices]
  | cons token rest ih =>
      rw [List.foldl_cons, ih, addChild]
      simp only [creatTree_apply, List.map_cons, List.append_assoc, List.singleton_append]
      congr 1
      funext i
      rw [← childIndices_cons]

theorem parseInputLine_later (later : 2 ≤ linecounter) :
    parseInputLine parse linecounter (strcpy line) = some { parse with
      visited := parse.visited ++ (childTokens line).map trimwhitespaceBuffer
      node := fun i => { parse.node i with
        children := (parse.node i).children ++ childIndices parse.names (edges line) i } } := by
  have notFirst : linecounter ≠ 0 := by omega
  have notSecond : linecounter ≠ 1 := by omega
  simp only [parseInputLine, if_neg notFirst, if_neg notSecond, foldl_addChild]
  rfl

theorem readLines_dataLines :
    readLines linecounter parse lines = readLines linecounter parse (dataLines lines) := by
  induction lines generalizing linecounter parse with
  | nil => rfl
  | cons line rest ih =>
      rw [readLines]
      split
      · rename_i comment
        rw [ih, dataLines, dataLines, List.filter_cons_of_neg (by simp [comment])]
      · rename_i data
        rw [dataLines, List.filter_cons_of_pos (by simpa using data), readLines, if_neg data]
        congr 1
        funext after
        exact ih

theorem readLines_later (later : 2 ≤ linecounter) (data : ∀ line ∈ lines, line.head? ≠ some '#') :
    readLines linecounter parse lines = some { parse with
      visited := parse.visited ++ (lines.flatMap childTokens).map trimwhitespaceBuffer
      node := fun i => { parse.node i with
        children :=
          (parse.node i).children ++ childIndices parse.names (lines.flatMap edges) i } } := by
  induction lines generalizing linecounter parse with
  | nil => simp [readLines, childIndices]
  | cons line rest ih =>
      rw [readLines, if_neg (data line List.mem_cons_self), parseInputLine_later later,
        Option.bind_some, ih (by omega) fun line member => data line (List.mem_cons_of_mem _ member)]
      simp [childIndices_append]

theorem mem_dataLines (member : line ∈ dataLines lines) : line.head? ≠ some '#' := by
  simpa using List.of_mem_filter member

/-- The parser reads what the lines say. -/
theorem readLines_eq (leads : Leads lines) : readLines 0 {} lines = some (outcome lines) := by
  have data : ∀ line ∈ dataLines lines, line.head? ≠ some '#' := fun line member => mem_dataLines member
  rw [readLines_dataLines, outcome, regionNames, declared, childLines]
  cases whole : dataLines lines with
  | nil => rfl
  | cons first rest =>
      rw [whole] at data
      have digit : (strcpy first).head?.any Char.isDigit := by simpa [Leads, whole] using leads
      have firstData := data first List.mem_cons_self
      rw [readLines, if_neg firstData, parseInputLine]
      simp only [digit, if_true, Option.bind_some]
      cases rest with
      | nil => rfl
      | cons second rest =>
          have secondData := data second (by simp)
          have others : ∀ line ∈ rest, line.head? ≠ some '#' :=
            fun line member => data line (by simp [member])
          rw [readLines, if_neg secondData, parseInputLine]
          simp only [Nat.zero_add, one_ne_zero, if_false, if_true, Option.bind_some]
          rw [readLines_later (by omega) others]
          simp [argv]

theorem readLines_eq_none (notLeads : ¬ Leads lines) : readLines 0 {} lines = none := by
  rw [readLines_dataLines]
  cases whole : dataLines lines with
  | nil => simp [Leads, whole] at notLeads
  | cons first rest =>
      have data : first.head? ≠ some '#' := mem_dataLines (whole ▸ List.mem_cons_self)
      have noDigit : (strcpy first).head?.any Char.isDigit = false := by
        simpa [Leads, whole] using notLeads
      rw [readLines, if_neg data, parseInputLine]
      simp [noDigit]

theorem findDAGLoop_eq_zero_iff {visited : List CStr} : findDAGLoop visited = 0 ↔ visited.Nodup := by
  rw [findDAGLoop, List.nodup_iff_getElem?_ne_getElem?]
  split
  · rename_i found
    simp only [List.any_eq_true, List.mem_range, Bool.and_eq_true, beq_iff_eq, bne_iff_ne] at found
    obtain ⟨i, inside, ii, alsoInside, same, different⟩ := found
    refine iff_of_false one_ne_zero fun unique => ?_
    rcases Nat.lt_or_gt_of_ne different with before | before
    · exact unique i ii before alsoInside same
    · exact unique ii i before inside same.symm
  · rename_i none
    simp only [List.any_eq_true, List.mem_range, Bool.and_eq_true, beq_iff_eq, bne_iff_ne] at none
    refine iff_of_true rfl fun i ii before inside same => none ?_
    exact ⟨i, by omega, ii, inside, same, by omega⟩

theorem findDAGLoop_cases (visited : List CStr) :
    findDAGLoop visited = 0 ∨ findDAGLoop visited = 1 := by
  rw [findDAGLoop]
  split
  · exact .inr rfl
  · exact .inl rfl

theorem findDAGLoop_eq_one_iff {visited : List CStr} : findDAGLoop visited = 1 ↔ ¬ visited.Nodup := by
  rw [← findDAGLoop_eq_zero_iff]
  rcases findDAGLoop_cases visited with zero | one
  · simp [zero]
  · simp [one]

/-- What an accepted file is. -/
structure Accepted (lines : List CStr) : Prop where
  leads : Leads lines
  regions : 2 ≤ (regionNames lines).length
  unique : (whoWon :: (outcome lines).visited).Nodup

theorem childIndices_outside (outside : names.length ≤ i) : childIndices names pairs i = [] := by
  rw [childIndices, List.filterMap_eq_nil_iff]
  intro pair _
  rw [if_neg]
  intro found
  have inside := index_lt found
  omega

/-- The children of a node are counted by the pairs. -/
theorem length_childIndices : (childIndices names pairs i).length =
    pairs.countP fun pair => index names pair.1 = some i ∧ pair.2 ∈ names := by
  rw [childIndices, List.length_filterMap_eq_countP]
  refine List.countP_congr fun pair _ => ?_
  by_cases own : index names pair.1 = some i
  · simp [own, index_isSome]
  · simp [own]

/-- A child without a name is nobody's where no region is without one. -/
theorem childIndices_named (noEmpty : [] ∉ names) :
    childIndices names (pairs.filter (·.2 ≠ [])) i = childIndices names pairs i := by
  have none : index names [] = none := by
    rw [← Option.not_isSome_iff_eq_none, index_isSome]
    exact noEmpty
  rw [childIndices, childIndices, List.filterMap_filter]
  refine List.filterMap_congr fun pair _ => ?_
  by_cases empty : pair.2 = []
  · simp [empty, none]
  · simp [empty]

/-- Nameless children more or less show where a region without a name is listed. -/
theorem childIndices_eq_iff (names : List CStr) (sublist : pairs.Sublist more)
    (named : more.filter (·.2 ≠ []) = pairs.filter (·.2 ≠ [])) :
    (∀ i, childIndices names more i = childIndices names pairs i) ↔
      ([] ∈ names → ∀ parent ∈ names, more.count (parent, []) = pairs.count (parent, [])) := by
  by_cases empty : [] ∈ names
  · have split : ∀ (pairs : List (CStr × CStr)) {i : Nat} {parent : CStr}, index names parent = some i →
        (childIndices names pairs i).length =
          (childIndices names (pairs.filter (·.2 ≠ [])) i).length + pairs.count (parent, []) := by
      intro pairs i parent found
      rw [length_childIndices, length_childIndices, List.countP_eq_countP_filter_add pairs _
        (·.2 ≠ []), List.count, List.countP_filter, List.countP_filter]
      refine congrArg _ (List.countP_congr fun pair _ => ?_)
      obtain ⟨name, child⟩ := pair
      have same : index names name = some i ↔ name = parent := by
        refine ⟨fun own => ?_, fun equal => equal ▸ found⟩
        have first := (index_eq_some_iff.mp own).1
        rw [(index_eq_some_iff.mp found).1, Option.some.injEq] at first
        exact first.symm
      by_cases nameless : child = []
      · simp [nameless, same, empty]
      · simp [nameless]
    simp only [empty, true_imp_iff]
    constructor
    · intro equal parent listed
      obtain ⟨i, found⟩ := Option.isSome_iff_exists.mp (index_isSome.mpr listed)
      have before := split pairs found
      have after := split more found
      rw [equal i, named] at after
      omega
    · intro equal i
      by_cases listed : ∃ parent, index names parent = some i
      · obtain ⟨parent, found⟩ := listed
        have inside : parent ∈ names := index_isSome.mp (found ▸ rfl)
        refine ((sublist.filterMap _).eq_of_length ?_).symm
        have before := split pairs found
        have after := split more found
        rw [named, equal parent inside] at after
        exact before.trans after.symm
      · rw [not_exists] at listed
        simp [childIndices, listed]
  · refine iff_of_true (fun i => ?_) fun listed => absurd listed empty
    rw [← childIndices_named empty, named, childIndices_named empty]

theorem parseInput_eq_some_iff : parseInput text = some parse ↔ Accepted (getlines text) ∧
    parse = { outcome (getlines text) with node := fun i =>
      { children := childIndices (regionNames (getlines text)) (declared (getlines text)) i
        numDescendant :=
          (childIndices (regionNames (getlines text)) (declared (getlines text)) i).length } } := by
  by_cases leads : Leads (getlines text)
  · have node :
      initDescendants (regionNames (getlines text)).length (outcome (getlines text)).node = fun i =>
        { children := childIndices (regionNames (getlines text)) (declared (getlines text)) i
          numDescendant :=
            (childIndices (regionNames (getlines text)) (declared (getlines text)) i).length } := by
      funext i
      rw [initDescendants]
      split
      · rfl
      · rename_i outside
        have none : childIndices (regionNames (getlines text)) (declared (getlines text)) i = [] :=
          childIndices_outside (by omega)
        simp [outcome, none]
    have names : (outcome (getlines text)).names = regionNames (getlines text) := rfl
    rw [parseInput, readLines_eq leads, Option.bind_some, names]
    split
    · rename_i few
      exact iff_of_false (by simp) fun ⟨accepted, _⟩ => absurd accepted.regions (by omega)
    · rename_i many
      split
      · rename_i loop
        exact iff_of_false (by simp) fun ⟨accepted, _⟩ => findDAGLoop_eq_one_iff.mp loop accepted.unique
      · rename_i noLoop
        have unique := not_not.mp (mt findDAGLoop_eq_one_iff.mpr noLoop)
        rw [node, Option.some.injEq, eq_comm, and_iff_right ⟨leads, by omega, unique⟩]
        exact Iff.rfl
  · rw [parseInput, readLines_eq_none leads]
    exact iff_of_false (by simp) fun ⟨accepted, _⟩ => leads accepted.leads

end Reading

end VoteCounting.Nodes
