import VoteCounting.Threads.Aggregate
import VoteCounting.Data.Walk

namespace VoteCounting.Threads

open Counters CString Relation Walk

/-! The recursion of `aggregate` from a region up to the root.

A name may be listed below several headings.  `getPath` goes by the last of them, which may lie
below the name itself.
-/

/-- The names one line lists, each with the heading of the line. -/
def declarations (buf : CStr) : List (CStr × CStr) :=
  if buf.head? = some '#' then []
  else
    match makeargv buf ':' with
    | [] => []
    | name :: names => names.map fun token => (trimlastenter token, name)

def declared (file : CStr) : List (CStr × CStr) := (getlines file).flatMap declarations

/-- The heading of the last line that lists the name. -/
def heading (file name : CStr) : Option CStr :=
  ((declared file).reverse.find? fun declaration => declaration.1 = name).map Prod.snd

/-- The lines that are no comments. -/
def dataLines (lines : List CStr) : List CStr := lines.filter fun buf => buf.head? ≠ some '#'

def firstHeading (lines : List CStr) : Option CStr :=
  (dataLines lines).head?.bind fun buf => (makeargv buf ':').head?

def rootName (file : CStr) : Option CStr := firstHeading (getlines file)

/-- From every region but the root to the one it is listed below last. -/
def above (file name : CStr) : Option CStr :=
  if rootName file = some name then none else heading file name

/-- The calls of `aggregate` from one of a thread on; `none` if there are more than `calls`. -/
def recursion (nodes : List DirNode) : Nat → Files → Worker → Option Files
  | 0, _, _ => none
  | calls + 1, files, worker =>
      if AtRoot nodes worker then some files
      else
        match aggregate nodes files worker with
        | none => some files
        | some (written, after) => recursion nodes calls written after

/-- The region of the next call, as far as it does not depend on files. -/
def nextName (nodes : List DirNode) (filename : CStr) : Option CStr :=
  if nodes.head?.map DirNode.name = some filename then none
  else (getPath nodes filename).bind getparentname

section Recursion

variable {nodes : List DirNode} {files written : Files} {worker after : Worker} {name : CStr}
  {calls : Nat}

theorem aggregate_filename (called : aggregate nodes files worker = some (written, after)) :
    (getPath nodes worker.filename).bind getparentname = some after.filename := by
  simp only [aggregate, Option.bind_eq_bind, Option.bind_eq_some_iff, Option.pure_def,
    Option.some.injEq, Prod.mk.injEq] at called
  obtain ⟨path, found, _, _, parent, above, _, _, _, _, _, rfl⟩ := called
  rw [found, Option.bind_some, above]

theorem nextName_eq_some {parent : CStr} : nextName nodes name = some parent ↔
    nodes.head?.map DirNode.name ≠ some name ∧
      ∃ path, getPath nodes name = some path ∧ getparentname path = some parent := by
  rw [nextName]
  split
  · rename_i root
    exact ⟨fun step => (by cases step), fun ⟨notRoot, _⟩ => absurd root notRoot⟩
  · rename_i notRoot
    rw [Option.bind_eq_some_iff]
    exact (and_iff_right notRoot).symm

theorem atRoot_iff : AtRoot nodes worker ↔ nodes.head?.map DirNode.name = some worker.filename := by
  simp [AtRoot, eq_comm]

/-- The number of calls does not depend on the files. -/
theorem recursion_isSome (ended : walk (nextName nodes) calls worker.filename = none) :
    (recursion nodes calls files worker).isSome := by
  induction calls generalizing files worker with
  | zero => cases ended
  | succ calls ih =>
      rw [recursion]
      split
      · rfl
      · rename_i notRoot
        split
        · rfl
        · rename_i written after called
          have step : nextName nodes worker.filename = some after.filename := by
            rw [nextName, if_neg fun same => notRoot (atRoot_iff.mpr same), aggregate_filename called]
          rw [walk, step] at ended
          exact ih ended

/-- All files are there and empty. -/
def emptyFiles : Files := fun _ => some []

theorem aggregate_emptyFiles {path parent writePath : CStr} (found : getPath nodes name = some path)
    (above : getparentname path = some parent) (target : getPath nodes parent = some writePath) :
    aggregate nodes emptyFiles ⟨name, []⟩ = some (emptyFiles, ⟨parent, []⟩) := by
  have same : Function.update emptyFiles writePath (some []) = emptyFiles := by
    funext other
    simp [Function.update_apply, emptyFiles]
  have list : countFile [] [] = [] := rfl
  have merged : output [] (emptyFiles writePath) = some [] := rfl
  have read : emptyFiles path = some [] := rfl
  simp only [aggregate, found, above, target, read, list, merged, same, Option.bind_eq_bind,
    Option.bind_some, Option.pure_def]

/-- Where the walk does not end, neither does the recursion if no file is missing. -/
theorem recursion_eq_none (endless : ¬ Ends (nextName nodes) name) :
    recursion nodes calls emptyFiles ⟨name, []⟩ = none := by
  induction calls generalizing name with
  | zero => rfl
  | succ calls ih =>
      obtain ⟨parent, step, onwards⟩ : ∃ parent, nextName nodes name = some parent ∧
          ¬ Ends (nextName nodes) parent := by
        simpa using mt ends_iff.mpr endless
      obtain ⟨notRoot, path, found, above⟩ := nextName_eq_some.mp step
      obtain ⟨_, target⟩ : ∃ target, getPath nodes parent = some target := by
        cases last : nextName nodes parent with
        | none => exact absurd (ends_of_last last) onwards
        | some other =>
            obtain ⟨_, target, foundTarget, _⟩ := nextName_eq_some.mp last
            exact ⟨target, foundTarget⟩
      rw [recursion, if_neg fun root => notRoot (atRoot_iff.mp root),
        aggregate_emptyFiles found above target]
      exact ih onwards

/-- The recursion ends, whatever is in the files, exactly where the walk does. -/
theorem recursion_ends : (∃ calls, ∀ files, (recursion nodes calls files ⟨name, []⟩).isSome) ↔
    Ends (nextName nodes) name := by
  constructor
  · intro ⟨calls, ended⟩
    by_contra endless
    have last := ended emptyFiles
    rw [recursion_eq_none endless] at last
    cases last
  · intro ⟨calls, ended⟩
    exact ⟨calls, fun files => recursion_isSome ended⟩

end Recursion

/-- The region was listed below this heading. -/
structure Listed (nodes : List DirNode) (node : DirNode) (declaration : CStr × CStr) : Prop where
  name : node.name = declaration.1
  heading : declaration.2 ≠ []
  below : ∃ parent ∈ nodes, parent.name = declaration.2 ∧ node.path = makepath parent.path node.name

/-- What the regions are after some lines. -/
structure Built (lines : List CStr) (nodes : List DirNode) : Prop where
  root : nodes.head?.map DirNode.name = firstHeading lines
  fresh : nodes = [] → dataLines lines = []
  listed : List.Forall₂ (Listed nodes) nodes.tail (lines.flatMap declarations)

section Building

variable {outputDir file buf name : CStr} {nodes after more : List DirNode} {lines : List CStr}
  {node : DirNode} {declaration : CStr × CStr}

theorem Listed.mono (listed : Listed nodes node declaration) (kept : nodes ⊆ after) :
    Listed after node declaration := by
  obtain ⟨parent, member, rest⟩ := listed.below
  exact ⟨listed.name, listed.heading, parent, kept member, rest⟩

theorem listed_children {parent : DirNode} (member : parent ∈ nodes) (nonempty : parent.name ≠ [])
    (names : List CStr) :
    List.Forall₂ (Listed nodes) (names.map (createChild parent.path))
      (names.map fun token => (trimlastenter token, parent.name)) := by
  rw [List.forall₂_map_left_iff, List.forall₂_map_right_iff, List.forall₂_same]
  exact fun token _ => ⟨rfl, nonempty, parent, member, rfl, rfl⟩

theorem declarations_comment (comment : buf.head? = some '#') : declarations buf = [] := by
  rw [declarations, if_pos comment]

theorem declarations_line {names : List CStr} (line : buf.head? ≠ some '#')
    (split : makeargv buf ':' = name :: names) :
    declarations buf = names.map fun token => (trimlastenter token, name) := by
  rw [declarations, if_neg line, split]

theorem dataLines_comment (comment : buf.head? = some '#') :
    dataLines (lines ++ [buf]) = dataLines lines := by
  simp [dataLines, comment]

theorem dataLines_line (line : buf.head? ≠ some '#') :
    dataLines (lines ++ [buf]) = dataLines lines ++ [buf] := by
  simp [dataLines, line]

theorem Built.comment (built : Built lines nodes) (comment : buf.head? = some '#') :
    Built (lines ++ [buf]) nodes where
  root := by rw [built.root, firstHeading, firstHeading, dataLines_comment comment]
  fresh empty := by rw [dataLines_comment comment, built.fresh empty]
  listed := by
    rw [List.flatMap_append, List.flatMap_singleton, declarations_comment comment, List.append_nil]
    exact built.listed

/-- The first line. -/
theorem Built.first (built : Built lines []) (line : buf.head? ≠ some '#') {names : List CStr}
    (split : makeargv buf ':' = name :: names) {path : CStr} :
    Built (lines ++ [buf]) (⟨name, path⟩ :: names.map (createChild path)) where
  root := by
    rw [firstHeading, dataLines_line line, built.fresh rfl]
    simp [split]
  fresh empty := by cases empty
  listed := by
    have nothing : lines.flatMap declarations = [] := by simpa using built.listed
    rw [List.flatMap_append, List.flatMap_singleton, nothing, declarations_line line split]
    have nonempty : name ≠ [] := ne_nil_of_mem_tokens (split ▸ List.mem_cons_self)
    have held : (⟨name, path⟩ : DirNode) ∈ ⟨name, path⟩ :: names.map (createChild path) :=
      List.mem_cons_self
    exact listed_children held nonempty names

/-- A later line. -/
theorem Built.later {root parent : DirNode} {rest : List DirNode} (built : Built lines (root :: rest))
    (line : buf.head? ≠ some '#') {names : List CStr} (split : makeargv buf ':' = parent.name :: names)
    (member : parent ∈ rest) :
    Built (lines ++ [buf]) (root :: rest ++ names.map (createChild parent.path)) where
  root := by
    have first := built.root
    rw [firstHeading] at first
    rw [firstHeading, dataLines_line line]
    cases before : dataLines lines with
    | nil =>
        rw [before] at first
        cases first
    | cons head more =>
        rw [before] at first
        exact first
  fresh empty := by cases empty
  listed := by
    rw [List.flatMap_append, List.flatMap_singleton, declarations_line line split]
    have kept : root :: rest ⊆ root :: rest ++ names.map (createChild parent.path) :=
      List.subset_append_left _ _
    have held := kept (List.mem_cons_of_mem _ member)
    have nonempty : parent.name ≠ [] := ne_nil_of_mem_tokens (split ▸ List.mem_cons_self)
    exact List.rel_append (built.listed.imp fun _ _ listed => listed.mono kept)
      (listed_children held nonempty names)

theorem Built.readLine (built : Built lines nodes) (read : readLine outputDir nodes buf = some after) :
    Built (lines ++ [buf]) after := by
  cases readLine_line read with
  | comment comment => exact built.comment comment
  | first line split => exact built.first line split
  | later line split member => exact built.later line split member

theorem createDAG_built (created : createDAG outputDir file = some nodes) :
    Built (getlines file) nodes :=
  Loop.invariant Built ⟨rfl, fun _ => rfl, .nil⟩ (fun _ built read => built.readLine read) created

theorem find_of_listed {declarations : List (CStr × CStr)} {region : List DirNode}
    (listed : List.Forall₂ (Listed nodes) region declarations) (name : CStr) :
    Option.Rel (Listed nodes) (region.find? fun node => node.name = name)
      (declarations.find? fun declaration => declaration.1 = name) := by
  induction listed with
  | nil => exact .none
  | @cons node declaration _ _ first _ ih =>
      rw [List.find?_cons, List.find?_cons, first.name]
      split
      · exact .some first
      · exact ih

theorem find_reverse_tail (notRoot : nodes.head?.map DirNode.name ≠ some name) :
    nodes.reverse.find? (fun node => node.name = name) =
      nodes.tail.reverse.find? fun node => node.name = name := by
  cases nodes with
  | nil => rfl
  | cons root rest =>
      have different : root.name ≠ name := by simpa using notRoot
      rw [List.reverse_cons, List.find?_append, List.tail_cons]
      simp [different]

theorem getparentname_ne_nil {path parent : CStr} (found : getparentname path = some parent) :
    parent ≠ [] := by
  simp only [getparentname] at found
  split at found
  · exact ne_nil_of_mem_tokens (List.mem_of_getElem? found)
  · cases found

theorem Listed.getparentname (listed : Listed nodes node declaration) (placed : Placed outputDir nodes)
    (noSlash : ∀ node ∈ nodes, '/' ∉ node.name) (member : node ∈ nodes) (nonempty : node.name ≠ []) :
    getparentname (filePath node) = some declaration.2 := by
  obtain ⟨parent, held, same, path⟩ := listed.below
  obtain ⟨directory, parentPath⟩ := placed.path_eq held
  have proper : FileName node.name := ⟨nonempty, noSlash node member⟩
  have parentProper : FileName parent.name := ⟨same ▸ listed.heading, noSlash parent held⟩
  rw [getparentname_filePath proper parentProper path parentPath, same]

/-- The code walks from a region to the heading of the last line that lists it. -/
theorem nextName_eq_above (created : createDAG outputDir file = some nodes)
    (noSlash : ∀ node ∈ nodes, '/' ∉ node.name) (nonempty : name ≠ []) :
    nextName nodes name = above file name := by
  have built := createDAG_built created
  rw [nextName, above, rootName, ← built.root]
  split
  · rfl
  · rename_i notRoot
    have listed : List.Forall₂ (Listed nodes) nodes.tail (declared file) := built.listed
    have related := find_of_listed (List.forall₂_reverse_iff.mpr listed) name
    rw [getPath, find_reverse_tail notRoot, heading]
    generalize (declared file).reverse.find? (fun declaration => declaration.1 = name) =
      last at related ⊢
    cases found : nodes.tail.reverse.find? fun node => node.name = name with
    | none =>
        rw [found] at related
        cases related
        rfl
    | some node =>
        obtain ⟨inside, same⟩ := find_reverse found
        rw [found] at related
        cases related with
        | some listed =>
            exact listed.getparentname (createDAG_placed created) noSlash (List.mem_of_mem_tail inside)
              (same ▸ nonempty)

theorem nextName_ne_nil {parent : CStr} (step : nextName nodes name = some parent) : parent ≠ [] := by
  obtain ⟨_, _, _, found⟩ := nextName_eq_some.mp step
  exact getparentname_ne_nil found

theorem ends_nextName_iff (created : createDAG outputDir file = some nodes)
    (noSlash : ∀ node ∈ nodes, '/' ∉ node.name) (nonempty : name ≠ []) :
    Ends (nextName nodes) name ↔ Ends (above file) name :=
  ends_congr (P := (· ≠ [])) (fun _ nonempty => nextName_eq_above created noSlash nonempty)
    (fun _ _ _ step => nextName_ne_nil step) nonempty

theorem heading_eq_some {parent : CStr} (found : heading file name = some parent) :
    (name, parent) ∈ declared file := by
  rw [heading, Option.map_eq_some_iff] at found
  obtain ⟨declaration, last, rfl⟩ := found
  have same : declaration.1 = name := by simpa using List.find?_some last
  rw [← same]
  exact List.mem_reverse.mp (List.mem_of_find?_eq_some last)

theorem above_eq_some {parent : CStr} (step : above file name = some parent) :
    (name, parent) ∈ declared file := by
  rw [above] at step
  split at step
  · cases step
  · exact heading_eq_some step

theorem above_finite (file : CStr) : {name | above file name ≠ none}.Finite := by
  apply ((declared file).map Prod.fst).finite_toSet.subset
  intro name some
  obtain ⟨parent, step⟩ := Option.ne_none_iff_exists'.mp some
  exact List.mem_map.mpr ⟨_, above_eq_some step, rfl⟩

theorem exists_listed {declarations : List (CStr × CStr)} {region : List DirNode}
    (listed : List.Forall₂ (Listed nodes) region declarations) (member : declaration ∈ declarations) :
    ∃ node, Listed nodes node declaration := by
  induction listed with
  | nil => cases member
  | cons first _ ih =>
      rcases List.mem_cons.mp member with rfl | later
      · exact ⟨_, first⟩
      · exact ih later

/-- Every heading above a name is that of a region. -/
theorem region_of_above {parent : CStr} (created : createDAG outputDir file = some nodes)
    (step : above file name = some parent) : parent ≠ [] ∧ ∃ region ∈ nodes, region.name = parent := by
  obtain ⟨node, listed⟩ := exists_listed (createDAG_built created).listed (above_eq_some step)
  obtain ⟨region, member, same, _⟩ := listed.below
  exact ⟨listed.heading, region, member, same⟩

end Building

/-- The recursion ends from every region, whatever is in the files, exactly where nobody who goes
from each region but the root to the heading it is last listed below comes back to a region. -/
theorem recursion_ends_iff {outputDir file : CStr} {nodes : List DirNode}
    (created : createDAG outputDir file = some nodes) (noSlash : ∀ node ∈ nodes, '/' ∉ node.name) :
    (∀ region ∈ nodes, ∃ calls, ∀ files, (recursion nodes calls files ⟨region.name, []⟩).isSome) ↔
      ∀ name, ¬ TransGen (fun below heading => above file below = some heading) name name := by
  have walks : (∀ region ∈ nodes, Ends (nextName nodes) region.name) ↔
      ∀ name, Ends (above file) name := by
    constructor
    · intro ends name
      have proper : ∀ region ∈ nodes, region.name ≠ [] → Ends (above file) region.name :=
        fun region member nonempty => (ends_nextName_iff created noSlash nonempty).mp
          (ends region member)
      refine ends_iff.mpr fun parent step => ?_
      obtain ⟨nonempty, region, member, rfl⟩ := region_of_above created step
      exact proper region member nonempty
    · intro ends region _
      refine ends_iff.mpr fun parent step => ?_
      exact (ends_nextName_iff created noSlash (nextName_ne_nil step)).mpr (ends parent)
  calc (∀ region ∈ nodes, ∃ calls, ∀ files, (recursion nodes calls files ⟨region.name, []⟩).isSome)
      ↔ ∀ region ∈ nodes, Ends (nextName nodes) region.name :=
        forall₂_congr fun region _ => recursion_ends
    _ ↔ ∀ name, Ends (above file) name := walks
    _ ↔ _ := ends_iff_acyclic (above_finite file)

def twoRegions : List DirNode := [⟨['R'], "o/R".toList⟩, ⟨['A'], "o/R/A".toList⟩]

theorem recursion_ends_iff_sample :
    (∀ region ∈ twoRegions, ∃ calls, ∀ files,
      (recursion twoRegions calls files ⟨region.name, []⟩).isSome) ↔
      ∀ name, ¬ TransGen (fun below heading => above "R:A\n".toList below = some heading)
        name name := by
  have created : createDAG ['o'] "R:A\n".toList = some twoRegions := by decide
  exact recursion_ends_iff created (by decide)

/-- The last line lists `A` once more, below `B`, which lies below `A`. -/
theorem recursion_endless : ∃ (outputDir file : CStr) (nodes : List DirNode),
    createDAG outputDir file = some nodes ∧ (∀ node ∈ nodes, '/' ∉ node.name) ∧
      ∃ region ∈ nodes, ∀ calls, recursion nodes calls emptyFiles ⟨region.name, []⟩ = none := by
  let nodes : List DirNode :=
    [⟨['R'], "o/R".toList⟩, ⟨['A'], "o/R/A".toList⟩, ⟨['B'], "o/R/A/B".toList⟩,
      ⟨['A'], "o/R/A/B/A".toList⟩]
  have endless : ¬ Ends (nextName nodes) ['A'] := by
    refine not_ends_of_forever (P := fun name => name = ['A'] ∨ name = ['B']) ?_ (.inl rfl)
    rintro name (rfl | rfl)
    · exact ⟨['B'], by decide, .inr rfl⟩
    · exact ⟨['A'], by decide, .inl rfl⟩
  exact ⟨['o'], "R:A\nA:B\nB:A\n".toList, nodes, by decide, by decide, ⟨['A'], "o/R/A".toList⟩,
    by decide, fun calls => recursion_eq_none endless⟩

end VoteCounting.Threads
