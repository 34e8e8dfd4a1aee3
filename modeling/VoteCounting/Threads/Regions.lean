import VoteCounting.Threads.Ancestors

namespace VoteCounting.Threads

open CString Walk

inductive Kind where
  | directory
  | file
deriving DecidableEq, Repr

/-- What there is, by path. -/
abbrev Tree := CStr → Option Kind

inductive MkdirError where
  | missing
  | notDirectory
  | present
deriving DecidableEq, Repr

/-- The directory a path lies in. -/
def dirname (path : CStr) : CStr := (path.rdropWhile (· ≠ '/')).dropLast

def mkdir (tree : Tree) (path : CStr) : Except MkdirError Tree :=
  match tree (dirname path) with
  | none => .error .missing
  | some .file => .error .notDirectory
  | some .directory =>
      if (tree path).isSome then .error .present else .ok (Function.update tree path (some .directory))

/-- After an error the loop goes on. -/
def makeDirectory (tree : Tree) (node : DirNode) : Tree :=
  match mkdir tree node.path with
  | .ok after => after
  | .error _ => tree

def makeDirectories (tree : Tree) (nodes : List DirNode) : Tree := nodes.foldl makeDirectory tree

section Making

variable {tree : Tree} {nodes : List DirNode} {node : DirNode} {path directory name : CStr}

theorem dirname_makepath (noSlash : '/' ∉ name) : dirname (makepath directory name) = directory := by
  have own : name.rdropWhile (· ≠ '/') = [] := by
    rw [List.rdropWhile_eq_nil_iff]
    intro c member
    simpa using fun same : c = '/' => noSlash (same ▸ member)
  have whole : (directory ++ '/' :: name).rdropWhile (· ≠ '/') = directory ++ ['/'] := by
    rw [← List.singleton_append, ← List.append_assoc]
    induction name using List.reverseRecOn with
    | nil => simp
    | append_singleton rest c ih =>
        have different : c ≠ '/' := fun same => noSlash (by simp [same])
        rw [← List.append_assoc, List.rdropWhile_concat_pos _ _ _ (by simpa using different)]
        refine ih (fun member => noSlash (List.mem_append_left _ member)) ?_
        rwa [List.rdropWhile_concat_pos _ _ _ (by simpa using different)] at own
  rw [dirname, makepath, whole, List.dropLast_concat]

theorem makeDirectory_cases (tree : Tree) (node : DirNode) : makeDirectory tree node = tree ∨
    makeDirectory tree node = Function.update tree node.path (some .directory) := by
  rw [makeDirectory]
  cases made : mkdir tree node.path with
  | error error => exact .inl rfl
  | ok after =>
      rw [mkdir] at made
      split at made
      · cases made
      · cases made
      · split at made
        · cases made
        · cases made
          exact .inr rfl

theorem makeDirectory_keeps (held : tree path = some .directory) :
    makeDirectory tree node path = some .directory := by
  rcases makeDirectory_cases tree node with same | made
  · rw [same, held]
  · rw [made, Function.update_apply]
    split
    · rfl
    · exact held

theorem makeDirectory_notFile (free : tree path ≠ some .file) :
    makeDirectory tree node path ≠ some .file := by
  rcases makeDirectory_cases tree node with same | made
  · rwa [same]
  · rw [made, Function.update_apply]
    split
    · simp
    · exact free

/-- With its parent in place a directory is there after its turn. -/
theorem makeDirectory_self (parent : tree (dirname node.path) = some .directory)
    (free : tree node.path ≠ some .file) : makeDirectory tree node node.path = some .directory := by
  rw [makeDirectory, mkdir, parent]
  cases held : tree node.path with
  | none => simp
  | some kind =>
      cases kind with
      | directory => simpa using held
      | file => exact absurd held free

theorem makeDirectories_concat :
    makeDirectories tree (nodes ++ [node]) = makeDirectory (makeDirectories tree nodes) node :=
  List.foldl_concat ..

theorem makeDirectories_keeps (held : tree path = some .directory) :
    makeDirectories tree nodes path = some .directory := by
  induction nodes using List.reverseRecOn with
  | nil => exact held
  | append_singleton before node ih =>
      rw [makeDirectories_concat]
      exact makeDirectory_keeps ih

theorem makeDirectories_notFile (free : tree path ≠ some .file) :
    makeDirectories tree nodes path ≠ some .file := by
  induction nodes using List.reverseRecOn with
  | nil => exact free
  | append_singleton before node ih =>
      rw [makeDirectories_concat]
      exact makeDirectory_notFile ih

end Making

/-- The region is the root, or it is listed below one of these. -/
def Parented (outputDir file : CStr) (before : List DirNode) (node : DirNode) : Prop :=
  before = [] ∧ rootName file = some node.name ∧ node.path = makepath outputDir node.name ∨
    ∃ parent ∈ before, (node.name, parent.name) ∈ declared file ∧
      node.path = makepath parent.path node.name

/-- Every region but the first lies below an earlier one, whose line lists it. -/
def Ordered (declarations : List (CStr × CStr)) (nodes : List DirNode) : Prop :=
  ∀ before node after, nodes = before ++ node :: after → before = [] ∨
    ∃ parent ∈ before, (node.name, parent.name) ∈ declarations ∧
      node.path = makepath parent.path node.name

section Order

variable {outputDir file buf : CStr} {nodes after : List DirNode} {lines : List CStr}
  {node parent : DirNode}
  {old new : List (CStr × CStr)}

theorem Ordered.mono (ordered : Ordered old nodes) (kept : old ⊆ new) : Ordered new nodes := by
  intro before node after whole
  rcases ordered before node after whole with first | ⟨parent, member, listed, path⟩
  · exact .inl first
  · exact .inr ⟨parent, member, kept listed, path⟩

/-- The children of one line. -/
theorem Ordered.append {names : List CStr} (ordered : Ordered new nodes) (member : parent ∈ nodes)
    (listed : ∀ token ∈ names, (trimlastenter token, parent.name) ∈ new) :
    Ordered new (nodes ++ names.map (createChild parent.path)) := by
  intro before node after whole
  rcases List.append_eq_append_iff.mp whole with ⟨more, rfl, rest⟩ | ⟨more, rfl, rest⟩
  · have held : node ∈ names.map (createChild parent.path) := by
      rw [rest]
      simp
    obtain ⟨token, inside, rfl⟩ := List.mem_map.mp held
    exact .inr ⟨parent, List.mem_append_left _ member, listed token inside, rfl⟩
  · cases more with
    | nil =>
        have held : node ∈ names.map (createChild parent.path) := by
          rw [List.nil_append] at rest
          rw [← rest]
          simp
        obtain ⟨token, inside, rfl⟩ := List.mem_map.mp held
        rw [List.append_nil] at member
        exact .inr ⟨parent, member, listed token inside, rfl⟩
    | cons first more =>
        rw [List.cons_append, List.cons.injEq] at rest
        exact ordered before node more (by rw [rest.1])

theorem declared_tokens {names : List CStr} (line : buf.head? ≠ some '#')
    (split : makeargv buf ':' = name :: names) : ∀ token ∈ names,
      (trimlastenter token, name) ∈ (lines ++ [buf]).flatMap declarations := by
  intro token inside
  rw [List.flatMap_append, List.flatMap_singleton, declarations_line line split]
  exact List.mem_append_right _ (List.mem_map.mpr ⟨token, inside, rfl⟩)

theorem Ordered.readLine (ordered : Ordered (lines.flatMap declarations) nodes)
    (read : readLine outputDir nodes buf = some after) :
    Ordered ((lines ++ [buf]).flatMap declarations) after := by
  have kept : lines.flatMap declarations ⊆ (lines ++ [buf]).flatMap declarations := by
    rw [List.flatMap_append]
    exact List.subset_append_left _ _
  cases readLine_line read with
  | comment => exact ordered.mono kept
  | @first name names line split =>
      have alone : Ordered ((lines ++ [buf]).flatMap declarations)
          [⟨name, makepath outputDir name⟩] := by
        intro before node after whole
        cases before with
        | nil => exact .inl rfl
        | cons first rest => simp at whole
      exact alone.append List.mem_cons_self (declared_tokens line split)
  | later line split member =>
      exact (ordered.mono kept).append (List.mem_cons_of_mem _ member) (declared_tokens line split)

theorem createDAG_ordered (created : createDAG outputDir file = some nodes) :
    Ordered (declared file) nodes := by
  have start : Ordered ((List.nil : List CStr).flatMap declarations) [] := by
    intro before node after whole
    cases before <;> cases whole
  exact Loop.invariant (fun lines nodes => Ordered (lines.flatMap declarations) nodes) start
    (fun _ ordered read => ordered.readLine read) created

theorem createDAG_parented (created : createDAG outputDir file = some nodes)
    {before after : List DirNode}
    (whole : nodes = before ++ node :: after) : Parented outputDir file before node := by
  rcases createDAG_ordered created before node after whole with rfl | below
  · have first : nodes.head? = some node := by rw [whole]; rfl
    have root := (createDAG_built created).root
    rw [first] at root
    exact .inl ⟨rfl, root.symm, (createDAG_placed created).root node first⟩
  · exact .inr below

end Order

/-- The ancestors of a region by the lines of the file, from its parent up to the root. -/
structure Ancestry (outputDir file : CStr) (node : DirNode) (ancestors : List CStr) : Prop where
  chain : List.IsChain (fun below heading => (below, heading) ∈ declared file) (node.name :: ancestors)
  root : (node.name :: ancestors).getLast? = rootName file
  path : node.path = outputDir ++ (ancestors.reverse ++ [node.name]).flatMap fun name => '/' :: name

section Back

variable {outputDir file : CStr} {nodes before after : List DirNode} {node parent : DirNode}
  {tree : Tree}
  {ancestors : List CStr}

theorem Ancestry.below (ancestry : Ancestry outputDir file parent ancestors)
    (listed : (node.name, parent.name) ∈ declared file)
    (path : node.path = makepath parent.path node.name) :
    Ancestry outputDir file node (parent.name :: ancestors) where
  chain := List.IsChain.cons_cons listed ancestry.chain
  root := by
    rw [List.getLast?_cons_cons]
    exact ancestry.root
  path := by
    rw [path, ancestry.path, makepath]
    simp

theorem nextName_root (first : nodes.head? = some node) : nextName nodes node.name = none := by
  rw [nextName, first]
  simp

theorem nextName_below (placed : Placed outputDir nodes) (proper : ∀ node ∈ nodes, FileName node.name)
    (unique : (nodes.map DirNode.name).Nodup) (notRoot : nodes.head?.map DirNode.name ≠ some node.name)
    (member : node ∈ nodes) (held : parent ∈ nodes)
    (path : node.path = makepath parent.path node.name) :
    nextName nodes node.name = some parent.name := by
  obtain ⟨directory, parentPath⟩ := placed.path_eq held
  rw [nextName, if_neg notRoot, getPath_of_mem unique member, Option.bind_some]
  exact getparentname_filePath (proper node member) (proper parent held) path parentPath

/-- From the root down: the walk from a region goes over its ancestors. -/
theorem visits_ancestors (created : createDAG outputDir file = some nodes)
    (proper : ∀ node ∈ nodes, FileName node.name) (unique : (nodes.map DirNode.name).Nodup)
    (whole : nodes = before ++ after) : ∀ node ∈ before, ∃ ancestors,
      Ancestry outputDir file node ancestors ∧ Visits (nextName nodes) node.name ancestors := by
  induction before using List.reverseRecOn generalizing after with
  | nil => simp
  | append_singleton before last ih =>
      rw [List.append_assoc, List.singleton_append] at whole
      have earlier := ih whole
      intro node member
      rcases List.mem_append.mp member with inside | same
      · exact earlier node inside
      · obtain rfl := List.mem_singleton.mp same
        rcases createDAG_parented created whole with ⟨rfl, root, path⟩ | ⟨parent, held, listed, path⟩
        · have first : nodes.head? = some node := by rw [whole]; rfl
          refine ⟨[], ⟨by simp, by simpa using root.symm, ?_⟩, .last (nextName_root first)⟩
          rw [path, makepath]
          simp
        · obtain ⟨ancestors, ancestry, visits⟩ := earlier parent held
          have notRoot : nodes.head?.map DirNode.name ≠ some node.name := by
            intro same
            obtain ⟨first, rest, rfl⟩ := List.exists_cons_of_ne_nil (List.ne_nil_of_mem held)
            rw [whole] at same unique
            simp only [List.cons_append, List.head?_cons, Option.map_some, Option.some.injEq] at same
            simp [same] at unique
          have member : node ∈ nodes := by simp [whole]
          have parentMember : parent ∈ nodes := by simp [whole, held]
          have step :=
            nextName_below (createDAG_placed created) proper unique notRoot member parentMember path
          exact ⟨_, ancestry.below listed path, .step step visits⟩

theorem dirname_of_parented (parented : Parented outputDir file before node)
    (proper : FileName node.name) :
    dirname node.path = outputDir ∨ ∃ parent ∈ before, dirname node.path = parent.path := by
  rcases parented with ⟨_, _, path⟩ | ⟨parent, member, _, path⟩
  · exact .inl (by rw [path, dirname_makepath proper.noSlash])
  · exact .inr ⟨parent, member, by rw [path, dirname_makepath proper.noSlash]⟩

/-- The directories of the regions the loop has done are there. -/
theorem makeDirectories_done (created : createDAG outputDir file = some nodes)
    (proper : ∀ node ∈ nodes, FileName node.name) (output : tree outputDir = some .directory)
    (free : ∀ node ∈ nodes, tree node.path ≠ some .file) (whole : nodes = before ++ after) :
    ∀ node ∈ before, makeDirectories tree before node.path = some .directory := by
  induction before using List.reverseRecOn generalizing after with
  | nil => simp
  | append_singleton before last ih =>
      rw [List.append_assoc, List.singleton_append] at whole
      have earlier := ih whole
      intro node member
      rw [makeDirectories_concat]
      rcases List.mem_append.mp member with inside | same
      · exact makeDirectory_keeps (earlier node inside)
      · obtain rfl := List.mem_singleton.mp same
        have held : node ∈ nodes := by simp [whole]
        refine makeDirectory_self ?_ (makeDirectories_notFile (free node held))
        rcases dirname_of_parented (createDAG_parented created whole) (proper node held) with
          same | ⟨parent, above, same⟩
        · rw [same]
          exact makeDirectories_keeps output
        · rw [same]
          exact earlier parent above

/-- Every call of `mkdir` finds the directory it works in. -/
theorem makeDirectories_parent (created : createDAG outputDir file = some nodes)
    (proper : ∀ node ∈ nodes, FileName node.name) (output : tree outputDir = some .directory)
    (free : ∀ node ∈ nodes, tree node.path ≠ some .file) (whole : nodes = before ++ node :: after) :
    makeDirectories tree before (dirname node.path) = some .directory := by
  have held : node ∈ nodes := by simp [whole]
  rcases dirname_of_parented (createDAG_parented created whole) (proper node held) with
    same | ⟨parent, above, same⟩
  · rw [same]
    exact makeDirectories_keeps output
  · rw [same]
    exact makeDirectories_done created proper output free whole parent above

end Back

def threeRegions : List DirNode :=
  [⟨['R'], "o/R".toList⟩, ⟨['A'], "o/R/A".toList⟩, ⟨['B'], "o/R/A/B".toList⟩]

end VoteCounting.Threads
