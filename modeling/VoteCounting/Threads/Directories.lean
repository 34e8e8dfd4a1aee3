import VoteCounting.Strings
import VoteCounting.Data.Loop
import VoteCounting.Data.Paths

namespace VoteCounting.Threads

open CString Paths

/-- `path` is the directory of the region. -/
structure DirNode where
  name : CStr
  path : CStr
deriving DecidableEq, Repr

def makepath (oldpath filename : CStr) : CStr := oldpath ++ '/' :: filename

def createChild (rootpath token : CStr) : DirNode :=
  ⟨trimlastenter token, makepath rootpath (trimlastenter token)⟩

/-- One line of the file; `none` where the program exits or follows a null pointer.  The list
is empty up to the first line that is no comment. -/
def readLine (outputDir : CStr) (nodes : List DirNode) (buf : CStr) : Option (List DirNode) :=
  if buf.head? = some '#' then some nodes
  else
    match makeargv buf ':' with
    | [] => none
    | name :: names =>
        match nodes with
        | [] => some (⟨name, makepath outputDir name⟩ :: names.map
            (createChild (makepath outputDir name)))
        | root :: rest =>
            -- The search starts behind the root, and the last match counts.
            match rest.reverse.find? fun node => node.name = name with
            | none => none
            | some node => some (root :: rest ++ names.map (createChild node.path))

/-- The list starts with the root, `publicroot`. -/
def createDAG (outputDir file : CStr) : Option (List DirNode) :=
  (getlines file).foldlM (readLine outputDir) []

/-- The file with the counts of a region. -/
def filePath (node : DirNode) : CStr := node.path ++ '/' :: (node.name ++ ".txt".toList)

/-- The last match counts. -/
def getPath (nodes : List DirNode) (filename : CStr) : Option CStr :=
  (nodes.reverse.find? fun node => node.name = filename).map filePath

/-- The name before the last two of the path. -/
def getparentname (currentpath : CStr) : Option CStr :=
  let argvp := makeargv currentpath '/'
  if 3 ≤ argvp.length then argvp[argvp.length - 3]? else none

/-- The directory of `leaf` lies below that of `region`. -/
def Above (region leaf : DirNode) : Prop := Inside '/' region.path leaf.path

instance (region leaf : DirNode) : Decidable (Above region leaf) :=
  inferInstanceAs (Decidable (Inside _ _ _))

/-- A name a directory entry can have. -/
structure FileName (name : CStr) : Prop where
  nonempty : name ≠ []
  noSlash : '/' ∉ name

/-- The root lies in the output directory and every other region in that of some region. -/
structure Placed (outputDir : CStr) (nodes : List DirNode) : Prop where
  root : ∀ node, nodes.head? = some node → node.path = makepath outputDir node.name
  inner : ∀ node ∈ nodes.tail, ∃ parent ∈ nodes, node.path = makepath parent.path node.name

section Placing

variable {outputDir file buf name : CStr} {nodes after : List DirNode}

theorem find_reverse {node : DirNode}
    (found : nodes.reverse.find? (fun node => node.name = name) = some node) :
    node ∈ nodes ∧ node.name = name :=
  ⟨List.mem_reverse.mp (List.mem_of_find?_eq_some found), by simpa using List.find?_some found⟩

/-- What a line that is read does to the list. -/
inductive Line (outputDir buf : CStr) : List DirNode → List DirNode → Prop
  | comment {nodes : List DirNode} (comment : buf.head? = some '#') : Line outputDir buf nodes nodes
  | first {name : CStr} {names : List CStr} (line : buf.head? ≠ some '#')
      (split : makeargv buf ':' = name :: names) : Line outputDir buf []
        (⟨name, makepath outputDir name⟩ :: names.map (createChild (makepath outputDir name)))
  | later {root parent : DirNode} {rest : List DirNode} {names : List CStr}
      (line : buf.head? ≠ some '#') (split : makeargv buf ':' = parent.name :: names)
      (member : parent ∈ rest) :
      Line outputDir buf (root :: rest) (root :: rest ++ names.map (createChild parent.path))

theorem readLine_line (read : readLine outputDir nodes buf = some after) :
    Line outputDir buf nodes after := by
  rw [readLine] at read
  split at read
  · cases read
    exact .comment ‹_›
  · rename_i line
    split at read
    · cases read
    · rename_i name names split
      cases nodes with
      | nil =>
          cases read
          exact .first line split
      | cons root rest =>
          simp only at read
          split at read
          · cases read
          · rename_i parent found
            cases read
            obtain ⟨member, rfl⟩ := find_reverse found
            exact .later line split member

theorem Placed.readLine (placed : Placed outputDir nodes)
    (read : readLine outputDir nodes buf = some after) : Placed outputDir after := by
  cases readLine_line read with
  | comment => exact placed
  | first =>
      refine ⟨fun node first => ?_, fun node member => ?_⟩
      · obtain rfl := Option.some.inj first
        rfl
      · obtain ⟨token, _, rfl⟩ := List.mem_map.mp member
        exact ⟨_, List.mem_cons_self, rfl⟩
  | @later root parent rest names _ _ listed =>
      refine ⟨placed.root, fun node member => ?_⟩
      rcases List.mem_append.mp member with earlier | new
      · obtain ⟨above, held, path⟩ := placed.inner node earlier
        exact ⟨above, List.mem_append_left _ held, path⟩
      · obtain ⟨token, _, rfl⟩ := List.mem_map.mp new
        exact ⟨parent, List.mem_append_left _ (List.mem_cons_of_mem _ listed), rfl⟩

theorem createDAG_placed (created : createDAG outputDir file = some nodes) :
    Placed outputDir nodes := by
  have start : Placed outputDir [] := ⟨fun _ first => (nomatch first), fun _ member => (nomatch member)⟩
  exact Loop.keeps (Placed outputDir) start (fun placed read => placed.readLine read) created

end Placing

section Parents

variable {outputDir name : CStr} {nodes : List DirNode} {region node parent leaf : DirNode}

theorem Placed.path_eq (placed : Placed outputDir nodes) (member : node ∈ nodes) :
    ∃ directory, node.path = makepath directory node.name := by
  cases nodes with
  | nil => cases member
  | cons root rest =>
      rcases List.mem_cons.mp member with rfl | later
      · exact ⟨outputDir, placed.root _ rfl⟩
      · obtain ⟨parent, _, path⟩ := placed.inner node later
        exact ⟨parent.path, path⟩

theorem makeargv_append {path word : CStr} (proper : FileName word) :
    makeargv (path ++ '/' :: word) '/' = makeargv path '/' ++ [word] := by
  rw [makeargv, tokens_append_delim, tokens_word proper.noSlash proper.nonempty, ← makeargv]

theorem FileName.txt (proper : FileName name) : FileName (name ++ ".txt".toList) where
  nonempty := by simp
  noSlash := by
    intro member
    rcases List.mem_append.mp member with own | ending
    · exact proper.noSlash own
    · revert ending
      decide

/-- The name before the region's own two is that of its parent. -/
theorem getparentname_filePath {directory : CStr} (proper : FileName node.name)
    (parentProper : FileName parent.name) (path : node.path = makepath parent.path node.name)
    (parentPath : parent.path = makepath directory parent.name) :
    getparentname (filePath node) = some parent.name := by
  have words : makeargv (filePath node) '/' =
      makeargv directory '/' ++ [parent.name, node.name, node.name ++ ".txt".toList] := by
    rw [filePath, makeargv_append proper.txt, path, makepath, makeargv_append proper, parentPath,
      makepath, makeargv_append parentProper]
    simp
  simp [getparentname, words]

theorem find_of_mem (unique : (nodes.map DirNode.name).Nodup) (member : node ∈ nodes) :
    nodes.reverse.find? (fun other => other.name = node.name) = some node := by
  cases found : nodes.reverse.find? (fun other => other.name = node.name) with
  | none => simpa using List.find?_eq_none.mp found node (List.mem_reverse.mpr member)
  | some other =>
      obtain ⟨held, same⟩ := find_reverse found
      rw [List.inj_on_of_nodup_map unique held member same]

theorem getPath_of_mem (unique : (nodes.map DirNode.name).Nodup) (member : node ∈ nodes) :
    getPath nodes node.name = some (filePath node) := by
  rw [getPath, find_of_mem unique member]
  rfl

theorem filePath_inj (proper : FileName node.name) (otherProper : FileName region.name)
    (same : filePath node = filePath region) : node.path = region.path ∧ node.name = region.name := by
  obtain ⟨paths, files⟩ := append_sep_inj same proper.txt.noSlash otherProper.txt.noSlash
  exact ⟨paths, List.append_cancel_right files⟩

end Parents

end VoteCounting.Threads
