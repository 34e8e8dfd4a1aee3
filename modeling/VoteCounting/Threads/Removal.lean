import VoteCounting.Data.CString
import VoteCounting.Data.FileTree
import VoteCounting.Data.Loop

namespace VoteCounting.Threads

open FileTree

/-! The removal of an old output directory.

`none` is a crash or an endless recursion.  The entries of a directory are read as they were when
it was opened, and all operations are permitted.
-/

abbrev FileSystem := Listing CStr CStr

/-- Where relative paths begin, and how many links the host follows for a path. -/
structure Host where
  cwd : List CStr
  maxLinks : Nat

def isDirectory : ItemKind CStr CStr → Bool
  | .dir => true
  | .leaf _ => false

/-- The real path of what a path leads to. -/
def realpath (host : Host) (fs : FileSystem) (path : List CStr) : Option (List CStr) :=
  (fs.resolve host.maxLinks host.cwd (path.map .name)).map Prod.fst

/-- Whether the path leads to a directory; `none` where `stat` fails. -/
def stat (host : Host) (fs : FileSystem) (path : List CStr) : Option Bool :=
  (realpath host fs path).bind fun place => (fs.kindAt place).map isDirectory

def opendir (host : Host) (fs : FileSystem) (path : List CStr) : Option (List CStr) :=
  (realpath host fs path).bind fun place =>
    match fs.lookup place with
    | some (.dir inside) => some inside.names
    | _ => none

/-- The entry of the last name, whose link is not followed. -/
def entryAt (host : Host) (fs : FileSystem) (path : List CStr) : Option (List CStr) :=
  path.getLast?.bind fun name => (realpath host fs path.dropLast).map (· ++ [name])

def unlink (host : Host) (fs : FileSystem) (path : List CStr) : FileSystem :=
  match entryAt host fs path with
  | none => fs
  | some place =>
      match fs.kindAt place with
      | some (.leaf _) => fs.erase place
      | _ => fs

def rmdir (host : Host) (fs : FileSystem) (path : List CStr) : FileSystem :=
  match entryAt host fs path with
  | none => fs
  | some place =>
      match fs.lookup place with
      | some (.dir .nil) => fs.erase place
      | _ => fs

/-- The loop for one entry.  `stat_data` keeps what the last successful `stat` of the call wrote. -/
def removeEntry (host : Host) (removeDIR : FileSystem → List CStr → Option FileSystem)
    (path : List CStr) (state : FileSystem × Bool) (name : CStr) : Option (FileSystem × Bool) :=
  let full_path := path ++ [name]
  let stat_data := (stat host state.1 full_path).getD state.2
  if stat_data then (removeDIR state.1 full_path).map fun fs => (fs, stat_data)
  else some (unlink host state.1 full_path, stat_data)

/-- Before the first `stat`, `stat_data` is what its memory held. -/
def removeDIR (host : Host) (uninitialised : List CStr → Bool) :
    Nat → FileSystem → List CStr → Option FileSystem
  | 0, _, _ => none
  | fuel + 1, fs, path =>
      (opendir host fs path).bind fun entries =>
        (entries.foldlM (removeEntry host (removeDIR host uninitialised fuel) path)
          (fs, uninitialised path)).map
          fun state => rmdir host state.1 path

/-- The links of a directory tree, each looked at when all entries read before it are gone: none
leads to a directory then, and one that leads nowhere comes after an entry that was no directory.
`last` says whether the last entry before was one. -/
def Orderly (host : Host) : FileSystem → FileSystem → List CStr → Option Bool → Prop
  | .nil, _, _, _ => True
  | .leaf name (.file _) rest, fs, path, _ =>
      Orderly host rest (fs.erase (host.cwd ++ path ++ [name])) path (some false)
  | .leaf name (.link _ _) rest, fs, path, last =>
      stat host fs (path ++ [name]) ≠ some true ∧
        (stat host fs (path ++ [name]) = none → last = some false) ∧
        Orderly host rest (fs.erase (host.cwd ++ path ++ [name])) path (some false)
  | .dir name inside rest, fs, path, _ =>
      Orderly host inside fs (path ++ [name]) none ∧
        Orderly host rest (fs.erase (host.cwd ++ path ++ [name])) path (some true)

section Removal

variable {host : Host} {uninitialised : List CStr → Bool} {fuel : Nat} {fs after : FileSystem}
  {entries rest : FileSystem} {path place : List CStr} {name : CStr} {last : Option Bool}
  {state final : FileSystem × Bool}

theorem realpath_real (real : fs.lookup (host.cwd ++ path) = some (.dir entries)) :
    realpath host fs path = some (host.cwd ++ path) := by
  rw [realpath, fs.resolve_real real]
  rfl

theorem opendir_real (real : fs.lookup (host.cwd ++ path) = some (.dir entries)) :
    opendir host fs path = some entries.names := by
  rw [opendir, realpath_real real, Option.bind_some, real]

theorem entryAt_real (real : fs.lookup (host.cwd ++ path) = some (.dir entries)) :
    entryAt host fs (path ++ [name]) = some (host.cwd ++ path ++ [name]) := by
  rw [entryAt, List.getLast?_concat, Option.bind_some, List.dropLast_concat, realpath_real real]
  rfl

theorem stat_directory (real : fs.lookup (host.cwd ++ path) = some (.dir entries)) :
    stat host fs path = some true := by
  rw [stat, realpath_real real, Option.bind_some, Listing.kindAt, real]
  rfl

/-- The last name of a path below a real directory. -/
theorem stat_concat (real : fs.lookup (host.cwd ++ path) = some (.dir entries)) :
    stat host fs (path ++ [name]) =
      ((fs.resolve host.maxLinks (host.cwd ++ path) [.name name]).bind fun result =>
        fs.kindAt result.1).map
        isDirectory := by
  rw [stat, realpath, List.map_append, Listing.resolve_append, fs.resolve_real real, Option.bind_some,
    List.map_singleton]
  cases fs.resolve host.maxLinks (host.cwd ++ path) [.name name] <;> rfl

theorem kindAt_leaf {content : Leaf CStr CStr} (leaf : fs.lookup place = some (.leaf content)) :
    fs.kindAt place = some (.leaf content) := by
  rw [Listing.kindAt, leaf]
  rfl

theorem stat_file {data : CStr} (real : fs.lookup (host.cwd ++ path) = some (.dir entries))
    (file : fs.lookup (host.cwd ++ path ++ [name]) = some (.leaf (.file data))) :
    stat host fs (path ++ [name]) = some false := by
  rw [stat_concat real, Listing.resolve_name, kindAt_leaf file]
  simp only [Listing.resolve_nil, Option.bind_some, kindAt_leaf file]
  rfl

theorem unlink_real {content : Leaf CStr CStr}
    (real : fs.lookup (host.cwd ++ path) = some (.dir entries))
    (leaf : fs.lookup (host.cwd ++ path ++ [name]) = some (.leaf content)) :
    unlink host fs (path ++ [name]) = fs.erase (host.cwd ++ path ++ [name]) := by
  rw [unlink, entryAt_real real]
  simp only [kindAt_leaf leaf]

theorem rmdir_real (real : fs.lookup (host.cwd ++ path) = some (.dir entries))
    (empty : fs.lookup (host.cwd ++ path ++ [name]) = some (.dir .nil)) :
    rmdir host fs (path ++ [name]) = fs.erase (host.cwd ++ path ++ [name]) := by
  rw [rmdir, entryAt_real real]
  simp only [empty]

/-- The first entry of a directory, and what the directory is without it. -/
theorem lookup_first {entry : Item CStr CStr} {rest : FileSystem}
    (real : fs.lookup place = some (.dir entries))
    (first : entries.find name = some entry) (others : entries.drop name = rest) :
    fs.lookup (place ++ [name]) = some entry ∧
      (fs.erase (place ++ [name])).lookup place = some (.dir rest) := by
  constructor
  · rw [Listing.lookup_concat, real]
    exact first
  · rw [Listing.lookup_erase_above (by simp), real, ← others]
    rfl

/-- What an orderly removal leaves. -/
structure Cleared (fs : FileSystem) (place : List CStr) (after : FileSystem) : Prop where
  empty : after.lookup place = some (.dir .nil)
  same : after.erase place = fs.erase place

theorem Cleared.of_erase (nonempty : place ≠ [])
    (cleared : Cleared (fs.erase (place ++ [name])) place after) :
    Cleared fs place after := by
  refine ⟨cleared.empty, ?_⟩
  rw [cleared.same, Listing.erase_erase nonempty (by simp)]

theorem removeEntry_mono {remove more : FileSystem → List CStr → Option FileSystem}
    (grows : ∀ {fs path after}, remove fs path = some after → more fs path = some after)
    (done : removeEntry host remove path state name = some final) :
    removeEntry host more path state name = some final := by
  simp only [removeEntry] at done ⊢
  split at done
  · rename_i directory
    rw [if_pos directory]
    rw [Option.map_eq_some_iff] at done ⊢
    obtain ⟨result, removed, same⟩ := done
    exact ⟨result, grows removed, same⟩
  · rename_i other
    rwa [if_neg other]

/-- More fuel gives the same result. -/
theorem removeDIR_mono {more : Nat} (enough : fuel ≤ more)
    (done : removeDIR host uninitialised fuel fs path = some after) :
    removeDIR host uninitialised more fs path = some after := by
  induction fuel generalizing fs path after more with
  | zero => cases done
  | succ fuel ih =>
      obtain ⟨more, rfl⟩ : ∃ k, more = k + 1 := ⟨more - 1, by omega⟩
      simp only [removeDIR, Option.bind_eq_some_iff, Option.map_eq_some_iff] at done ⊢
      obtain ⟨entries, opened, final, loop, closed⟩ := done
      refine ⟨entries, opened, final, ?_, closed⟩
      exact Loop.foldlM_mono (removeEntry_mono fun removed => ih (by omega) removed) loop

theorem foldlM_mono_fuel {names : List CStr} {more : Nat} (enough : fuel ≤ more)
    (done : names.foldlM (removeEntry host (removeDIR host uninitialised fuel) path) state =
      some final) :
    names.foldlM (removeEntry host (removeDIR host uninitialised more) path) state = some final :=
  Loop.foldlM_mono (removeEntry_mono fun removed => removeDIR_mono enough removed) done

/-- An entry that is not taken for a directory is unlinked. -/
theorem removeEntry_leaf {remove : FileSystem → List CStr → Option FileSystem}
    {content : Leaf CStr CStr} {stat_data : Bool}
    (real : fs.lookup (host.cwd ++ path) = some (.dir entries))
    (leaf : fs.lookup (host.cwd ++ path ++ [name]) = some (.leaf content))
    (noDirectory : (stat host fs (path ++ [name])).getD stat_data = false) :
    removeEntry host remove path (fs, stat_data) name =
      some (fs.erase (host.cwd ++ path ++ [name]), false) := by
  simp only [removeEntry, noDirectory, unlink_real real leaf]
  rfl

/-- A directory is emptied before it is removed. -/
theorem removeDIR_directory {state : FileSystem × Bool} {inside : FileSystem}
    (real : fs.lookup (host.cwd ++ (path ++ [name])) = some (.dir inside))
    (loop : inside.names.foldlM (removeEntry host (removeDIR host uninitialised fuel) (path ++ [name]))
      (fs, uninitialised (path ++ [name])) = some state)
    (cleared : Cleared fs (host.cwd ++ (path ++ [name])) state.1) :
    removeDIR host uninitialised (fuel + 1) fs (path ++ [name]) =
      some (fs.erase (host.cwd ++ (path ++ [name]))) := by
  have empty := cleared.empty
  rw [← List.append_assoc] at empty
  obtain ⟨above, parent, _⟩ := Listing.dir_of_lookup_concat empty
  rw [removeDIR, opendir_real real, Option.bind_some, loop, Option.map_some, rmdir_real parent empty,
    List.append_assoc, cleared.same]

/-- In an orderly tree the loop clears the directory. -/
theorem foldlM_removeEntry (uninitialised : List CStr → Bool)
    (orderly : Orderly host entries fs path last) (unique : entries.Unique)
    (nonempty : host.cwd ++ path ≠ []) (real : fs.lookup (host.cwd ++ path) = some (.dir entries))
    (stat_data : Bool) (known : ∀ b, last = some b → stat_data = b) :
    ∃ fuel final, entries.names.foldlM (removeEntry host (removeDIR host uninitialised fuel) path)
      (fs, stat_data) = some final ∧ Cleared fs (host.cwd ++ path) final.1 := by
  induction entries generalizing fs path last stat_data with
  | nil => exact ⟨0, _, rfl, real, rfl⟩
  | leaf name content rest ih =>
      obtain ⟨absent, uniqueRest⟩ := unique
      obtain ⟨own, remaining⟩ := lookup_first real (if_pos rfl)
        ((if_pos rfl).trans (Listing.drop_eq_self absent))
      have step : (stat host fs (path ++ [name])).getD stat_data = false ∧
          Orderly host rest (fs.erase (host.cwd ++ path ++ [name])) path (some false) := by
        cases content with
        | file data => exact ⟨by rw [stat_file real own]; rfl, orderly⟩
        | link absolute target =>
            obtain ⟨noDirectory, nowhere, orderlyRest⟩ := orderly
            refine ⟨?_, orderlyRest⟩
            cases found : stat host fs (path ++ [name]) with
            | none => exact known false (nowhere found)
            | some directory => simpa [found] using noDirectory
      obtain ⟨fuel, final, loop, cleared⟩ := ih step.2 uniqueRest nonempty remaining false (by simp)
      refine ⟨fuel, final, ?_, cleared.of_erase nonempty⟩
      rw [Listing.names, List.foldlM_cons, removeEntry_leaf real own step.1]
      exact loop
  | dir name inside rest ihInside ih =>
      obtain ⟨absent, uniqueInside, uniqueRest⟩ := unique
      obtain ⟨orderlyInside, orderlyRest⟩ := orderly
      obtain ⟨own, remaining⟩ := lookup_first real (if_pos rfl)
        ((if_pos rfl).trans (Listing.drop_eq_self absent))
      rw [List.append_assoc] at own
      obtain ⟨inner, middle, innerLoop, innerCleared⟩ :=
        ihInside orderlyInside uniqueInside (by simp) own (uninitialised (path ++ [name])) (by simp)
      have removed := removeDIR_directory own innerLoop innerCleared
      obtain ⟨fuel, final, loop, cleared⟩ := ih orderlyRest uniqueRest nonempty remaining true (by simp)
      have step : removeEntry host (removeDIR host uninitialised (max fuel (inner + 1))) path
          (fs, stat_data) name =
            some (fs.erase (host.cwd ++ path ++ [name]), true) := by
        rw [removeEntry]
        simp only [stat_directory own, Option.getD_some, if_true,
          removeDIR_mono (le_max_right _ _) removed, Option.map_some, List.append_assoc]
      refine ⟨max fuel (inner + 1), final, ?_, cleared.of_erase nonempty⟩
      rw [Listing.names, List.foldlM_cons, step]
      exact foldlM_mono_fuel (le_max_left _ _) loop

end Removal

/-- The first entry of a directory is a link that leads to a directory, or later nowhere. -/
structure Stuck (before : FileSystem) (place : List CStr) (name : CStr) : Prop where
  leads : ∀ budget result, before.resolve budget place [.name name] = some result →
    before.kindAt result.1 = some .dir

/-- The link is still first. -/
structure Kept (before : FileSystem) (place : List CStr) (name : CStr) (fs : FileSystem) : Prop where
  within : Listing.Within fs before
  first : ∃ content rest, fs.lookup place = some (.dir (.leaf name content rest)) ∧ name ∉ rest.names

section Keeping

variable {host : Host} {fuel : Nat} {before fs after entries : FileSystem}
  {path place gone here : List CStr} {name : CStr} {state final : FileSystem × Bool}
  {names : List CStr}

theorem Kept.dir (kept : Kept before place name fs) : before.kindAt place = some .dir := by
  obtain ⟨content, rest, found, _⟩ := kept.first
  apply kept.within
  rw [Listing.kindAt, found]
  rfl

theorem Kept.leaf (kept : Kept before place name fs) :
    ∃ content, fs.lookup (place ++ [name]) = some (.leaf content) := by
  obtain ⟨content, rest, found, _⟩ := kept.first
  refine ⟨content, ?_⟩
  rw [Listing.lookup_concat, found]
  exact if_pos rfl

/-- Neither another leaf nor an empty directory takes the link along. -/
theorem Kept.erase (kept : Kept before place name fs) (other : gone ≠ place ++ [name])
    (removable : (∃ content, fs.lookup gone = some (.leaf content)) ∨
      fs.lookup gone = some (.dir .nil)) :
    Kept before place name (fs.erase gone) := by
  obtain ⟨content, rest, found, absent⟩ := kept.first
  refine ⟨(fs.within_erase gone).trans kept.within, ?_⟩
  -- Nothing is below what is removed.
  have notBelow : ¬ gone <+: place := by
    rintro ⟨more, rfl⟩
    rcases removable with ⟨leaf, same⟩ | same
    · rw [Listing.lookup_append, same] at found
      cases more <;> cases found
    · rw [Listing.lookup_below same] at found
      cases more <;> cases found
  by_cases above : place <+: gone
  · obtain ⟨more, rfl⟩ := above
    have nonempty : more ≠ [] := by
      rintro rfl
      exact notBelow (by simp)
    rw [Listing.lookup_erase_above nonempty, found]
    rcases more with _ | ⟨first, _ | ⟨next, more⟩⟩
    · exact absurd rfl nonempty
    · have different : name ≠ first := by
        rintro rfl
        exact other rfl
      exact ⟨content, rest.drop first, by simp [Item.map, Listing.erase, Listing.drop, different],
        fun member => absent (Listing.names_drop_subset member)⟩
    · refine ⟨content, _, rfl, ?_⟩
      rwa [Listing.names_modify]
  · rw [Listing.lookup_erase_apart notBelow above]
    exact ⟨content, rest, found, absent⟩

/-- A path that was resolved still leads there, or nowhere. -/
theorem Kept.realpath (kept : Kept before place name fs) (found : realpath host fs path = some here) :
    realpath host before path = some here := by
  rw [Threads.realpath, Option.map_eq_some_iff] at found ⊢
  obtain ⟨result, resolved, same⟩ := found
  exact ⟨result, Listing.resolve_within kept.within resolved, same⟩

theorem Kept.unlink (kept : Kept before place name fs) {last : CStr}
    (opened : Threads.realpath host before path = some here) (other : here = place → last ≠ name) :
    Kept before place name (unlink host fs (path ++ [last])) := by
  rw [Threads.unlink, entryAt, List.getLast?_concat, Option.bind_some, List.dropLast_concat]
  cases found : Threads.realpath host fs path with
  | none => exact kept
  | some there =>
      have same := kept.realpath found
      rw [opened, Option.some.injEq] at same
      subst same
      simp only [Option.map_some]
      split
      · rename_i content leaf
        rw [Listing.kindAt, Option.map_eq_some_iff] at leaf
        obtain ⟨item, entry, kind⟩ := leaf
        cases item with
        | dir inside => cases kind
        | leaf content =>
            refine kept.erase (fun same => ?_) (.inl ⟨content, entry⟩)
            obtain ⟨samePlace, sameName⟩ := List.append_inj' same rfl
            exact other samePlace (List.singleton_inj.mp sameName)
      · exact kept

theorem Kept.rmdir (kept : Kept before place name fs) :
    Kept before place name (rmdir host fs path) := by
  rw [Threads.rmdir]
  split
  · exact kept
  · rename_i there _
    split
    · rename_i empty
      refine kept.erase (fun same => ?_) (.inr empty)
      obtain ⟨content, leaf⟩ := kept.leaf
      rw [same, leaf] at empty
      cases empty
    · exact kept

/-- One entry of a directory, other than the link. -/
theorem Kept.removeEntry {last : CStr}
    (calls : ∀ {fs after : FileSystem} {path : List CStr}, Kept before place name fs →
      removeDIR host (fun _ => true) fuel fs path = some after → Kept before place name after)
    (opened : Threads.realpath host before path = some here) (other : here = place → last ≠ name)
    (kept : Kept before place name state.1)
    (done : Threads.removeEntry host (removeDIR host (fun _ => true) fuel) path state last =
      some final) :
    Kept before place name final.1 := by
  simp only [Threads.removeEntry] at done
  split at done
  · rw [Option.map_eq_some_iff] at done
    obtain ⟨after, removed, rfl⟩ := done
    exact calls kept removed
  · obtain rfl := Option.some.inj done
    exact kept.unlink opened other

theorem Kept.loop
    (calls : ∀ {fs after : FileSystem} {path : List CStr}, Kept before place name fs →
      removeDIR host (fun _ => true) fuel fs path = some after → Kept before place name after)
    (opened : Threads.realpath host before path = some here) (absent : here = place → name ∉ names)
    (kept : Kept before place name state.1)
    (done : names.foldlM (Threads.removeEntry host (removeDIR host (fun _ => true) fuel) path)
      state = some final) :
    Kept before place name final.1 := by
  refine Loop.invariant (fun _ state => Kept before place name state.1) kept ?_ done
  intro earlier later last _ _ whole kept step
  refine kept.removeEntry calls opened (fun same own => absent same ?_) step
  rw [whole, own]
  exact List.mem_append_right _ List.mem_cons_self

/-- When the link is looked at, it is taken for a directory. -/
theorem Kept.stat_first (stuck : Stuck before place name) (kept : Kept before place name fs)
    (opened : Threads.realpath host fs path = some place) :
    (stat host fs (path ++ [name])).getD true = true := by
  cases found : stat host fs (path ++ [name]) with
  | none => rfl
  | some directory =>
      rw [stat, Option.bind_eq_some_iff] at found
      obtain ⟨there, resolved, kind⟩ := found
      rw [Threads.realpath, Option.map_eq_some_iff] at opened resolved
      obtain ⟨⟨_, budget⟩, prefixResolved, rfl⟩ := opened
      obtain ⟨result, resolved, rfl⟩ := resolved
      rw [List.map_append, Listing.resolve_append, prefixResolved, Option.bind_some] at resolved
      have directory := stuck.leads budget result (Listing.resolve_within kept.within resolved)
      rw [Option.map_eq_some_iff] at kind
      obtain ⟨kind, found, rfl⟩ := kind
      rw [kept.within _ _ found, Option.some.injEq] at directory
      rw [directory]
      rfl

/-- No call removes the link, when `stat_data` says at first that there is a directory. -/
theorem removeDIR_keeps (stuck : Stuck before place name) (kept : Kept before place name fs)
    (done : removeDIR host (fun _ => true) fuel fs path = some after) :
    Kept before place name after := by
  induction fuel generalizing fs path after with
  | zero => cases done
  | succ fuel ih =>
      simp only [removeDIR, Option.bind_eq_some_iff, Option.map_eq_some_iff] at done
      obtain ⟨entries, opened, final, loop, rfl⟩ := done
      refine Kept.rmdir ?_
      rw [opendir, Option.bind_eq_some_iff] at opened
      obtain ⟨here, resolved, listed⟩ := opened
      have same := kept.realpath resolved
      by_cases own : here = place
      · subst own
        -- The link is the first entry that is read.
        obtain ⟨content, rest, found, absent⟩ := kept.first
        rw [found] at listed
        obtain rfl := Option.some.inj listed
        simp only [Listing.names, List.foldlM_cons, Option.bind_eq_bind,
          Option.bind_eq_some_iff] at loop
        obtain ⟨middle, first, loop⟩ := loop
        have directory := kept.stat_first stuck resolved
        simp only [removeEntry, directory, if_true, Option.map_eq_some_iff] at first
        obtain ⟨left, removed, rfl⟩ := first
        exact Kept.loop (fun kept done => ih kept done) same (fun _ => absent) (ih kept removed) loop
      · exact Kept.loop (fun kept done => ih kept done) same (fun same => absurd same own) kept loop

/-- The removal of the entry that comes next, and of the others. -/
theorem kept_of_rest (stuck : Stuck before place name) (kept : Kept before place name state.1)
    (below : host.cwd ++ path <+: place) (absent : host.cwd ++ path = place → name ∉ names)
    (done : names.foldlM (removeEntry host (removeDIR host (fun _ => true) fuel) path) state =
      some final) :
    Kept before place name final.1 := by
  obtain ⟨more, rfl⟩ := below
  obtain ⟨inside, found⟩ := Listing.lookup_of_kindAt_dir kept.dir
  obtain ⟨above, real⟩ := Listing.dir_of_lookup_append found
  exact Kept.loop (fun kept done => removeDIR_keeps stuck kept done)
    (realpath_real real) absent kept done

/-- A link whose turn comes where it leads to a directory. -/
theorem stuck_of_stat {content : Leaf CStr CStr} {rest : FileSystem}
    (real : fs.lookup (host.cwd ++ path) = some (.dir (.leaf name content rest)))
    (directory : stat host fs (path ++ [name]) = some true) : Stuck fs (host.cwd ++ path) name := by
  constructor
  intro budget result resolved
  rw [stat_concat real, Option.map_eq_some_iff] at directory
  obtain ⟨kind, found, isDir⟩ := directory
  rw [Option.bind_eq_some_iff] at found
  obtain ⟨own, ownResolved, found⟩ := found
  -- Both numbers of links lead to the same place as the larger one.
  obtain ⟨left, high⟩ := Listing.resolve_budget (le_max_left budget host.maxLinks) resolved
  obtain ⟨ownLeft, ownHigh⟩ := Listing.resolve_budget (le_max_right budget host.maxLinks) ownResolved
  rw [high, Option.some.injEq, Prod.mk.injEq] at ownHigh
  rw [ownHigh.1, found]
  cases kind with
  | dir => rfl
  | leaf content => cases isDir

/-- A call for a path that leads nowhere crashes. -/
theorem removeDIR_nowhere {uninitialised : List CStr → Bool} (nowhere : stat host fs path = none) :
    removeDIR host uninitialised fuel fs path = none := by
  cases fuel with
  | zero => rfl
  | succ fuel =>
      have closed : opendir host fs path = none := by
        rw [Option.eq_none_iff_forall_ne_some]
        intro entries opened
        rw [opendir, Option.bind_eq_some_iff] at opened
        obtain ⟨here, resolved, listed⟩ := opened
        cases found : fs.lookup here with
        | none =>
            rw [found] at listed
            cases listed
        | some item => simp [stat, resolved, Listing.kindAt, found] at nowhere
      rw [removeDIR, closed]
      rfl

theorem removeEntry_nowhere (nowhere : stat host fs (path ++ [name]) = none) :
    removeEntry host (removeDIR host (fun _ => true) fuel) path (fs, true) name = none := by
  simp only [removeEntry, nowhere, Option.getD_none, if_true, removeDIR_nowhere nowhere]
  rfl

/-- A directory below `top` keeps its first link. -/
def LinkStays (top : List CStr) (fs : FileSystem) : Prop :=
  ∃ before place name, Stuck before place name ∧ Kept before place name fs ∧ top <+: place

/-- A link taken for a directory stays where it is. -/
theorem linkStays_of_stat {content : Leaf CStr CStr} {rest : FileSystem} {stat_data : Bool}
    (real : fs.lookup (host.cwd ++ path) = some (.dir (.leaf name content rest)))
    (absent : name ∉ rest.names) (directory : stat host fs (path ++ [name]) = some true)
    (first : removeEntry host (removeDIR host (fun _ => true) fuel) path (fs, stat_data) name =
      some state)
    (done : rest.names.foldlM (removeEntry host (removeDIR host (fun _ => true) fuel) path) state =
      some final) :
    LinkStays (host.cwd ++ path) final.1 := by
  have stuck := stuck_of_stat real directory
  have kept : Kept fs (host.cwd ++ path) name fs := ⟨.refl fs, _, rest, real, absent⟩
  simp only [removeEntry, directory, Option.getD_some, if_true, Option.map_eq_some_iff] at first
  obtain ⟨left, removed, rfl⟩ := first
  have still := removeDIR_keeps stuck kept removed
  exact ⟨fs, _, name, stuck, kept_of_rest stuck still (List.prefix_refl _) (fun _ => absent) done,
    List.prefix_refl _⟩

/-- A link that stays in a directory stays while the entries behind the directory are removed. -/
theorem LinkStays.rest {stat_data : Bool} (stays : LinkStays (host.cwd ++ (path ++ [name])) fs)
    (done : names.foldlM (removeEntry host (removeDIR host (fun _ => true) fuel) path)
      (rmdir host fs (path ++ [name]), stat_data) = some final) :
    LinkStays (host.cwd ++ path) final.1 := by
  obtain ⟨before, place, link, stuck, kept, more, rfl⟩ := stays
  have above : host.cwd ++ path <+: host.cwd ++ (path ++ [name]) ++ more := ⟨[name] ++ more, by simp⟩
  refine ⟨before, _, link, stuck, kept_of_rest stuck kept.rmdir above (fun same => ?_) done, above⟩
  have length := congrArg List.length same
  simp only [List.length_append, List.length_singleton] at length
  omega

/-- Where the links are not orderly, the first that is not stays. -/
theorem linkStays_of_not_orderly {last : Option Bool}
    (notOrderly : ¬ Orderly host entries fs path last) (unique : entries.Unique)
    (nonempty : host.cwd ++ path ≠ []) (real : fs.lookup (host.cwd ++ path) = some (.dir entries))
    (stat_data : Bool) (known : ∀ b, last = some b → stat_data = b)
    (unknown : last = none → stat_data = true)
    (done : entries.names.foldlM (removeEntry host (removeDIR host (fun _ => true) fuel) path)
      (fs, stat_data) = some final) :
    LinkStays (host.cwd ++ path) final.1 := by
  induction entries generalizing fs path last stat_data fuel final with
  | nil => exact absurd trivial notOrderly
  | leaf name content rest ih =>
      obtain ⟨absent, uniqueRest⟩ := unique
      obtain ⟨own, remaining⟩ := lookup_first real (if_pos rfl)
        ((if_pos rfl).trans (Listing.drop_eq_self absent))
      simp only [Listing.names, List.foldlM_cons, Option.bind_eq_bind, Option.bind_eq_some_iff] at done
      obtain ⟨middle, first, done⟩ := done
      have next : (stat host fs (path ++ [name])).getD stat_data = false →
          ¬ Orderly host rest (fs.erase (host.cwd ++ path ++ [name])) path (some false) →
          LinkStays (host.cwd ++ path) final.1 := by
        intro noDirectory notOrderly
        rw [removeEntry_leaf real own noDirectory, Option.some.injEq] at first
        subst first
        exact ih notOrderly uniqueRest nonempty remaining false (by simp) (by simp) done
      cases content with
      | file data => exact next (by rw [stat_file real own]; rfl) notOrderly
      | link absolute target =>
          cases found : stat host fs (path ++ [name]) with
          | none =>
              by_cases noDirectory : last = some false
              · refine next ?_ fun orderly =>
                  notOrderly ⟨by simp [found], fun _ => noDirectory, orderly⟩
                rw [found]
                exact known false noDirectory
              · have taken : stat_data = true := by
                  rcases last with _ | _ | _
                  · exact unknown rfl
                  · exact absurd rfl noDirectory
                  · exact known true rfl
                rw [taken, removeEntry_nowhere found] at first
                cases first
          | some directory =>
              cases directory with
              | false =>
                  exact next (by rw [found]; rfl) fun orderly =>
                    notOrderly ⟨by simp [found], by simp [found], orderly⟩
              | true => exact linkStays_of_stat real absent found first done
  | dir name inside rest ihInside ih =>
      obtain ⟨absent, uniqueInside, uniqueRest⟩ := unique
      obtain ⟨own, remaining⟩ := lookup_first real (if_pos rfl)
        ((if_pos rfl).trans (Listing.drop_eq_self absent))
      rw [List.append_assoc] at own
      simp only [Listing.names, List.foldlM_cons, Option.bind_eq_bind, Option.bind_eq_some_iff] at done
      obtain ⟨middle, first, done⟩ := done
      simp only [removeEntry, stat_directory own, Option.getD_some, if_true,
        Option.map_eq_some_iff] at first
      obtain ⟨left, removed, rfl⟩ := first
      by_cases orderly : Orderly host inside fs (path ++ [name]) none
      · obtain ⟨inner, final, loop, cleared⟩ :=
          foldlM_removeEntry (fun _ => true) orderly uniqueInside (by simp) own true (by simp)
        have same :=
          removeDIR_mono (le_max_right fuel (inner + 1)) (removeDIR_directory own loop cleared)
        rw [removeDIR_mono (le_max_left fuel (inner + 1)) removed, Option.some.injEq] at same
        subst same
        rw [← List.append_assoc] at done
        exact ih (fun orderlyRest => notOrderly ⟨orderly, orderlyRest⟩) uniqueRest nonempty
          remaining true (by simp) (by simp) done
      · cases fuel with
        | zero => cases removed
        | succ fuel =>
            rw [removeDIR, opendir_real own, Option.bind_some, Option.map_eq_some_iff] at removed
            obtain ⟨inner, loop, rfl⟩ := removed
            have stays := ihInside orderly uniqueInside (by simp) own true (by simp) (by simp) loop
            exact stays.rest done

end Keeping

/-- Whatever `stat_data` holds at first, the old directory goes and nothing else does, exactly where
its links are orderly. -/
theorem removeDIR_iff {host : Host} {fs inside : FileSystem} {path : List CStr} (unique : fs.Unique)
    (nonempty : path ≠ []) (real : fs.lookup (host.cwd ++ path) = some (.dir inside)) :
    (∀ uninitialised, ∃ fuel, removeDIR host uninitialised fuel fs path =
      some (fs.erase (host.cwd ++ path))) ↔
      Orderly host inside fs path none := by
  have uniqueInside := unique.lookup real
  obtain ⟨above, name, rfl⟩ : ∃ above name, path = above ++ [name] :=
    (List.eq_nil_or_concat path).elim (fun empty => absurd empty nonempty) fun ⟨above, name, whole⟩ =>
      ⟨above, name, by rw [whole, List.concat_eq_append]⟩
  constructor
  · intro removes
    by_contra notOrderly
    obtain ⟨fuel, removed⟩ := removes fun _ => true
    cases fuel with
    | zero => cases removed
    | succ fuel =>
        rw [removeDIR, opendir_real real, Option.bind_some, Option.map_eq_some_iff] at removed
        obtain ⟨final, loop, left⟩ := removed
        obtain ⟨before, place, link, stuck, kept, more, rfl⟩ :=
          linkStays_of_not_orderly notOrderly uniqueInside (by simp) real true (by simp) (by simp) loop
        have still : Kept before (host.cwd ++ (above ++ [name]) ++ more) link
            (rmdir host final.1 (above ++ [name])) := kept.rmdir
        obtain ⟨content, rest, found, _⟩ := still.first
        rw [left, Listing.lookup_erase_below (by simp)] at found
        cases found
  · intro orderly uninitialised
    obtain ⟨fuel, final, loop, cleared⟩ :=
      foldlM_removeEntry uninitialised orderly uniqueInside (by simp) real
        (uninitialised (above ++ [name])) (by simp)
    exact ⟨fuel + 1, removeDIR_directory real loop cleared⟩

def home : Host := ⟨["home".toList], 40⟩

/-- `out` with a directory and, behind it, a link to the file `notes` beside `out`. -/
def plainTree : FileSystem :=
  .dir "home".toList
    (.dir "out".toList (.dir "A".toList (.leaf "A.txt".toList (.file []) .nil)
        (.leaf "link".toList (.link false [.up, .name "notes".toList]) .nil))
      (.leaf "notes".toList (.file []) .nil)) .nil

theorem removeDIR_iff_sample :
    (∀ uninitialised, ∃ fuel, removeDIR home uninitialised fuel plainTree ["out".toList] =
      some (plainTree.erase (home.cwd ++ ["out".toList]))) ↔
      Orderly home (.dir "A".toList (.leaf "A.txt".toList (.file []) .nil)
        (.leaf "link".toList (.link false [.up, .name "notes".toList]) .nil)) plainTree
        ["out".toList] none :=
  removeDIR_iff (by simp [plainTree, Listing.Unique, Listing.names]) (by simp) rfl

/-- `out` with a link to the directory `keep` beside it. -/
def linkedTree : FileSystem :=
  .dir "home".toList
    (.dir "out".toList (.leaf "link".toList (.link false [.up, .name "keep".toList]) .nil)
      (.dir "keep".toList (.leaf "thesis".toList (.file []) .nil) .nil)) .nil

/-- The directory the link leads to is emptied, and `out` stays. -/
theorem link_target_emptied : linkedTree.Unique ∧ ∀ uninitialised,
    (∀ fuel, removeDIR home uninitialised fuel linkedTree ["out".toList] ≠
      some (linkedTree.erase (home.cwd ++ ["out".toList]))) ∧
    ∃ fuel after, removeDIR home uninitialised fuel linkedTree ["out".toList] = some after ∧
      after.lookup ["home".toList, "keep".toList, "thesis".toList] = none := by
  refine ⟨by simp [linkedTree, Listing.Unique, Listing.names], fun uninitialised => ?_⟩
  let emptied : FileSystem :=
    .dir "home".toList
      (.dir "out".toList (.leaf "link".toList (.link false [.up, .name "keep".toList]) .nil)
        (.dir "keep".toList .nil .nil)) .nil
  have run : ∀ fuel, removeDIR home uninitialised (fuel + 2) linkedTree ["out".toList] =
    some emptied := fun _ => rfl
  refine ⟨fun fuel => ?_, 2, emptied, run 0, rfl⟩
  rcases fuel with _ | _ | fuel
  · simp [removeDIR]
  · have crashed : removeDIR home uninitialised 1 linkedTree ["out".toList] = none := rfl
    rw [crashed]
    exact (Option.some_ne_none _).symm
  · rw [run fuel]
    intro same
    have out := congrArg (fun left : Option FileSystem => left.map fun fs =>
      (fs.kindAt ["home".toList, "out".toList]).isSome) same
    revert out
    decide

end VoteCounting.Threads
