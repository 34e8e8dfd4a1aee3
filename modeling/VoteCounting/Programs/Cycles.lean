import VoteCounting.Strings

namespace VoteCounting.Programs

open CString

/-! The report of the links that close a cycle.

Directories are taken to be open, and their entries other than links are passed over.  A file is
known by the components of its path.
-/

/-- What the links before leave in the buffers of a call.  `stroutput` is not initialised. -/
structure LinkBuffers where
  writepathSymlink : CStr := []
  bufSymlink : CStr := []
  stroutput : CStr

def whoWon : CStr := "Who_Won".toList

def whoWonFile : CStr := "Who_Won.txt".toList

/-- No terminator is written behind the target. -/
def readlink (target bufSymlink : CStr) : CStr := target ++ bufSymlink.drop target.length

def cycleLine (source pointto : CStr) : CStr :=
  "There is a cycle from ".toList ++ (source ++ " to ".toList ++ pointto ++ ".\n".toList)

/-- The loop over the components of the path, for component `i`. -/
def inspectComponent (argvpSymlink : List CStr) (pointto : CStr) (buffers : CStr × CStr) (i : Nat) :
    CStr × CStr :=
  let stroutput :=
    if argvpSymlink[i]? = some pointto then cycleLine (argvpSymlink.getLastD []) pointto else buffers.1
  let writepathSymlink :=
    if argvpSymlink[i]? = some whoWon then
      let extended := buffers.2 ++ (argvpSymlink.take (i + 1)).flatMap (· ++ ['/']) ++ whoWonFile
      if argvpSymlink.head? = some "home".toList then '/' :: extended else extended
    else buffers.2
  (stroutput, writepathSymlink)

/-- The components of a path from the root. -/
def location (cwd : List CStr) (path : CStr) : List CStr :=
  (if path.head? = some '/' then [] else cwd) ++ makeargv path '/'

def fwrite (file : List CStr) (text : CStr) : List (List CStr × CStr) :=
  if text = [] then [] else [(file, text)]

/-- What is appended to which files, for the targets of the links in a directory.  A file that is
not `openable` ends the program, as does a target without components. -/
def findLoop (cwd : List CStr) (openable : List CStr → Bool) (path : CStr) :
    LinkBuffers → List CStr → List (List CStr × CStr)
  | _, [] => []
  | buffers, target :: rest =>
      let argvpSymlink := makeargv path '/'
      let bufSymlink := readlink target buffers.bufSymlink
      match (makeargv bufSymlink '/').getLast? with
      | none => []
      | some pointto =>
          let after := (List.range argvpSymlink.length).foldl (inspectComponent argvpSymlink pointto)
            (buffers.stroutput, buffers.writepathSymlink)
          if openable (location cwd after.2) then
            fwrite (location cwd after.2) after.1 ++ findLoop cwd openable path
              ⟨after.2, bufSymlink, after.1⟩ rest
          else []

/-- The last component of a target, if it is one of the path. -/
def closing (path target : CStr) : Option CStr :=
  (makeargv target '/').getLast?.filter (makeargv path '/').contains

/-- The components of the path down to `Who_Won`. -/
def whoWonPath (path : CStr) : List CStr := (makeargv path '/').takeWhile (· ≠ whoWon) ++ [whoWon]

/-- The file beside the results of `Who_Won`. -/
def report (cwd : List CStr) (path : CStr) : List CStr :=
  (if path.head? = some '/' then [] else cwd) ++ whoWonPath path ++ [whoWonFile]

def expected (cwd : List CStr) (path : CStr) (targets : List CStr) : List (List CStr × CStr) :=
  (targets.filterMap (closing path)).map fun pointto =>
    (report cwd path, cycleLine ((makeargv path '/').getLastD []) pointto)

/-- The next output path, which is put behind the one before. -/
def nextWritepath (path writepathSymlink : CStr) : CStr :=
  (if (makeargv path '/').head? = some "home".toList then ['/'] else []) ++
    (writepathSymlink ++ (whoWonPath path).flatMap (· ++ ['/']) ++ whoWonFile)

/-- A link that ends the program before anything is written. -/
def Stops (cwd : List CStr) (openable : List CStr → Bool)
    (path writepathSymlink bufSymlink target : CStr) : Prop :=
  makeargv (readlink target bufSymlink) '/' = [] ∨
    openable (location cwd (nextWritepath path writepathSymlink)) = false

/-- The directories whose cycles are reported right. -/
inductive Reported (cwd : List CStr) (openable : List CStr → Bool) (path : CStr) : List CStr → Prop
  | empty : Reported cwd openable path []
  /-- No link closes a cycle, and the first one ends the program. -/
  | stopped {first : CStr} {rest : List CStr} : (∀ target ∈ first :: rest, closing path target = none) →
      Stops cwd openable path [] [] first → Reported cwd openable path (first :: rest)
  /-- The first link closes a cycle, its output path is right, and a second one ends the program. -/
  | written {first : CStr} {rest : List CStr} : closing path first ≠ none →
      location cwd (nextWritepath path []) = report cwd path → openable (report cwd path) →
      (∀ target ∈ rest, closing path target = none) →
      (∀ second ∈ rest.head?, Stops cwd openable path (nextWritepath path []) first second) →
      Reported cwd openable path (first :: rest)

section Reporting

variable {cwd : List CStr} {openable : List CStr → Bool}
  {path target pointto stroutput writepath bufSymlink : CStr}
  {rest targets components : List CStr}

/-- A component that is in the path once has one position. -/
theorem position_iff {front back : List CStr} {name : CStr} (notFront : name ∉ front)
    (notBack : name ∉ back) {i : Nat} :
    (front ++ name :: back)[i]? = some name ↔ i = front.length := by
  constructor
  · intro found
    rcases Nat.lt_trichotomy i front.length with before | same | behind
    · rw [List.getElem?_append_left before] at found
      exact absurd (List.mem_of_getElem? found) notFront
    · exact same
    · obtain ⟨k, rfl⟩ : ∃ k, i = front.length + (k + 1) := ⟨i - front.length - 1, by omega⟩
      rw [List.getElem?_append_right (by omega), Nat.add_sub_cancel_left,
        List.getElem?_cons_succ] at found
      exact absurd (List.mem_of_getElem? found) notBack
  · rintro rfl
    simp

theorem takeWhile_whoWon {front back : List CStr} (notFront : whoWon ∉ front) :
    (front ++ whoWon :: back).takeWhile (· ≠ whoWon) ++ [whoWon] =
      (front ++ whoWon :: back).take (front.length + 1) := by
  have kept : front.takeWhile (· ≠ whoWon) = front :=
    List.takeWhile_eq_self_iff.mpr fun name held => by
      simpa using fun same : name = whoWon => notFront (same ▸ held)
  rw [List.takeWhile_append, kept]
  simp [List.take_append]

/-- The loop as far as component `n`, for `Who_Won` at one position. -/
theorem foldl_inspectComponent_take {position n : Nat}
    (only : ∀ {i}, components[i]? = some whoWon ↔ i = position) (inside : n ≤ components.length) :
    (List.range n).foldl (inspectComponent components pointto) (stroutput, writepath) =
      (if pointto ∈ components.take n then cycleLine (components.getLastD []) pointto else stroutput,
        if position < n then
          (if components.head? = some "home".toList then ['/'] else []) ++
            (writepath ++ (components.take (position + 1)).flatMap (· ++ ['/']) ++ whoWonFile)
        else writepath) := by
  induction n with
  | zero => simp
  | succ n ih =>
      rw [List.range_succ, List.foldl_append, ih (by omega), List.foldl_cons, List.foldl_nil,
        inspectComponent]
      refine Prod.ext ?_ ?_
      · have next : components.take (n + 1) = components.take n ++ [components[n]] := by simp
        have found : components[n]? = some components[n] := List.getElem?_eq_getElem inside
        rw [next, found]
        simp only [Option.some.injEq, List.mem_append, List.mem_singleton]
        by_cases same : components[n] = pointto
        · simp [same]
        · simp [same, Ne.symm same]
      · by_cases own : n = position
        · subst own
          have here : components[n]? = some whoWon := only.mpr rfl
          simp only [here, if_true, lt_irrefl, if_false, Nat.lt_succ_self]
          split <;> simp
        · have elsewhere : components[n]? ≠ some whoWon := mt only.mp own
          have behind : position < n + 1 ↔ position < n := by omega
          simp only [elsewhere, if_false, behind]

/-- The loop over the components writes the line if the path has the component, and extends the
output path once. -/
theorem foldl_inspectComponent (one : components.count whoWon = 1) :
    (List.range components.length).foldl (inspectComponent components pointto) (stroutput, writepath) =
      (if pointto ∈ components then cycleLine (components.getLastD []) pointto else stroutput,
        (if components.head? = some "home".toList then ['/'] else []) ++ (writepath ++
          (components.takeWhile (· ≠ whoWon) ++ [whoWon]).flatMap (· ++ ['/']) ++ whoWonFile)) := by
  have member : whoWon ∈ components := List.count_pos_iff.mp (by omega)
  obtain ⟨front, back, rfl, notFront⟩ := List.eq_append_cons_of_mem member
  have notBack : whoWon ∉ back := by
    rw [List.count_append, List.count_cons_self, List.count_eq_zero.mpr notFront] at one
    exact List.count_eq_zero.mp (by omega)
  have inside : front.length < (front ++ whoWon :: back).length := by simp
  rw [takeWhile_whoWon notFront,
    foldl_inspectComponent_take (position_iff notFront notBack) (le_refl _), List.take_length,
    if_pos inside]

/-- What one link does. -/
theorem findLoop_cons (one : (makeargv path '/').count whoWon = 1) :
    findLoop cwd openable path ⟨writepath, bufSymlink, stroutput⟩ (target :: rest) =
      match (makeargv (readlink target bufSymlink) '/').getLast? with
      | none => []
      | some pointto =>
          let stroutput :=
            if pointto ∈ makeargv path '/' then cycleLine ((makeargv path '/').getLastD []) pointto
            else stroutput
          if openable (location cwd (nextWritepath path writepath)) then
            fwrite (location cwd (nextWritepath path writepath)) stroutput ++
              findLoop cwd openable path
                ⟨nextWritepath path writepath, readlink target bufSymlink, stroutput⟩ rest
          else [] := by
  rw [findLoop]
  simp only [foldl_inspectComponent one]
  rfl

theorem findLoop_stops (one : (makeargv path '/').count whoWon = 1)
    (stops : Stops cwd openable path writepath bufSymlink target) :
    findLoop cwd openable path ⟨writepath, bufSymlink, stroutput⟩ (target :: rest) = [] := by
  rw [findLoop_cons one]
  rcases stops with none | closed
  · rw [none]
    rfl
  · cases (makeargv (readlink target bufSymlink) '/').getLast? with
    | none => rfl
    | some pointto => simp [closed]

theorem two_le_cycleLine (source pointto : CStr) : 2 ≤ (cycleLine source pointto).length := by
  have opening : 2 ≤ "There is a cycle from ".toList.length := by simp
  exact opening.trans (List.prefix_append _ _).length_le

theorem cycleLine_ne_nil (source pointto : CStr) : cycleLine source pointto ≠ [] := by
  have long := two_le_cycleLine source pointto
  exact List.ne_nil_of_length_pos (by omega)

theorem readlink_nil : readlink target [] = target := by simp [readlink]

theorem fwrite_append {line : CStr} (text : line ≠ []) (file : List CStr)
    (more : List (List CStr × CStr)) :
    fwrite file line ++ more = (file, line) :: more := by
  rw [fwrite, if_neg text]
  rfl

/-- A link that does not end the program has something written for it, unless nothing is left to
write. -/
theorem findLoop_continues (one : (makeargv path '/').count whoWon = 1)
    (continues : ¬ Stops cwd openable path writepath bufSymlink target) (text : stroutput ≠ []) :
    ∃ pointto, (makeargv (readlink target bufSymlink) '/').getLast? = some pointto ∧
      findLoop cwd openable path ⟨writepath, bufSymlink, stroutput⟩ (target :: rest) =
        let stroutput :=
          if pointto ∈ makeargv path '/' then cycleLine ((makeargv path '/').getLastD []) pointto
          else stroutput
        (location cwd (nextWritepath path writepath), stroutput) ::
          findLoop cwd openable path
            ⟨nextWritepath path writepath, readlink target bufSymlink, stroutput⟩ rest := by
  rw [Stops, not_or, Bool.not_eq_false] at continues
  obtain ⟨some, opened⟩ := continues
  refine ⟨_, List.getLast?_eq_some_getLast some, ?_⟩
  rw [findLoop_cons one, List.getLast?_eq_some_getLast some]
  simp only [opened, if_true]
  apply fwrite_append
  split
  · exact cycleLine_ne_nil _ _
  · exact text

theorem makeargv_components (components : List CStr)
    (plain : ∀ name ∈ components, name ≠ [] ∧ '/' ∉ name)
    {last : CStr} (nonempty : last ≠ []) (free : '/' ∉ last) :
    makeargv (components.flatMap (· ++ ['/']) ++ last) '/' = components ++ [last] := by
  induction components with
  | nil => exact tokens_word free nonempty
  | cons name rest ih =>
      have own := plain name List.mem_cons_self
      rw [List.flatMap_cons, List.append_assoc, List.append_assoc, List.singleton_append, makeargv,
        tokens_word_delim own.2 own.1, ← makeargv, ih fun name held =>
          plain name (List.mem_cons_of_mem _ held)]
      rfl

theorem plain_whoWonPath (path : CStr) : ∀ name ∈ whoWonPath path, name ≠ [] ∧ '/' ∉ name := by
  intro name member
  rcases List.mem_append.mp member with kept | own
  · have component : name ∈ tokens '/' path := (List.takeWhile_sublist _).subset kept
    exact ⟨ne_nil_of_mem_tokens component, delim_notMem_token component⟩
  · obtain rfl := List.mem_singleton.mp own
    decide

/-- What is put behind the output path begins with a component. -/
theorem exists_component (path : CStr) : ∃ c name rest, c ≠ '/' ∧ '/' ∉ c :: name ∧
    whoWonPath path = (c :: name) :: rest := by
  cases components : whoWonPath path with
  | nil => simp [whoWonPath] at components
  | cons first rest =>
      have plain : first ≠ [] ∧ '/' ∉ first :=
        plain_whoWonPath path first (components ▸ List.mem_cons_self)
      obtain ⟨c, name, rfl⟩ := List.exists_cons_of_ne_nil plain.1
      exact ⟨c, name, rest, fun same => plain.2 (same ▸ List.mem_cons_self), plain.2, rfl⟩

theorem head_extended (relative : writepath.head? ≠ some '/') :
    (writepath ++ (whoWonPath path).flatMap (· ++ ['/']) ++ whoWonFile).head? ≠ some '/' := by
  obtain ⟨c, name, rest, notSlash, _, first⟩ := exists_component path
  cases writepath with
  | nil => simpa [first] using notSlash
  | cons d writepath => simpa using relative

theorem makeargv_slash (text : CStr) : makeargv ('/' :: text) '/' = makeargv text '/' := by
  have slash : tokens '/' ([] ++ '/' :: text) = tokens '/' [] ++ tokens '/' text :=
    tokens_append_delim [] text
  rwa [List.nil_append, tokens_nil, List.nil_append] at slash

/-- Of the output paths only those of a path that begins with `home` are absolute. -/
theorem location_nextWritepath
    (relative : (makeargv path '/').head? = some "home".toList ∨ writepath.head? ≠ some '/') :
    location cwd (nextWritepath path writepath) =
      (if (makeargv path '/').head? = some "home".toList then [] else cwd) ++
        makeargv (writepath ++ (whoWonPath path).flatMap (· ++ ['/']) ++ whoWonFile) '/' := by
  rw [location, nextWritepath]
  by_cases home : (makeargv path '/').head? = some "home".toList
  · rw [if_pos home, List.singleton_append, List.head?_cons, if_pos rfl, if_pos home, makeargv_slash]
  · rw [if_neg home, List.nil_append, if_neg (head_extended (relative.resolve_left home)), if_neg home]

theorem makeargv_first : makeargv (nextWritepath path []) '/' = whoWonPath path ++ [whoWonFile] := by
  have components : makeargv ((whoWonPath path).flatMap (· ++ ['/']) ++ whoWonFile) '/' =
      whoWonPath path ++ [whoWonFile] :=
    makeargv_components _ (plain_whoWonPath path) (by decide) (by decide)
  rw [nextWritepath, List.nil_append]
  split
  · rw [List.singleton_append, makeargv_slash, components]
  · rw [List.nil_append, components]

/-- The first output path leads to the file beside the results of `Who_Won`. -/
theorem location_first : location cwd (nextWritepath path []) =
      (if (makeargv path '/').head? = some "home".toList then [] else cwd) ++
        (whoWonPath path ++ [whoWonFile]) := by
  rw [location_nextWritepath (.inr (by simp)), List.nil_append,
    makeargv_components _ (plain_whoWonPath path) (by decide) (by decide)]

/-- The second one has more components. -/
theorem location_second :
    location cwd (nextWritepath path (nextWritepath path [])) ≠
      location cwd (nextWritepath path []) := by
  have relative : (makeargv path '/').head? = some "home".toList ∨
      (nextWritepath path []).head? ≠ some '/' := by
    by_cases home : (makeargv path '/').head? = some "home".toList
    · exact .inl home
    · rw [nextWritepath, if_neg home, List.nil_append]
      exact .inr (head_extended (by simp))
  obtain ⟨c, name, rest, _, free, first⟩ := exists_component path
  have filled : nextWritepath path [] ≠ [] := by simp [nextWritepath, first]
  have ended : (nextWritepath path []).getLast? ≠ some '/' := by
    have last : whoWonFile.getLast? ≠ some '/' := by decide
    rw [nextWritepath, ← List.append_assoc, List.getLast?_append_of_ne_nil _ (by decide)]
    exact last
  obtain ⟨front, final, before, after⟩ := tokens_append_word free filled ended
  have split : nextWritepath path [] ++ (whoWonPath path).flatMap (· ++ ['/']) ++ whoWonFile =
      (nextWritepath path [] ++ c :: name) ++ '/' :: (rest.flatMap (· ++ ['/']) ++ whoWonFile) := by
    simp [first]
  have others : tokens '/' (rest.flatMap (· ++ ['/']) ++ whoWonFile) = rest ++ [whoWonFile] := by
    refine makeargv_components rest (fun name held => plain_whoWonPath path name ?_)
      (by decide) (by decide)
    rw [first]
    exact List.mem_cons_of_mem _ held
  intro same
  rw [location_nextWritepath relative, location_first, List.append_cancel_left_eq, split, makeargv,
    tokens_append_delim, after, others, ← makeargv_first, makeargv, before] at same
  have length := congrArg List.length same
  simp only [List.length_append, List.length_singleton] at length
  omega

theorem closing_eq_some_iff : closing path target = some pointto ↔
    (makeargv target '/').getLast? = some pointto ∧ pointto ∈ makeargv path '/' := by
  rw [closing, Option.filter_eq_some_iff, List.contains_iff_mem]

theorem expected_eq_nil_iff :
    expected cwd path targets = [] ↔ ∀ target ∈ targets, closing path target = none := by
  rw [expected, List.map_eq_nil_iff, List.filterMap_eq_nil_iff]

theorem expected_cons (closes : closing path target = some pointto) :
    expected cwd path (target :: rest) =
      (report cwd path, cycleLine ((makeargv path '/').getLastD []) pointto) ::
        expected cwd path rest := by
  rw [expected, List.filterMap_cons_some closes]
  rfl

theorem mem_expected {file : List CStr} {line : CStr}
    (member : (file, line) ∈ expected cwd path targets) :
    file = report cwd path ∧ 2 ≤ line.length := by
  obtain ⟨pointto, _, same⟩ := List.mem_map.mp member
  obtain ⟨rfl, rfl⟩ := Prod.mk.inj same
  exact ⟨rfl, two_le_cycleLine _ pointto⟩

/-- What is done behind a line that was written. -/
theorem reports_rest_iff (one : (makeargv path '/').count whoWon = 1)
    (right : location cwd (nextWritepath path []) = report cwd path) (text : stroutput ≠ []) :
    findLoop cwd openable path ⟨nextWritepath path [], bufSymlink, stroutput⟩ rest =
      expected cwd path rest ↔
      (∀ target ∈ rest, closing path target = none) ∧
        ∀ second ∈ rest.head?, Stops cwd openable path (nextWritepath path []) bufSymlink second := by
  cases rest with
  | nil => simp [findLoop, expected]
  | cons second rest =>
      simp only [List.head?_cons, Option.mem_def, Option.some.injEq, forall_eq']
      by_cases stops : Stops cwd openable path (nextWritepath path []) bufSymlink second
      · rw [findLoop_stops one stops, eq_comm, expected_eq_nil_iff, and_iff_left stops]
      · refine iff_of_false (fun same => ?_) fun held => stops held.2
        have run : ∃ pointto, _ ∧ findLoop cwd openable path _ (second :: rest) = _ :=
          findLoop_continues one stops text
        obtain ⟨pointto, _, run⟩ := run
        rw [same] at run
        have file := (mem_expected (run ▸ List.mem_cons_self)).1
        exact location_second (file.trans right.symm)

end Reporting

/-- Whatever `stroutput` holds at first, the links that close a cycle are reported and nothing else
is written, exactly where there is no such link or it is the first and only one. -/
theorem findLoop_reports_iff (cwd : List CStr) (openable : List CStr → Bool) {path : CStr}
    (targets : List CStr) (one : (makeargv path '/').count whoWon = 1) :
    (∀ uninitialised, findLoop cwd openable path ⟨[], [], uninitialised⟩ targets =
      expected cwd path targets) ↔
      Reported cwd openable path targets := by
  cases targets with
  | nil => exact iff_of_true (fun _ => rfl) .empty
  | cons first rest =>
      constructor
      · intro reports
        by_cases stops : Stops cwd openable path [] [] first
        · have nothing := reports []
          rw [findLoop_stops one stops] at nothing
          exact .stopped (expected_eq_nil_iff.mp nothing.symm) stops
        · have run : ∃ pointto, _ ∧ findLoop cwd openable path ⟨[], [], ['x']⟩ (first :: rest) = _ :=
            findLoop_continues one stops (by simp)
          obtain ⟨pointto, last, run⟩ := run
          rw [readlink_nil] at last
          rw [reports] at run
          by_cases inside : pointto ∈ makeargv path '/'
          · have closes := closing_eq_some_iff.mpr ⟨last, inside⟩
            simp only [expected_cons closes, if_pos inside, List.cons.injEq, Prod.mk.injEq,
              and_true] at run
            have right := run.1.symm
            rw [readlink_nil] at run
            obtain ⟨none, stopped⟩ := (reports_rest_iff one right (cycleLine_ne_nil _ _)).mp run.2.symm
            have opened : openable (location cwd (nextWritepath path [])) := by
              rw [Stops, not_or, Bool.not_eq_false] at stops
              exact stops.2
            exact .written (by simp [closes]) right (right ▸ opened) none stopped
          · simp only [if_neg inside] at run
            have long := (mem_expected (run ▸ List.mem_cons_self)).2
            simp at long
      · intro reported uninitialised
        cases reported with
        | stopped none stops => rw [findLoop_stops one stops, expected_eq_nil_iff.mpr none]
        | written closes right opened none stops =>
            obtain ⟨pointto, closes⟩ := Option.ne_none_iff_exists'.mp closes
            obtain ⟨last, inside⟩ := closing_eq_some_iff.mp closes
            rw [findLoop_cons one, readlink_nil, last, expected_cons closes]
            simp only [if_pos inside, right, opened, if_true]
            rw [fwrite_append (cycleLine_ne_nil _ _)]
            congr 1
            exact (reports_rest_iff one right (cycleLine_ne_nil _ _)).mpr ⟨none, stops⟩

theorem findLoop_reports_iff_sample :
    (∀ uninitialised, findLoop [] (fun _ => true) "Who_Won/A".toList ⟨[], [], uninitialised⟩
      ["..".toList] =
      expected [] "Who_Won/A".toList ["..".toList]) ↔
      Reported [] (fun _ => true) "Who_Won/A".toList ["..".toList] :=
  findLoop_reports_iff _ _ _ (by decide)

/-- Of two links that close a cycle the second one is not reported: the output path is put behind
the one of the first. -/
theorem second_cycle_not_reported : (makeargv "Who_Won/A".toList '/').count whoWon = 1 ∧
    ∀ uninitialised, findLoop [] (fun file => file = ["Who_Won".toList, "Who_Won.txt".toList])
      "Who_Won/A".toList
        ⟨[], [], uninitialised⟩ ["../A".toList, "../../Who_Won".toList] ≠
      expected [] "Who_Won/A".toList ["../A".toList, "../../Who_Won".toList] := by
  refine ⟨by decide, fun uninitialised same => ?_⟩
  have run :
    (findLoop [] (fun file => file = ["Who_Won".toList, "Who_Won.txt".toList]) "Who_Won/A".toList
      ⟨[], [], uninitialised⟩ ["../A".toList, "../../Who_Won".toList]).length = 1 := rfl
  rw [same] at run
  revert run
  decide

end VoteCounting.Programs
