import Mathlib.Tactic

namespace VoteCounting.FileTree

universe u v

/-- A component of a path as a link holds it. -/
inductive Component (ν : Type u) where
  | here
  | up
  | name (name : ν)

/-- What is not a directory. -/
inductive Leaf (ν : Type u) (δ : Type v) where
  | file (data : δ)
  | link (absolute : Bool) (target : List (Component ν))

/-- The entries of a directory, in the order in which they are read. -/
inductive Listing (ν : Type u) (δ : Type v) where
  | nil
  | leaf (name : ν) (content : Leaf ν δ) (rest : Listing ν δ)
  | dir (name : ν) (inside rest : Listing ν δ)

inductive Item (ν : Type u) (δ : Type v) where
  | leaf (content : Leaf ν δ)
  | dir (inside : Listing ν δ)

/-- An item without the entries of a directory. -/
inductive ItemKind (ν : Type u) (δ : Type v) where
  | leaf (content : Leaf ν δ)
  | dir

variable {ν : Type u} {δ : Type v}

def Item.kind : Item ν δ → ItemKind ν δ
  | leaf content => .leaf content
  | dir _ => .dir

def Item.map (f : Listing ν δ → Listing ν δ) : Item ν δ → Item ν δ
  | leaf content => .leaf content
  | dir inside => .dir (f inside)

namespace Listing

variable [DecidableEq ν]

def names : Listing ν δ → List ν
  | nil => []
  | leaf name _ rest => name :: rest.names
  | dir name _ rest => name :: rest.names

def find : Listing ν δ → ν → Option (Item ν δ)
  | nil, _ => none
  | leaf name content rest, other => if name = other then some (.leaf content) else rest.find other
  | dir name inside rest, other => if name = other then some (.dir inside) else rest.find other

/-- Without the entry of this name. -/
def drop : Listing ν δ → ν → Listing ν δ
  | nil, _ => nil
  | leaf name content rest, other =>
      if name = other then rest.drop other else .leaf name content (rest.drop other)
  | dir name inside rest, other =>
      if name = other then rest.drop other else .dir name inside (rest.drop other)

/-- Changes the directory of this name. -/
def modify (f : Listing ν δ → Listing ν δ) : Listing ν δ → ν → Listing ν δ
  | nil, _ => nil
  | leaf name content rest, other => .leaf name content (rest.modify f other)
  | dir name inside rest, other =>
      .dir name (if name = other then f inside else inside) (rest.modify f other)

/-- No directory holds a name twice. -/
def Unique : Listing ν δ → Prop
  | nil => True
  | leaf name _ rest => name ∉ rest.names ∧ rest.Unique
  | dir name inside rest => name ∉ rest.names ∧ inside.Unique ∧ rest.Unique

end Listing

def Item.get [DecidableEq ν] : Item ν δ → ν → Option (Item ν δ)
  | leaf _, _ => none
  | dir inside, name => inside.find name

namespace Listing

variable [DecidableEq ν]

/-- What is at a path of real entries; links are not followed. -/
def lookup (fs : Listing ν δ) (path : List ν) : Option (Item ν δ) := path.foldlM Item.get (.dir fs)

def kindAt (fs : Listing ν δ) (path : List ν) : Option (ItemKind ν δ) := (fs.lookup path).map Item.kind

/-- Without the entry at this path. -/
def erase : Listing ν δ → List ν → Listing ν δ
  | fs, [] => fs
  | fs, [name] => fs.drop name
  | fs, name :: next :: rest => fs.modify (fun inside => inside.erase (next :: rest)) name

section Lookup

variable {fs listing : Listing ν δ} {name other : ν} {path rest gone : List ν} {item : Item ν δ}
  {f : Listing ν δ → Listing ν δ}

theorem lookup_cons :
    fs.lookup (name :: rest) = (fs.find name).bind fun item => rest.foldlM Item.get item := rfl

theorem lookup_append :
    fs.lookup (path ++ rest) = (fs.lookup path).bind fun item => rest.foldlM Item.get item := by
  rw [lookup, List.foldlM_append]
  rfl

/-- Below a directory the path goes on as in a tree of its own. -/
theorem lookup_below (found : fs.lookup path = some (.dir listing)) :
    fs.lookup (path ++ rest) = listing.lookup rest := by
  rw [lookup_append, found]
  rfl

theorem lookup_concat :
    fs.lookup (path ++ [name]) = (fs.lookup path).bind fun item => item.get name := by
  rw [lookup_append]
  congr 1
  funext item
  simp

/-- What has something below it is a directory. -/
theorem dir_of_lookup_concat (found : fs.lookup (path ++ [name]) = some item) :
    ∃ listing, fs.lookup path = some (.dir listing) ∧ listing.find name = some item := by
  rw [lookup_concat, Option.bind_eq_some_iff] at found
  obtain ⟨parent, above, entry⟩ := found
  cases parent with
  | leaf _ => cases entry
  | dir listing => exact ⟨listing, above, entry⟩

/-- What is above a directory is one. -/
theorem dir_of_lookup_append (found : fs.lookup (path ++ rest) = some (.dir listing)) :
    ∃ above, fs.lookup path = some (.dir above) := by
  rw [lookup_append, Option.bind_eq_some_iff] at found
  obtain ⟨item, above, below⟩ := found
  cases item with
  | dir inside => exact ⟨inside, above⟩
  | leaf content => cases rest <;> cases below

theorem lookup_of_kindAt_dir (found : fs.kindAt path = some .dir) :
    ∃ inside, fs.lookup path = some (.dir inside) := by
  rw [kindAt, Option.map_eq_some_iff] at found
  obtain ⟨item, found, kind⟩ := found
  cases item with
  | dir inside => exact ⟨inside, found⟩
  | leaf content => cases kind

theorem find_drop_self : (listing.drop name).find name = none := by
  induction listing with
  | nil => rfl
  | leaf entry content rest ih =>
      rw [drop]
      split
      · exact ih
      · rename_i different
        rw [find, if_neg different, ih]
  | dir entry inside rest _ ih =>
      rw [drop]
      split
      · exact ih
      · rename_i different
        rw [find, if_neg different, ih]

theorem find_drop_of_ne (different : other ≠ name) :
    (listing.drop name).find other = listing.find other := by
  induction listing with
  | nil => rfl
  | leaf entry content rest ih =>
      rw [drop]
      split
      · rename_i same
        rw [ih, find, if_neg (same ▸ different.symm)]
      · rw [find, find, ih]
  | dir entry inside rest _ ih =>
      rw [drop]
      split
      · rename_i same
        rw [ih, find, if_neg (same ▸ different.symm)]
      · rw [find, find, ih]

theorem find_modify_self :
    (listing.modify f name).find name = (listing.find name).map (Item.map f) := by
  induction listing with
  | nil => rfl
  | leaf entry content rest ih =>
      rw [modify, find, find, ih]
      split <;> rfl
  | dir entry inside rest _ ih =>
      rw [modify, find, find, ih]
      split <;> rfl

theorem find_modify_of_ne (different : other ≠ name) :
    (listing.modify f name).find other = listing.find other := by
  induction listing with
  | nil => rfl
  | leaf entry content rest ih => rw [modify, find, find, ih]
  | dir entry inside rest _ ih =>
      rw [modify, find, find, ih]
      split
      · rename_i same
        rw [if_neg (same ▸ different)]
      · rfl

theorem erase_cons (nonempty : rest ≠ []) :
    fs.erase (name :: rest) = fs.modify (fun inside => inside.erase rest) name := by
  obtain ⟨next, rest, rfl⟩ := List.exists_cons_of_ne_nil nonempty
  rfl

theorem lookup_erase_below (some : gone ≠ []) : (fs.erase gone).lookup (gone ++ rest) = none := by
  induction gone generalizing fs with
  | nil => exact absurd rfl some
  | cons name gone ih =>
      by_cases last : gone = []
      · subst last
        rw [erase, List.singleton_append, lookup_cons, find_drop_self]
        rfl
      · rw [erase_cons last, List.cons_append, lookup_cons, find_modify_self]
        cases fs.find name with
        | none => rfl
        | some item =>
            cases item with
            | leaf content =>
                obtain ⟨next, gone, rfl⟩ := List.exists_cons_of_ne_nil last
                rfl
            | dir inside => exact ih last

theorem lookup_erase_above (nonempty : rest ≠ []) :
    (fs.erase (path ++ rest)).lookup path =
      (fs.lookup path).map (Item.map fun inside => inside.erase rest) := by
  induction path generalizing fs with
  | nil => rfl
  | cons name path ih =>
      have more : path ++ rest ≠ [] := by simp [nonempty]
      rw [List.cons_append, erase_cons more, lookup_cons, lookup_cons, find_modify_self]
      cases fs.find name with
      | none => rfl
      | some item =>
          cases item with
          | dir inside => exact ih
          | leaf content => cases path <;> rfl

theorem lookup_erase_apart (notBelow : ¬ gone <+: path) (notAbove : ¬ path <+: gone) :
    (fs.erase gone).lookup path = fs.lookup path := by
  induction gone generalizing fs path with
  | nil => exact absurd List.nil_prefix notBelow
  | cons name gone ih =>
      cases path with
      | nil => exact absurd List.nil_prefix notAbove
      | cons first path =>
          rw [lookup_cons, lookup_cons]
          by_cases same : first = name
          · subst same
            rw [List.prefix_cons_inj] at notBelow notAbove
            have more : gone ≠ [] := fun empty => notBelow (empty ▸ List.nil_prefix)
            rw [erase_cons more, find_modify_self]
            cases fs.find first with
            | none => rfl
            | some item =>
                cases item with
                | leaf content => rfl
                | dir inside => exact ih notBelow notAbove
          · congr 1
            by_cases last : gone = []
            · subst last
              exact find_drop_of_ne same
            · rw [erase_cons last, find_modify_of_ne same]

theorem kindAt_erase (nonempty : gone ≠ []) :
    (fs.erase gone).kindAt path = if gone <+: path then none else fs.kindAt path := by
  rw [kindAt, kindAt]
  split
  · rename_i below
    obtain ⟨rest, rfl⟩ := below
    rw [lookup_erase_below nonempty]
    rfl
  · rename_i notBelow
    by_cases above : path <+: gone
    · obtain ⟨rest, rfl⟩ := above
      have more : rest ≠ [] := by
        rintro rfl
        exact notBelow (by simp)
      rw [lookup_erase_above more, Option.map_map]
      congr 1
      funext item
      cases item <;> rfl
    · rw [lookup_erase_apart notBelow above]

theorem drop_modify : (fs.modify f name).drop name = fs.drop name := by
  induction fs with
  | nil => rfl
  | leaf entry content rest ih => rw [modify, drop, drop, ih]
  | dir entry inside rest _ ih =>
      rw [modify, drop, drop, ih]
      split <;> rfl

theorem modify_modify {g : Listing ν δ → Listing ν δ} :
    (fs.modify f name).modify g name = fs.modify (fun inside => g (f inside)) name := by
  induction fs with
  | nil => rfl
  | leaf entry content rest ih => rw [modify, modify, modify, ih]
  | dir entry inside rest _ ih =>
      rw [modify, modify, modify, ih]
      split <;> rfl

/-- What was erased below a path does not matter when the path is erased. -/
theorem erase_erase (nonempty : path ≠ []) (more : rest ≠ []) :
    (fs.erase (path ++ rest)).erase path = fs.erase path := by
  induction path generalizing fs with
  | nil => exact absurd rfl nonempty
  | cons name path ih =>
      have deeper : path ++ rest ≠ [] := by simp [more]
      rw [List.cons_append, erase_cons deeper]
      by_cases last : path = []
      · subst last
        exact drop_modify
      · rw [erase_cons last, erase_cons last, modify_modify]
        congr 1
        funext inside
        exact ih last

theorem drop_eq_self (absent : name ∉ fs.names) : fs.drop name = fs := by
  induction fs with
  | nil => rfl
  | leaf entry content rest ih =>
      rw [names, List.mem_cons, not_or] at absent
      rw [drop, if_neg (Ne.symm absent.1), ih absent.2]
  | dir entry inside rest _ ih =>
      rw [names, List.mem_cons, not_or] at absent
      rw [drop, if_neg (Ne.symm absent.1), ih absent.2]

theorem names_modify : (fs.modify f name).names = fs.names := by
  induction fs with
  | nil => rfl
  | leaf entry content rest ih => rw [modify, names, names, ih]
  | dir entry inside rest _ ih => rw [modify, names, names, ih]

theorem names_drop_subset : (fs.drop name).names ⊆ fs.names := by
  induction fs with
  | nil => exact List.Subset.refl _
  | leaf entry content rest ih =>
      rw [drop, names]
      split
      · exact List.subset_cons_of_subset _ ih
      · exact List.cons_subset_cons _ ih
  | dir entry inside rest _ ih =>
      rw [drop, names]
      split
      · exact List.subset_cons_of_subset _ ih
      · exact List.cons_subset_cons _ ih

theorem Unique.find (unique : fs.Unique) (found : fs.find name = some (.dir listing)) :
    listing.Unique := by
  induction fs with
  | nil => cases found
  | leaf entry content rest ih =>
      rw [Listing.find] at found
      split at found
      · cases found
      · exact ih unique.2 found
  | dir entry inside rest _ ih =>
      rw [Listing.find] at found
      split at found
      · cases found
        exact unique.2.1
      · exact ih unique.2.2 found

theorem Unique.lookup (unique : fs.Unique) (found : fs.lookup path = some (.dir listing)) :
    listing.Unique := by
  induction path generalizing fs with
  | nil =>
      cases found
      exact unique
  | cons name rest ih =>
      rw [lookup_cons, Option.bind_eq_some_iff] at found
      obtain ⟨item, entry, below⟩ := found
      cases item with
      | dir inside => exact ih (unique.find entry) below
      | leaf content => cases rest <;> cases below

/-- What is left of `later` is in `earlier`, in the same place. -/
def Within (later earlier : Listing ν δ) : Prop :=
  ∀ path kind, later.kindAt path = some kind → earlier.kindAt path = some kind

theorem Within.refl (fs : Listing ν δ) : Within fs fs := fun _ _ found => found

theorem Within.trans {later middle earlier : Listing ν δ} (last : Within later middle)
    (first : Within middle earlier) :
    Within later earlier := fun path kind found => first path kind (last path kind found)

theorem within_erase (fs : Listing ν δ) (gone : List ν) : Within (fs.erase gone) fs := by
  intro path kind found
  by_cases empty : gone = []
  · rwa [empty, erase] at found
  · rw [kindAt_erase empty] at found
    split at found
    · cases found
    · exact found

end Lookup

section Resolving

variable {fs later : Listing ν δ} {place path : List ν} {components more : List (Component ν)}
  {budget : Nat}
  {result : List ν × Nat}

/-- The real path the components lead to from a real directory, with the number of links that may
still be followed. -/
def resolveBy (fs : Listing ν δ) (budget : Nat)
    (follow : List ν → List (Component ν) → Option (List ν × Nat)) :
    List ν → List (Component ν) → Option (List ν × Nat)
  | place, [] => some (place, budget)
  | place, .here :: rest =>
      match fs.kindAt place with
      | some .dir => resolveBy fs budget follow place rest
      | _ => none
  | place, .up :: rest =>
      match fs.kindAt place with
      | some .dir => resolveBy fs budget follow place.dropLast rest
      | _ => none
  | place, .name name :: rest =>
      match fs.kindAt (place ++ [name]) with
      | none => none
      | some (.leaf (.link absolute target)) => follow (if absolute then [] else place) (target ++ rest)
      | some _ => resolveBy fs budget follow (place ++ [name]) rest

def resolve (fs : Listing ν δ) : Nat → List ν → List (Component ν) → Option (List ν × Nat)
  | 0 => resolveBy fs 0 fun _ _ => none
  | budget + 1 => resolveBy fs (budget + 1) (resolve fs budget)

/-- The place of the directory a link is read in. -/
def follow (fs : Listing ν δ) : Nat → List ν → List (Component ν) → Option (List ν × Nat)
  | 0 => fun _ _ => none
  | budget + 1 => resolve fs budget

theorem resolve_eq : resolve fs budget = resolveBy fs budget (follow fs budget) := by
  cases budget <;> rfl

theorem resolve_nil : resolve fs budget place [] = some (place, budget) := by
  rw [resolve_eq, resolveBy]

theorem resolve_here : resolve fs budget place (.here :: components) =
    match fs.kindAt place with
    | some .dir => resolve fs budget place components
    | _ => none := by
  rw [resolve_eq, resolveBy]

theorem resolve_up : resolve fs budget place (.up :: components) =
    match fs.kindAt place with
    | some .dir => resolve fs budget place.dropLast components
    | _ => none := by
  rw [resolve_eq, resolveBy]

theorem resolve_name (name : ν) : resolve fs budget place (.name name :: components) =
    match fs.kindAt (place ++ [name]) with
    | none => none
    | some (.leaf (.link absolute target)) => follow fs budget (if absolute then [] else place)
        (target ++ components)
    | some _ => resolve fs budget (place ++ [name]) components := by
  rw [resolve_eq, resolveBy]

/-- Resolving goes on where it stopped. -/
theorem resolve_append : resolve fs budget place (components ++ more) =
    (resolve fs budget place components).bind fun result => resolve fs result.2 result.1 more := by
  induction budget using Nat.strong_induction_on generalizing place components with
  | _ budget outer =>
      induction components generalizing place with
      | nil => rw [List.nil_append, resolve_nil, Option.bind_some]
      | cons component rest ih =>
          rw [List.cons_append]
          cases component with
          | here =>
              rw [resolve_here, resolve_here]
              rcases fs.kindAt place with _ | _ | _
              · rfl
              · rfl
              · exact ih
          | up =>
              rw [resolve_up, resolve_up]
              rcases fs.kindAt place with _ | _ | _
              · rfl
              · rfl
              · exact ih
          | name name =>
              rw [resolve_name, resolve_name]
              rcases fs.kindAt (place ++ [name]) with _ | (data | ⟨absolute, target⟩) | _
              · rfl
              · exact ih
              · cases budget with
                | zero => rfl
                | succ budget =>
                    simp only [follow, ← List.append_assoc]
                    exact outer budget (Nat.lt_succ_self budget)
              · exact ih

/-- What can still be resolved leads where it led. -/
theorem resolve_within (within : Within later fs)
    (found : resolve later budget place components = some result) :
    resolve fs budget place components = some result := by
  induction budget using Nat.strong_induction_on generalizing place components with
  | _ budget outer =>
      induction components generalizing place with
      | nil => rwa [resolve_nil] at found ⊢
      | cons component rest ih =>
          cases component with
          | here =>
              rw [resolve_here] at found ⊢
              rcases kind : later.kindAt place with _ | _ | _ <;> rw [kind] at found
              · cases found
              · cases found
              · rw [within _ _ kind]
                exact ih found
          | up =>
              rw [resolve_up] at found ⊢
              rcases kind : later.kindAt place with _ | _ | _ <;> rw [kind] at found
              · cases found
              · cases found
              · rw [within _ _ kind]
                exact ih found
          | name name =>
              rw [resolve_name] at found ⊢
              rcases kind : later.kindAt (place ++ [name]) with _ | (data | ⟨absolute, target⟩)
                | _ <;> rw [kind] at found
              · cases found
              · rw [within _ _ kind]
                exact ih found
              · rw [within _ _ kind]
                cases budget with
                | zero => cases found
                | succ budget => exact outer budget (Nat.lt_succ_self budget) found
              · rw [within _ _ kind]
                exact ih found

/-- More links may be followed, and the place is the same. -/
theorem resolve_budget {most : Nat} (enough : budget ≤ most)
    (found : resolve fs budget place components = some result) :
    ∃ left, resolve fs most place components = some (result.1, left) := by
  induction budget using Nat.strong_induction_on generalizing place components most with
  | _ budget outer =>
      induction components generalizing place with
      | nil =>
          rw [resolve_nil, Option.some.injEq] at found
          exact ⟨most, by rw [resolve_nil, ← found]⟩
      | cons component rest ih =>
          cases component with
          | here =>
              rw [resolve_here] at found ⊢
              rcases kind : fs.kindAt place with _ | _ | _ <;> rw [kind] at found
              · cases found
              · cases found
              · exact ih found
          | up =>
              rw [resolve_up] at found ⊢
              rcases kind : fs.kindAt place with _ | _ | _ <;> rw [kind] at found
              · cases found
              · cases found
              · exact ih found
          | name name =>
              rw [resolve_name] at found ⊢
              rcases kind : fs.kindAt (place ++ [name]) with _ | (data | ⟨absolute, target⟩)
                | _ <;> rw [kind] at found
              · cases found
              · exact ih found
              · cases budget with
                | zero => cases found
                | succ budget =>
                    obtain ⟨more, rfl⟩ : ∃ more, most = more + 1 := ⟨most - 1, by omega⟩
                    exact outer budget (Nat.lt_succ_self budget) (by omega) found
              · exact ih found

/-- Without links on the way a path leads where it says. -/
theorem resolve_real {listing : Listing ν δ} (found : fs.lookup (place ++ path) = some (.dir listing)) :
    resolve fs budget place (path.map .name) = some (place ++ path, budget) := by
  induction path generalizing place with
  | nil => rw [List.map_nil, resolve_nil, List.append_nil]
  | cons name rest ih =>
      have whole : place ++ name :: rest = place ++ [name] ++ rest := by simp
      have first : fs.kindAt (place ++ [name]) = some .dir := by
        rw [whole, lookup_append, Option.bind_eq_some_iff] at found
        obtain ⟨item, entry, below⟩ := found
        cases item with
        | dir inside => rw [kindAt, entry]; rfl
        | leaf content =>
            cases rest with
            | nil => cases below
            | cons next rest => cases below
      rw [List.map_cons, resolve_name, first]
      rw [whole] at found ⊢
      exact ih found

end Resolving

end Listing

end VoteCounting.FileTree
