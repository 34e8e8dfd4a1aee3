import VoteCounting.Server.History

namespace VoteCounting.Server

open Counters CString

/-! The counters agree with the booked votes in every region but the root.

The root is left out because `Return_Winner` merges its children into it again and again.
-/

structure Books (modulus : Nat) (history : List Answered) (table : Table) : Prop where
  wellFormed : WellFormed table
  cast : Cast (ledger history) (Added history) table
  fit : CountsFit modulus table
  book : ∀ i, BookOf (ledger history) (Added history) table i
  tracked : ∀ i, i ≠ 0 → Tracked modulus (ledger history) table i

section Leaves

variable {modulus : Nat} {history : List Answered} {event : Answered} {table after : Table}
  {region i : Nat} {name : CStr} {ledgerOf : Nat → CStr → Int} {added : Nat → CStr → Prop}

theorem Silent.ledger_eq (silent : Silent event) : ledger (history ++ [event]) = ledger history := by
  funext i name
  rw [ledger_snoc, (silent i name).1, add_zero]

theorem Silent.added_eq (silent : Silent event) : Added (history ++ [event]) = Added history := by
  funext i name
  rw [added_snoc, eq_iff_iff]
  exact ⟨fun either => either.resolve_right (silent i name).2, .inl⟩

theorem below_leaf (leaf : table.children region = []) (below : Below table.children region i) :
    i = region := by
  rcases Relation.ReflTransGen.cases_head below with same | ⟨child, held, _⟩
  · exact same.symm
  · rw [leaf] at held
    cases held

theorem addedBelow_leaf (leaf : table.children region = []) :
    AddedBelow table added region name ↔ added region name := by
  rw [addedBelow_iff, leaf]
  simp

theorem subtreeTotal_leaf (wellFormed : WellFormed table) (leaf : table.children region = []) :
    subtreeTotal table ledgerOf region name = ledgerOf region name := by
  rw [wellFormed.subtreeTotal_eq, leaf]
  simp

/-- A childless region lists only candidates added at it. -/
theorem BookOf.leaf_empty (book : BookOf ledgerOf added table region)
    (leaf : table.children region = []) (none : ∀ name, ¬ added region name) :
    (table.node region).rootCounter = [] :=
  eq_nil_of_no_names fun name member => none name ((addedBelow_leaf leaf).mp (book.origin name member))

theorem BookOf.leaf_total (book : BookOf ledgerOf added table region) (cast : Cast ledgerOf added table)
    (leaf : table.children region = []) :
    total (table.node region).rootCounter name = ledgerOf region name := by
  by_cases voted : ∃ other, added region other
  · obtain ⟨other, isAdded⟩ := voted
    exact book.exact other isAdded name
  · have none := not_exists.mp voted
    rw [book.leaf_empty leaf none, cast.plain region none]
    rfl

theorem BookOf.counted_of_added (book : BookOf ledgerOf added table region)
    (isAdded : added region name) : (table.node region).hasdata = true := by
  cases flag : (table.node region).hasdata with
  | true => rfl
  | false => exact absurd isAdded ((book.empty flag).2 name)

end Leaves

section Region

variable {modulus : Nat} {table : Table} {parent i : Nat} {childname name : CStr}
  {ledgerOf : Nat → CStr → Int} {added : Nat → CStr → Prop}

theorem below_addChild (wellFormed : WellFormed table) (present : parent < table.size) {j : Nat}
    (old : j < table.size) :
    Below (addChild table parent childname).children i j ↔ Below table.children i j := by
  rw [addChild_children present]
  constructor
  · intro below
    rcases wellFormed.forest.below_of_addLeaf present below with fresh | below
    · omega
    · exact below
  · exact Forest.below_addLeaf

theorem addedBelow_addChild (wellFormed : WellFormed table) (cast : Cast ledgerOf added table)
    (present : parent < table.size) :
    AddedBelow (addChild table parent childname) added i name ↔ AddedBelow table added i name := by
  constructor
  · intro ⟨j, below, isAdded⟩
    exact ⟨j, (below_addChild wellFormed present (cast.inside j name isAdded)).mp below, isAdded⟩
  · intro ⟨j, below, isAdded⟩
    exact ⟨j, (below_addChild wellFormed present (cast.inside j name isAdded)).mpr below, isAdded⟩

theorem Cast.outside (cast : Cast ledgerOf added table) (beyond : table.size ≤ i) :
    (∀ name, ¬ added i name) ∧ ∀ name, ledgerOf i name = 0 := by
  have none : ∀ name, ¬ added i name := fun name isAdded => by
    have bound := cast.inside i name isAdded
    omega
  exact ⟨none, cast.plain i none⟩

theorem Cast.addChild (cast : Cast ledgerOf added table) (wellFormed : WellFormed table)
    (present : parent < table.size) : Cast ledgerOf added (addChild table parent childname) where
  plain := cast.plain
  inside j name isAdded := by
    rw [addChild_size]
    exact Nat.lt_succ_of_lt (cast.inside j name isAdded)
  lone a b name other isAdded below different alsoAdded :=
    cast.lone a b name other isAdded
      ((below_addChild wellFormed present (cast.inside b other alsoAdded)).mp below) different alsoAdded

theorem subtreeTotal_addChild (cast : Cast ledgerOf added table) (wellFormed : WellFormed table)
    (present : parent < table.size) :
    subtreeTotal (addChild table parent childname) ledgerOf i name =
      subtreeTotal table ledgerOf i name := by
  have weightless : (fun i => ledgerOf i name) table.size = 0 :=
    (cast.outside (Nat.le_refl table.size)).2 name
  have bottom : subtree table.children (table.size + 1) i = subtree table.children table.size i :=
    wellFormed.forest.subtree_fuel ⟨by omega, by omega⟩ ⟨by omega, wellFormed.nonempty⟩
  rw [subtreeTotal, subtreeTotal, addChild_size, addChild_children present,
    wellFormed.forest.sum_subtree_addLeaf present weightless, bottom]

theorem BookOf.addChild (book : ∀ i, BookOf ledgerOf added table i) (cast : Cast ledgerOf added table)
    (wellFormed : WellFormed table) (present : parent < table.size) (i : Nat) :
    BookOf ledgerOf added (addChild table parent childname) i := by
  have below : ∀ name, AddedBelow (Server.addChild table parent childname) added i name ↔
      AddedBelow table added i name := fun _ => addedBelow_addChild wellFormed cast present
  by_cases new : i = table.size
  · subst new
    have none := (cast.outside (Nat.le_refl table.size)).1
    have node : (Server.addChild table parent childname).node table.size = create childname :=
      addChild_node_new
    refine ⟨fun _ => ⟨by rw [node]; rfl, none⟩, fun flag => ?_, fun name member => ?_,
      fun name isAdded => absurd isAdded (none name), fun _ => by rw [node]; simp [create]⟩
    · rw [node] at flag
      cases flag
    · rw [node] at member
      cases member
  · have rootCounter : ((Server.addChild table parent childname).node i).rootCounter =
        (table.node i).rootCounter := addChild_proj Node.rootCounter (fun _ _ => rfl) new
    have hasdata : ((Server.addChild table parent childname).node i).hasdata =
        (table.node i).hasdata := addChild_proj Node.hasdata (fun _ _ => rfl) new
    have old := book i
    refine ⟨?_, ?_, ?_, ?_, ?_⟩
    · rw [rootCounter, hasdata]
      exact old.empty
    · rw [rootCounter, hasdata]
      exact fun flag name isAdded => old.listed flag name ((below name).mp isAdded)
    · rw [rootCounter]
      exact fun name member => (below name).mpr (old.origin name member)
    · rw [rootCounter]
      exact old.exact
    · rw [rootCounter]
      exact old.unique

theorem Tracked.addChild (tracked : Tracked modulus ledgerOf table i) (cast : Cast ledgerOf added table)
    (wellFormed : WellFormed table) (present : parent < table.size) :
    Tracked modulus ledgerOf (addChild table parent childname) i := by
  intro flag name
  by_cases new : i = table.size
  · rw [new, addChild_node_new] at flag
    cases flag
  · rw [addChild_proj Node.hasdata (fun _ _ => rfl) new] at flag
    rw [addChild_proj Node.rootCounter (fun _ _ => rfl) new,
      subtreeTotal_addChild cast wellFormed present]
    exact tracked flag name

end Region

/-- The ledger before and after votes are stored at one region. -/
structure Stores (ledgerOf later : Nat → CStr → Int) (added alsoAdded : Nat → CStr → Prop)
    (region : Nat) (delta : CStr → Int) (adds : CStr → Prop) : Prop where
  ledger_eq : ∀ i name, later i name = ledgerOf i name + if region = i then delta name else 0
  added_iff : ∀ i name, alsoAdded i name ↔ added i name ∨ region = i ∧ adds name

section Stored

variable {modulus : Nat} {table after : Table} {region i : Nat} {name : CStr}
  {ledgerOf later : Nat → CStr → Int} {added alsoAdded : Nat → CStr → Prop}
  {delta : CStr → Int} {adds : CStr → Prop}

theorem Stores.elsewhere (stores : Stores ledgerOf later added alsoAdded region delta adds)
    (other : i ≠ region) : later i name = ledgerOf i name ∧ (alsoAdded i name ↔ added i name) := by
  rw [stores.ledger_eq, stores.added_iff, if_neg (Ne.symm other)]
  simp [Ne.symm other]

/-- Where nothing new is stored below, the subtree has the votes it had. -/
theorem Stores.subtreeTotal_eq (stores : Stores ledgerOf later added alsoAdded region delta adds)
    (wellFormed : WellFormed table) (frame : CountersOnly table after)
    (apart : ¬ Below table.children i region ∨ ∀ name, delta name = 0) :
    subtreeTotal after later i name = subtreeTotal table ledgerOf i name := by
  rw [frame.subtreeTotal_eq, subtreeTotal, subtreeTotal]
  congr 1
  apply List.map_congr_left
  intro j member
  rw [stores.ledger_eq]
  split
  · rename_i same
    subst same
    rcases apart with notBelow | nothing
    · exact absurd (wellFormed.mem_subtree_iff.mp member) notBelow
    · rw [nothing, add_zero]
  · rw [add_zero]

theorem VotesBooked.here (stored : VotesBooked table region delta adds after)
    (stores : Stores ledgerOf later added alsoAdded region delta adds)
    (cast : Cast ledgerOf added table) (book : BookOf ledgerOf added table region) :
    (∀ name, total (after.node region).rootCounter name = later region name) ∧
      (∀ name, name ∈ names (after.node region).rootCounter → alsoAdded region name) ∧
      (∀ name, alsoAdded region name → name ∈ names (after.node region).rootCounter) := by
  refine ⟨fun name => ?_, fun name member => ?_, fun name isAdded => ?_⟩
  · rw [stored.totals, stores.ledger_eq, if_pos rfl, book.leaf_total cast stored.voting.leaf]
  · rw [stores.added_iff]
    rcases (stored.names_iff name).mp member with before | new
    · exact .inl ((addedBelow_leaf stored.voting.leaf).mp (book.origin name before))
    · exact .inr ⟨rfl, new⟩
  · rw [stored.names_iff]
    rcases (stores.added_iff region name).mp isAdded with before | ⟨_, new⟩
    · exact .inl (book.listed (book.counted_of_added before) name
        ((addedBelow_leaf stored.voting.leaf).mpr before))
    · exact .inr new

theorem VotesBooked.cast (stored : VotesBooked table region delta adds after)
    (stores : Stores ledgerOf later added alsoAdded region delta adds)
    (cast : Cast ledgerOf added table) (book : ∀ i, BookOf ledgerOf added table i) :
    Cast later alsoAdded after where
  plain i none name := by
    by_cases here : i = region
    · subst here
      obtain ⟨totals, listed, _⟩ := stored.here stores cast (book i)
      rw [← totals]
      exact total_of_absent fun member => none name (listed name member)
    · rw [(stores.elsewhere here).1]
      exact cast.plain i (fun other isAdded => none other ((stores.elsewhere here).2.mpr isAdded)) name
  inside i name isAdded := by
    rw [stored.frame.size]
    rcases (stores.added_iff i name).mp isAdded with before | ⟨rfl, _⟩
    · exact cast.inside i name before
    · exact stored.voting.inside
  lone i j name other isAdded below different alsoAdded := by
    rw [stored.frame.children_eq] at below
    by_cases top : i = region
    · subst top
      exact different (below_leaf stored.voting.leaf below).symm
    · have before := (stores.elsewhere top).2.mp isAdded
      rcases (stores.added_iff j other).mp alsoAdded with old | ⟨rfl, new⟩
      · exact cast.lone i j name other before below different old
      · rcases stored.fresh with ⟨_, _, nothing⟩ | uncounted
        · exact nothing other new
        · have flag := (book i).counted_of_added before
          rw [uncounted i below different] at flag
          cases flag

theorem VotesBooked.book (stored : VotesBooked table region delta adds after)
    (stores : Stores ledgerOf later added alsoAdded region delta adds)
    (cast : Cast ledgerOf added table) (book : ∀ i, BookOf ledgerOf added table i) (i : Nat) :
    BookOf later alsoAdded after i := by
  have children : after.children = table.children := stored.frame.children_eq
  by_cases here : i = region
  · subst here
    obtain ⟨totals, listed, lists⟩ := stored.here stores cast (book i)
    have leaf : after.children i = [] := by rw [children]; exact stored.voting.leaf
    refine ⟨fun flag => ?_, fun _ name isAdded => lists name ((addedBelow_leaf leaf).mp isAdded),
      fun name member => (addedBelow_leaf leaf).mpr (listed name member), fun _ _ => totals,
      fun none => ?_⟩
    · have none : ∀ name, ¬ alsoAdded i name := fun name isAdded => by
        rcases (stores.added_iff i name).mp isAdded with before | ⟨_, new⟩
        · exact absurd before (((book i).empty (stored.uncounted flag)).2 name)
        · rw [stored.counted (.inl ⟨name, new⟩)] at flag
          cases flag
      exact ⟨eq_nil_of_no_names fun name member => none name (listed name member), none⟩
    · rw [eq_nil_of_no_names fun name member => none name (listed name member)]
      exact List.nodup_nil
  · have node := stored.others i here
    have old := book i
    have same : ∀ name, alsoAdded i name ↔ added i name := fun _ => (stores.elsewhere here).2
    refine ⟨?_, ?_, ?_, ?_, ?_⟩ <;> rw [node]
    · exact fun flag =>
        ⟨(old.empty flag).1, fun name isAdded => (old.empty flag).2 name ((same name).mp isAdded)⟩
    · intro flag name addedBelow
      obtain ⟨j, below, isAdded⟩ := addedBelow
      rw [children] at below
      rcases (stores.added_iff j name).mp isAdded with before | ⟨rfl, new⟩
      · exact old.listed flag name ⟨j, below, before⟩
      · rcases stored.fresh with ⟨_, _, nothing⟩ | uncounted
        · exact absurd new (nothing name)
        · rw [uncounted i below here] at flag
          cases flag
    · intro name member
      obtain ⟨j, below, isAdded⟩ := old.origin name member
      exact ⟨j, by rw [children]; exact below, (stores.added_iff j name).mpr (.inl isAdded)⟩
    · intro name isAdded other
      rw [(stores.elsewhere here).1]
      exact old.exact name ((same name).mp isAdded) other
    · exact fun none => old.unique fun name isAdded => none name ((same name).mpr isAdded)

theorem VotesBooked.tracked (stored : VotesBooked table region delta adds after)
    (wellFormed : WellFormed table) (stores : Stores ledgerOf later added alsoAdded region delta adds)
    (cast : Cast ledgerOf added table) (book : BookOf ledgerOf added table region)
    (tracked : Tracked modulus ledgerOf table i) : Tracked modulus later after i := by
  intro flag name
  by_cases here : i = region
  · subst here
    have leaf : after.children i = [] := by
      rw [stored.frame.children]; exact stored.voting.leaf
    have formed := wellFormed.congr stored.frame.size stored.frame.children_eq
    rw [subtreeTotal_leaf formed leaf, (stored.here stores cast book).1]
  · rw [stored.others i here] at flag ⊢
    have apart : ¬ Below table.children i region ∨ ∀ name, delta name = 0 := by
      rcases stored.fresh with ⟨_, nothing, _⟩ | uncounted
      · exact .inr nothing
      · refine .inl fun below => ?_
        rw [uncounted i below here] at flag
        cases flag
    rw [stores.subtreeTotal_eq wellFormed stored.frame apart]
    exact tracked flag name

end Stored

section Steps

variable {modulus : Nat} {history : List Answered} {table after : Table} {str : CStr}
  {answer : List Response} {region i : Nat}

theorem stores_of_booked (history : List Answered) {event : Answered} {delta : CStr → Int}
    {adds : CStr → Prop}
    (booked_eq : ∀ i name, booked event i name = if region = i then delta name else 0)
    (adds_iff : ∀ i name, Adds event i name ↔ region = i ∧ adds name) :
    Stores (ledger history) (ledger (history ++ [event])) (Added history) (Added (history ++ [event]))
      region delta adds :=
  ⟨fun i name => by rw [ledger_snoc, booked_eq], fun i name => by rw [added_snoc, adds_iff]⟩

theorem Books.merged (books : Books modulus history table)
    (counted : aggregate modulus table.size table region = some after) :
    Merged modulus (ledger history) (Added history) table region (table.children region) after := by
  refine aggregate_merged books.wellFormed books.cast books.fit
    (fun flag => ((books.book region).empty flag).1) (fun i below proper => ?_) counted
  have above := books.wellFormed.forest.below_le below
  exact ⟨books.book i, books.tracked i (by omega)⟩

theorem Books.aggregated (books : Books modulus history table)
    (merged : Merged modulus (ledger history) (Added history) table region
      (table.children region) after) :
    WellFormed after ∧ Cast (ledger history) (Added history) after ∧ CountsFit modulus after ∧
      (∀ i, BookOf (ledger history) (Added history) after i) ∧
      ∀ i, i ≠ region ∨ (table.node region).hasdata = false →
        (i ≠ 0 ∨ Tracked modulus (ledger history) table i ∨ i = region) →
        Tracked modulus (ledger history) after i := by
  have children : after.children = table.children := merged.frame.children_eq
  refine ⟨books.wellFormed.congr merged.frame.size children,
    books.cast.congr merged.frame.size children,
    merged.fit, fun i => ?_, fun i proper known => ?_⟩
  · by_cases same : i = region
    · subst same
      cases flag : (table.node i).hasdata with
      | true => exact merged.rebook books.wellFormed books.cast (books.book i) flag
      | false => exact (merged.book books.wellFormed books.cast (books.book i) flag).1
    · by_cases below : Below table.children region i
      · exact (merged.below i below same).1
      · have node := merged.outside i below
        exact (books.book i).congr children (by rw [node]) (by rw [node])
  · by_cases same : i = region
    · subst same
      exact (merged.book books.wellFormed books.cast (books.book i)
        (proper.resolve_left (not_not.mpr rfl))).2
    · by_cases below : Below table.children region i
      · exact (merged.below i below same).2
      · have node := merged.outside i below
        have tracked : Tracked modulus (ledger history) table i := by
          rcases known with notRoot | tracked | here
          · exact books.tracked i notRoot
          · exact tracked
          · exact absurd here same
        exact tracked.congr merged.frame.size children (by rw [node]) (by rw [node])

/-- The books are kept by every step whose votes the counters can follow. -/
theorem Books.step (books : Books intModulus history table) (safe : VoteSafe intModulus table str)
    (answered : dispatchCode intModulus table str = .ok (answer, after)) :
    Books intModulus (history ++ [⟨table, str, answer⟩]) after := by
  have step := dispatchCode_step books.wellFormed.nonempty answered
  have wellFormed := books.wellFormed.step answered
  have fit := books.fit.step step
  cases step.booking safe with
  | idle silent size children same =>
      refine ⟨wellFormed, ?_, fit, ?_, ?_⟩ <;> rw [silent.ledger_eq]
      · rw [silent.added_eq]
        exact books.cast.congr size children
      · rw [silent.added_eq]
        exact fun i => (books.book i).congr children (same i).1 (same i).2
      · exact fun i notRoot => (books.tracked i notRoot).congr size children (same i).1 (same i).2
  | votes stored booked_eq adds_iff =>
      have stores := stores_of_booked history booked_eq adds_iff
      exact ⟨wellFormed, stored.cast stores books.cast books.book, fit,
        stored.book stores books.cast books.book,
        fun i notRoot => stored.tracked books.wellFormed stores books.cast (books.book _)
          (books.tracked i notRoot)⟩
  | region silent present =>
      refine ⟨wellFormed, ?_, fit, ?_, ?_⟩ <;> rw [silent.ledger_eq]
      · rw [silent.added_eq]
        exact books.cast.addChild books.wellFormed present
      · rw [silent.added_eq]
        exact BookOf.addChild books.book books.cast books.wellFormed present
      · exact fun i notRoot =>
          (books.tracked i notRoot).addChild books.cast books.wellFormed present
  | counted silent _ _ uncounted counted =>
      obtain ⟨_, cast, _, book, tracked⟩ := books.aggregated (books.merged counted)
      refine ⟨wellFormed, ?_, fit, ?_, ?_⟩ <;> rw [silent.ledger_eq]
      · rw [silent.added_eq]
        exact cast
      · rw [silent.added_eq]
        exact book
      · exact fun i notRoot => tracked i (.inr uncounted) (.inl notRoot)
  | won silent _ _ _ counted =>
      obtain ⟨_, cast, _, book, tracked⟩ := books.aggregated (books.merged counted)
      refine ⟨wellFormed, ?_, fit, ?_, ?_⟩ <;> rw [silent.ledger_eq]
      · rw [silent.added_eq]
        exact cast
      · rw [silent.added_eq]
        exact book
      · exact fun i notRoot => tracked i (.inl notRoot) (.inl notRoot)

theorem Initial.books (initial : Initial table) : Books modulus [] table where
  wellFormed := initial.wellFormed
  cast := ⟨fun _ _ _ => rfl, by simp [Added], by simp [Added]⟩
  fit i := by simp [(initial.untouched i).rootCounter]
  book i := by
    have untouched := initial.untouched i
    refine ⟨fun _ => ⟨untouched.rootCounter, by simp [Added]⟩, fun flag => ?_,
      by simp [untouched.rootCounter], by simp [Added], by simp [untouched.rootCounter]⟩
    rw [untouched.hasdata] at flag
    cases flag
  tracked i _ flag := by
    rw [(initial.untouched i).hasdata] at flag
    cases flag

end Steps

end VoteCounting.Server
