import Mathlib.Data.Int.ModEq
import Mathlib.Tactic

namespace VoteCounting

/-! Lists of named counts, updated by linear search.

Sums are stored after reduction to the balanced residues of a modulus: `2 ^ 32`
is the arithmetic of a 32-bit `int`, and modulus `0` is exact arithmetic.
-/

universe u

structure Entry (κ : Type u) where
  name : κ
  count : Int
deriving DecidableEq, Repr

/-- A value the arithmetic represents. -/
def Fits (modulus : Nat) (value : Int) : Prop := value.bmod modulus = value

instance (modulus : Nat) (value : Int) : Decidable (Fits modulus value) :=
  inferInstanceAs (Decidable (_ = _))

theorem bmod_modEq (value : Int) (modulus : Nat) : value.bmod modulus ≡ value [ZMOD modulus] :=
  Int.bmod_emod

theorem fits_bmod (modulus : Nat) (value : Int) : Fits modulus (value.bmod modulus) := by
  rw [Fits, Int.bmod_bmod]

theorem fits_zero (modulus : Nat) : Fits modulus 0 := by simp [Fits]

/-- The numbers of things an `int` can count. -/
theorem fits_int_iff {value : Nat} : Fits (2 ^ 32) (value : Int) ↔ value < 2 ^ 31 := by
  rw [Fits, Int.bmod_def]
  constructor
  · intro same
    split at same <;> omega
  · intro small
    split <;> omega

/-- Congruent values that are both represented are equal. -/
theorem Fits.eq_of_modEq {modulus : Nat} {left right : Int} (leftFits : Fits modulus left)
    (rightFits : Fits modulus right) (congruent : left ≡ right [ZMOD modulus]) : left = right := by
  have residues : left % modulus = right % modulus := congruent
  rw [← leftFits, ← rightFits, Int.bmod_def, Int.bmod_def, residues]

theorem sum_modEq {ι : Type*} {modulus : Nat} {items : List ι} {left right : ι → Int}
    (each : ∀ item ∈ items, left item ≡ right item [ZMOD modulus]) :
    (items.map left).sum ≡ (items.map right).sum [ZMOD modulus] := by
  induction items with
  | nil => exact Int.ModEq.refl 0
  | cons item rest ih =>
      rw [List.map_cons, List.map_cons, List.sum_cons, List.sum_cons]
      exact (each item (by simp)).add (ih fun later member => each later (by simp [member]))

namespace Counters

variable {κ : Type u}

def names (entries : List (Entry κ)) : List κ := entries.map Entry.name

@[simp] theorem names_nil : names ([] : List (Entry κ)) = [] := rfl

@[simp] theorem names_cons (entry : Entry κ) (entries : List (Entry κ)) :
    names (entry :: entries) = entry.name :: names entries := rfl

@[simp] theorem names_append (first second : List (Entry κ)) :
    names (first ++ second) = names first ++ names second := List.map_append

theorem eq_nil_of_no_names {entries : List (Entry κ)} (none : ∀ name, name ∉ names entries) :
    entries = [] :=
  List.map_eq_nil_iff.mp (List.eq_nil_iff_forall_not_mem.mpr none)

theorem mem_names_flatMap {ι : Type*} {items : List ι} {entriesOf : ι → List (Entry κ)} {name : κ} :
    name ∈ names (items.flatMap entriesOf) ↔ ∃ item ∈ items, name ∈ names (entriesOf item) := by
  simp only [names, List.mem_map, List.mem_flatMap]
  constructor
  · intro ⟨entry, ⟨item, member, held⟩, same⟩
    exact ⟨item, member, entry, held, same⟩
  · intro ⟨item, member, entry, held, same⟩
    exact ⟨entry, ⟨item, member, held⟩, same⟩

/-- One unit for each item. -/
def units (items : List κ) : List (Entry κ) := items.map fun name => ⟨name, 1⟩

@[simp] theorem names_units (items : List κ) : names (units items) = items := by
  simp [units, names, Function.comp_def]

theorem fits_units {modulus : Nat} {items : List κ} (one : Fits modulus 1) :
    ∀ entry ∈ units items, Fits modulus entry.count := by
  intro entry member
  obtain ⟨_, _, rfl⟩ := List.mem_map.mp member
  exact one

variable [DecidableEq κ]

def total : List (Entry κ) → κ → Int
  | [], _ => 0
  | entry :: rest, name => (if entry.name = name then entry.count else 0) + total rest name

/-- Add to the first entry of the name, or append a new entry. -/
def credit (modulus : Nat) : List (Entry κ) → κ → Int → List (Entry κ)
  | [], name, amount => [⟨name, amount⟩]
  | entry :: rest, name, amount =>
      if entry.name = name then
        { entry with count := (entry.count + amount).bmod modulus } :: rest
      else entry :: credit modulus rest name amount

/-- Subtract from the first entry of the name, if there is one. -/
def debit (modulus : Nat) : List (Entry κ) → κ → Int → List (Entry κ)
  | [], _, _ => []
  | entry :: rest, name, amount =>
      if entry.name = name then
        { entry with count := (entry.count - amount).bmod modulus } :: rest
      else entry :: debit modulus rest name amount

def firstCount : List (Entry κ) → κ → Option Int
  | [], _ => none
  | entry :: rest, name => if entry.name = name then some entry.count else firstCount rest name

section Totals

variable {modulus : Nat} {entries : List (Entry κ)} {name other : κ} {amount : Int}

@[simp] theorem total_nil : total ([] : List (Entry κ)) name = 0 := rfl

@[simp] theorem total_cons (entry : Entry κ) :
    total (entry :: entries) name =
      (if entry.name = name then entry.count else 0) + total entries name := rfl

@[simp] theorem total_append (first second : List (Entry κ)) :
    total (first ++ second) name = total first name + total second name := by
  induction first with
  | nil => simp
  | cons entry rest ih => simp [ih, add_assoc]

theorem total_flatMap {ι : Type*} (items : List ι) (entriesOf : ι → List (Entry κ)) :
    total (items.flatMap entriesOf) name = (items.map fun item => total (entriesOf item) name).sum := by
  induction items with
  | nil => rfl
  | cons item rest ih => simp [ih]

theorem total_of_absent (absent : name ∉ names entries) : total entries name = 0 := by
  induction entries with
  | nil => rfl
  | cons entry rest ih =>
      simp only [names_cons, List.mem_cons, not_or] at absent
      rw [total_cons, if_neg (Ne.symm absent.1), ih absent.2, add_zero]

theorem total_of_mem (unique : (names entries).Nodup) {entry : Entry κ} (member : entry ∈ entries) :
    total entries entry.name = entry.count := by
  induction entries with
  | nil => cases member
  | cons first rest ih =>
      simp only [names_cons, List.nodup_cons] at unique
      rw [total_cons]
      rcases List.mem_cons.mp member with rfl | later
      · rw [if_pos rfl, total_of_absent unique.1, add_zero]
      · have different : first.name ≠ entry.name := fun same =>
          unique.1 (same ▸ List.mem_map_of_mem later)
        rw [if_neg different, zero_add, ih unique.2 later]

theorem fits_total (unique : (names entries).Nodup)
    (fit : ∀ entry ∈ entries, Fits modulus entry.count) : Fits modulus (total entries name) := by
  induction entries with
  | nil => exact fits_zero modulus
  | cons entry rest ih =>
      simp only [names_cons, List.nodup_cons] at unique
      rw [total_cons]
      by_cases same : entry.name = name
      · rw [if_pos same, total_of_absent (by simpa [same] using unique.1), add_zero]
        exact fit entry (by simp)
      · rw [if_neg same, zero_add]
        exact ih unique.2 fun later member => fit later (by simp [member])

end Totals

section Credit

variable {modulus : Nat} {entries : List (Entry κ)} {name other : κ} {amount : Int}

theorem total_credit_modEq :
    total (credit modulus entries name amount) other ≡
      total entries other + (if name = other then amount else 0) [ZMOD modulus] := by
  induction entries with
  | nil => simp [credit]
  | cons entry rest ih =>
      rw [credit]
      split
      · rename_i same
        simp only [total_cons, same]
        split
        · have summed : (entry.count + amount).bmod modulus + total rest other ≡
              entry.count + amount + total rest other [ZMOD modulus] :=
            (bmod_modEq _ _).add_right _
          convert summed using 1
          ring
        · simp [Int.ModEq.refl]
      · rw [total_cons, total_cons, add_assoc]
        exact ih.add_left _

theorem names_credit :
    names (credit modulus entries name amount) =
      if name ∈ names entries then names entries else names entries ++ [name] := by
  induction entries with
  | nil => simp [credit]
  | cons entry rest ih =>
      rw [credit]
      split
      · rename_i same
        simp [same]
      · rename_i different
        rw [names_cons, names_cons, ih]
        by_cases later : name ∈ names rest
        · rw [if_pos later, if_pos (List.mem_cons_of_mem _ later)]
        · have absent : name ∉ entry.name :: names rest := by
            simpa [Ne.symm different] using later
          rw [if_neg later, if_neg absent, List.cons_append]

theorem mem_names_credit :
    other ∈ names (credit modulus entries name amount) ↔ other ∈ names entries ∨ other = name := by
  rw [names_credit]
  split
  · rename_i present
    constructor
    · exact .inl
    · rintro (member | rfl) <;> assumption
  · simp

theorem nodup_credit (unique : (names entries).Nodup) :
    (names (credit modulus entries name amount)).Nodup := by
  rw [names_credit]
  split
  · exact unique
  · rename_i absent
    exact List.nodup_append.mpr ⟨unique, by simp, by rintro x member y last rfl; simp_all⟩

theorem fits_credit (fit : ∀ entry ∈ entries, Fits modulus entry.count)
    (amountFits : Fits modulus amount) :
    ∀ entry ∈ credit modulus entries name amount, Fits modulus entry.count := by
  induction entries with
  | nil => simpa [credit] using amountFits
  | cons entry rest ih =>
      rw [credit]
      split
      · intro changed member
        rcases List.mem_cons.mp member with rfl | member
        · exact fits_bmod _ _
        · exact fit changed (by simp [member])
      · intro changed member
        rcases List.mem_cons.mp member with rfl | member
        · exact fit changed (by simp)
        · exact ih (fun later inside => fit later (by simp [inside])) changed member

end Credit

section CreditAll

variable {modulus : Nat} {entries amounts : List (Entry κ)} {name : κ}

/-- Credit a whole list of amounts, one after another. -/
def creditAll (modulus : Nat) (entries amounts : List (Entry κ)) : List (Entry κ) :=
  amounts.foldl (fun entries entry => credit modulus entries entry.name entry.count) entries

@[simp] theorem creditAll_nil : creditAll modulus entries [] = entries := rfl

@[simp] theorem creditAll_cons (entry : Entry κ) :
    creditAll modulus entries (entry :: amounts) =
      creditAll modulus (credit modulus entries entry.name entry.count) amounts := rfl

theorem creditAll_append (more : List (Entry κ)) :
    creditAll modulus entries (amounts ++ more) = creditAll modulus
      (creditAll modulus entries amounts) more :=
  List.foldl_append

theorem total_creditAll_modEq :
    total (creditAll modulus entries amounts) name ≡
      total entries name + total amounts name [ZMOD modulus] := by
  induction amounts generalizing entries with
  | nil => simp [Int.ModEq.refl]
  | cons entry rest ih =>
      rw [creditAll_cons, total_cons, ← add_assoc]
      exact ih.trans (total_credit_modEq.add_right _)

theorem mem_names_creditAll :
    name ∈ names (creditAll modulus entries amounts) ↔
      name ∈ names entries ∨ name ∈ names amounts := by
  induction amounts generalizing entries with
  | nil => simp
  | cons entry rest ih =>
      rw [creditAll_cons, ih, mem_names_credit]
      simp [or_assoc]

theorem nodup_creditAll (unique : (names entries).Nodup) :
    (names (creditAll modulus entries amounts)).Nodup := by
  induction amounts generalizing entries with
  | nil => exact unique
  | cons entry rest ih => exact ih (nodup_credit unique)

theorem fits_creditAll (fit : ∀ entry ∈ entries, Fits modulus entry.count)
    (amountsFit : ∀ entry ∈ amounts, Fits modulus entry.count) :
    ∀ entry ∈ creditAll modulus entries amounts, Fits modulus entry.count := by
  induction amounts generalizing entries with
  | nil => exact fit
  | cons entry rest ih =>
      exact ih (fits_credit fit (amountsFit entry (by simp))) fun later member =>
        amountsFit later (by simp [member])

theorem names_creditAll_prefix : names entries <+: names (creditAll modulus entries amounts) := by
  induction amounts generalizing entries with
  | nil => exact List.prefix_rfl
  | cons entry rest ih =>
      refine List.IsPrefix.trans ?_ ih
      rw [names_credit]
      split
      · exact List.prefix_rfl
      · exact List.prefix_append _ _

/-- Behind an entry only the amounts of other names count. -/
theorem creditAll_cons_tail (first : Entry κ) :
    (creditAll modulus (first :: entries) amounts).tail =
      creditAll modulus entries (amounts.filter fun amount => amount.name ≠ first.name) := by
  induction amounts generalizing first entries with
  | nil => rfl
  | cons amount rest ih =>
      rw [creditAll_cons, credit]
      split
      · rename_i same
        rw [ih, List.filter_cons_of_neg (by simp [same])]
      · rename_i different
        rw [ih, List.filter_cons_of_pos (by simpa using Ne.symm different), creditAll_cons]

end CreditAll

section Units

variable [BEq κ] [LawfulBEq κ] {modulus : Nat} {items : List κ} {name : κ} {entry : Entry κ}

theorem total_units : total (units items) name = items.count name := by
  induction items with
  | nil => rfl
  | cons item rest ih =>
      have cons : units (item :: rest) = ⟨item, 1⟩ :: units rest := rfl
      rw [cons, total_cons, ih, List.count_cons, Nat.cast_add, add_comm]
      simp

/-- Crediting the units counts the items. -/
theorem mem_creditAll_units (one : Fits modulus 1) (fit : ∀ name, Fits modulus (items.count name)) :
    entry ∈ creditAll modulus [] (units items) ↔ entry.name ∈ items ∧
      entry.count = items.count entry.name := by
  have unique : (names (creditAll modulus [] (units items))).Nodup := nodup_creditAll List.nodup_nil
  have counted : ∀ entry ∈ creditAll modulus [] (units items),
      entry.name ∈ items ∧ entry.count = items.count entry.name := by
    intro entry member
    have named : entry.name ∈ names (creditAll modulus [] (units items)) := List.mem_map_of_mem member
    rw [mem_names_creditAll, names_units] at named
    have sum : total (creditAll modulus [] (units items)) entry.name ≡
        total [] entry.name + total (units items) entry.name [ZMOD modulus] := total_creditAll_modEq
    rw [total_of_mem unique member, total_units, total_nil, zero_add] at sum
    refine ⟨named.resolve_left (by simp), Fits.eq_of_modEq ?_ (fit entry.name) sum⟩
    exact fits_creditAll (by simp) (fits_units one) entry member
  refine ⟨counted entry, fun ⟨held, same⟩ => ?_⟩
  have named : entry.name ∈ names (creditAll modulus [] (units items)) :=
    mem_names_creditAll.mpr (.inr (by rwa [names_units]))
  obtain ⟨other, member, sameName⟩ := List.mem_map.mp named
  have equal : other = entry := by
    obtain ⟨name, count⟩ := entry
    obtain ⟨otherName, otherCount⟩ := other
    obtain rfl : otherName = name := sameName
    exact congrArg (Entry.mk otherName) ((counted _ member).2.trans same.symm)
  exact equal ▸ member

end Units

section Debit

variable {modulus : Nat} {entries : List (Entry κ)} {name other : κ} {amount : Int}

@[simp] theorem names_debit : names (debit modulus entries name amount) = names entries := by
  induction entries with
  | nil => rfl
  | cons entry rest ih =>
      rw [debit]
      split
      · rfl
      · rw [names_cons, names_cons, ih]

theorem firstCount_isSome : (firstCount entries name).isSome ↔ name ∈ names entries := by
  induction entries with
  | nil => simp [firstCount]
  | cons entry rest ih =>
      rw [firstCount]
      split
      · rename_i same
        simp [same]
      · rename_i different
        simp [ih, Ne.symm different]

theorem firstCount_of_absent (absent : name ∉ names entries) : firstCount entries name = none := by
  rw [← Option.not_isSome_iff_eq_none, firstCount_isSome]
  exact absent

theorem mem_of_firstCount {count : Int} (found : firstCount entries name = some count) :
    ∃ entry ∈ entries, entry.count = count := by
  induction entries with
  | nil => cases found
  | cons entry rest ih =>
      rw [firstCount] at found
      split at found
      · exact ⟨entry, by simp, by simpa using found⟩
      · obtain ⟨held, member, same⟩ := ih found
        exact ⟨held, by simp [member], same⟩

theorem firstCount_append (first second : List (Entry κ)) :
    firstCount (first ++ second) name = (firstCount first name).or (firstCount second name) := by
  induction first with
  | nil => simp [firstCount]
  | cons entry rest ih =>
      rw [List.cons_append, firstCount, firstCount, ih]
      split <;> rfl

theorem firstCount_credit :
    firstCount (credit modulus entries name amount) other =
      if name = other then
        some (((firstCount entries other).map fun count => (count + amount).bmod modulus).getD amount)
      else firstCount entries other := by
  induction entries with
  | nil => simp [credit, firstCount]
  | cons entry rest ih =>
      rw [credit]
      by_cases same : entry.name = name
      · rw [if_pos same]
        simp only [firstCount, same]
        split <;> simp_all
      · rw [if_neg same]
        simp only [firstCount, ih]
        by_cases found : entry.name = other
        · have differs : name ≠ other := fun equal => same (found.trans equal.symm)
          simp [found, differs]
        · simp [found]

theorem firstCount_debit :
    firstCount (debit modulus entries name amount) other =
      if name = other then (firstCount entries other).map fun count => (count - amount).bmod modulus
      else firstCount entries other := by
  induction entries with
  | nil => simp [firstCount, debit]
  | cons entry rest ih =>
      rw [debit]
      by_cases same : entry.name = name
      · rw [if_pos same]
        simp only [firstCount, same]
        split <;> simp_all
      · rw [if_neg same]
        simp only [firstCount, ih]
        by_cases found : entry.name = other
        · have differs : name ≠ other := fun equal => same (found.trans equal.symm)
          simp [found, differs]
        · simp [found]

/-- The first entry of a name, with the entries before and after it. -/
theorem firstCount_split {count : Int} (found : firstCount entries name = some count) :
    ∃ before after, entries = before ++ ⟨name, count⟩ :: after ∧ name ∉ names before := by
  induction entries with
  | nil => cases found
  | cons entry rest ih =>
      rw [firstCount] at found
      split at found
      · rename_i same
        cases found
        subst same
        exact ⟨[], rest, rfl, by simp⟩
      · rename_i different
        obtain ⟨before, after, rfl, absent⟩ := ih found
        refine ⟨entry :: before, after, rfl, ?_⟩
        rw [names_cons, List.mem_cons, not_or]
        exact ⟨Ne.symm different, absent⟩

theorem debit_split {count : Int} {before after : List (Entry κ)} (absent : name ∉ names before) :
    debit modulus (before ++ ⟨name, count⟩ :: after) name amount =
      before ++ ⟨name, (count - amount).bmod modulus⟩ :: after := by
  induction before with
  | nil => rw [List.nil_append, List.nil_append, debit, if_pos rfl]
  | cons entry rest ih =>
      rw [names_cons, List.mem_cons, not_or] at absent
      rw [List.cons_append, debit, if_neg (Ne.symm absent.1), ih absent.2, List.cons_append]

/-- Exact where the first count of the name stays representable. -/
theorem total_debit {count : Int} (found : firstCount entries name = some count)
    (room : Fits modulus (count - amount)) :
    total (debit modulus entries name amount) other =
      total entries other - (if name = other then amount else 0) := by
  obtain ⟨before, after, rfl, absent⟩ := firstCount_split found
  have kept : (count - amount).bmod modulus = count - amount := room
  rw [debit_split absent, kept, total_append, total_append, total_cons, total_cons]
  split <;> ring

theorem fits_debit (fit : ∀ entry ∈ entries, Fits modulus entry.count) :
    ∀ entry ∈ debit modulus entries name amount, Fits modulus entry.count := by
  induction entries with
  | nil => simp [debit]
  | cons entry rest ih =>
      rw [debit]
      split
      · intro changed member
        rcases List.mem_cons.mp member with rfl | member
        · exact fits_bmod _ _
        · exact fit changed (by simp [member])
      · intro changed member
        rcases List.mem_cons.mp member with rfl | member
        · exact fit changed (by simp)
        · exact ih (fun later inside => fit later (by simp [inside])) changed member

end Debit

end Counters

end VoteCounting
