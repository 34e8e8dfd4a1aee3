import Mathlib.LinearAlgebra.Matrix.Block
import Mathlib.LinearAlgebra.Matrix.NonsingularInverse
import Mathlib.LinearAlgebra.Matrix.RowCol
import Mathlib.Tactic

namespace VoteCounting.InPlace

open Matrix

universe u

variable {n : Nat} {R : Type u} [CommRing R]

/-- Add one product to an entry. -/
def addEntry (M A : Matrix (Fin n) (Fin n) R) (j k l : Fin n) : Matrix (Fin n) (Fin n) R :=
  A.updateRow j (Function.update (A j) k (A j k + A j l * M l k))

/-- All products, row by row and column by column. -/
def multiply (M A : Matrix (Fin n) (Fin n) R) : Matrix (Fin n) (Fin n) R :=
  (List.finRange n).foldl (fun A j => (List.finRange n).foldl (fun A k =>
    (List.finRange n).foldl (fun A l => addEntry M A j k l) A) A) A

/-- `addEntry` on the row of the entry. -/
def addTo (M : Matrix (Fin n) (Fin n) R) (k : Fin n) (row : Fin n → R) (l : Fin n) : Fin n → R :=
  Function.update row k (row k + row l * M l k)

/-- The products for one entry of a row. -/
def pass (M : Matrix (Fin n) (Fin n) R) (row : Fin n → R) (k : Fin n) : Fin n → R :=
  (List.finRange n).foldl (addTo M k) row

/-- The entries of `M` above the diagonal. -/
def upper (M : Matrix (Fin n) (Fin n) R) : Matrix (Fin n) (Fin n) R :=
  of fun l k => if l < k then M l k else 0

/-- The entries of `M` below the diagonal. -/
def lower (M : Matrix (Fin n) (Fin n) R) : Matrix (Fin n) (Fin n) R :=
  of fun l k => if k < l then M l k else 0

/-- The matrix by which an in-place multiplication with `M` multiplies. -/
noncomputable def relaxation (M : Matrix (Fin n) (Fin n) R) : Matrix (Fin n) (Fin n) R :=
  (1 + diagonal M.diag + lower M) * (1 - upper M * (1 + diagonal M.diag))⁻¹

section Rows

variable {M A : Matrix (Fin n) (Fin n) R} {row other : Fin n → R} {i j k l : Fin n}
  {ls ks before after : List (Fin n)}

/-- The indices before and after one of them. -/
theorem finRange_split (k : Fin n) : ∃ before after, List.finRange n = before ++ k :: after ∧
    (∀ l ∈ before, l < k) ∧ ∀ l ∈ after, k < l := by
  obtain ⟨before, after, split⟩ := List.append_of_mem (List.mem_finRange k)
  have sorted := List.pairwise_lt_finRange n
  rw [split, List.pairwise_append, List.pairwise_cons] at sorted
  obtain ⟨_, ⟨later, _⟩, earlier⟩ := sorted
  exact ⟨before, after, split, fun l held => earlier l held k List.mem_cons_self, later⟩

theorem foldl_addTo_other (apart : i ≠ k) : (ls.foldl (addTo M k) row) i = row i := by
  induction ls generalizing row with
  | nil => rfl
  | cons l rest ih => rw [List.foldl_cons, ih, addTo, Function.update_of_ne apart]

theorem foldl_addTo_own (apart : k ∉ ls) : (ls.foldl (addTo M k) row) k =
    row k + (ls.map fun l => row l * M l k).sum := by
  induction ls generalizing row with
  | nil => simp
  | cons l rest ih =>
      rw [List.mem_cons, not_or] at apart
      have same : (rest.map fun l' => addTo M k row l l' * M l' k) =
          rest.map fun l' => row l' * M l' k :=
        List.map_congr_left fun l' held => by
          have other : l' ≠ k := fun same => apart.2 (same ▸ held)
          rw [addTo, Function.update_of_ne other]
      rw [List.foldl_cons, ih apart.2, same, addTo, Function.update_self, List.map_cons,
        List.sum_cons, add_assoc]

theorem pass_other (apart : i ≠ k) : pass M row k i = row i := foldl_addTo_other apart

theorem vecMul_upper (split : List.finRange n = before ++ k :: after)
    (earlier : ∀ l ∈ before, l < k) (later : ∀ l ∈ after, k < l) :
    (row ᵥ* upper M) k = (before.map fun l => row l * M l k).sum := by
  have front : (before.map fun l => row l * upper M l k) = before.map fun l => row l * M l k :=
    List.map_congr_left fun l held => by rw [upper, of_apply, if_pos (earlier l held)]
  have back : (after.map fun l => row l * upper M l k) = after.map fun _ => 0 :=
    List.map_congr_left fun l held => by
      rw [upper, of_apply, if_neg (not_lt_of_gt (later l held)), mul_zero]
  have own : row k * upper M k k = 0 := by
    rw [upper, of_apply, if_neg (lt_irrefl k), mul_zero]
  rw [vecMul, dotProduct, Fin.sum_univ_def, split, List.map_append, List.map_cons, front, back, own]
  simp

theorem vecMul_lower (split : List.finRange n = before ++ k :: after)
    (earlier : ∀ l ∈ before, l < k) (later : ∀ l ∈ after, k < l) :
    (row ᵥ* lower M) k = (after.map fun l => row l * M l k).sum := by
  have front : (before.map fun l => row l * lower M l k) = before.map fun _ => 0 :=
    List.map_congr_left fun l held => by
      rw [lower, of_apply, if_neg (not_lt_of_gt (earlier l held)), mul_zero]
  have back : (after.map fun l => row l * lower M l k) = after.map fun l => row l * M l k :=
    List.map_congr_left fun l held => by rw [lower, of_apply, if_pos (later l held)]
  have own : row k * lower M k k = 0 := by
    rw [lower, of_apply, if_neg (lt_irrefl k), mul_zero]
  rw [vecMul, dotProduct, Fin.sum_univ_def, split, List.map_append, List.map_cons, front, back, own]
  simp

/-- The entry is in its own products too, once it has those before it. -/
theorem pass_own : pass M row k k =
    (row k + (row ᵥ* upper M) k) * (1 + M k k) + (row ᵥ* lower M) k := by
  obtain ⟨before, after, split, earlier, later⟩ := finRange_split k
  have notBefore : k ∉ before := fun held => lt_irrefl k (earlier k held)
  have notAfter : k ∉ after := fun held => lt_irrefl k (later k held)
  have kept : ∀ l ∈ after, addTo M k (before.foldl (addTo M k) row) k l * M l k = row l * M l k := by
    intro l held
    have apart : l ≠ k := ne_of_gt (later l held)
    rw [addTo, Function.update_of_ne apart, foldl_addTo_other apart]
  rw [pass, split, List.foldl_append, List.foldl_cons, foldl_addTo_own notAfter,
    List.map_congr_left kept, addTo, Function.update_self, foldl_addTo_own notBefore,
    vecMul_upper split earlier later, vecMul_lower split earlier later]
  ring

theorem foldl_pass_other (apart : i ∉ ks) : (ks.foldl (pass M) row) i = row i := by
  induction ks generalizing row with
  | nil => rfl
  | cons k rest ih =>
      rw [List.mem_cons, not_or] at apart
      rw [List.foldl_cons, ih apart.2, pass_other apart.1]

theorem vecMul_congr {N : Matrix (Fin n) (Fin n) R} (same : ∀ l, row l = other l ∨ N l k = 0) :
    (row ᵥ* N) k = (other ᵥ* N) k := by
  rw [vecMul, vecMul, dotProduct, dotProduct]
  apply Finset.sum_congr rfl
  intro l _
  rcases same l with same | zero
  · rw [same]
  · rw [zero, mul_zero, mul_zero]

/-- After all passes an entry has the products with the new entries before it and the old ones
after it. -/
theorem foldl_pass_entry (k : Fin n) : (List.finRange n).foldl (pass M) row k =
    (row k + ((List.finRange n).foldl (pass M) row ᵥ* upper M) k) * (1 + M k k) +
      (row ᵥ* lower M) k := by
  obtain ⟨before, after, split, earlier, later⟩ := finRange_split k
  have notBefore : k ∉ before := fun held => lt_irrefl k (earlier k held)
  have notAfter : k ∉ after := fun held => lt_irrefl k (later k held)
  have above : (before.foldl (pass M) row ᵥ* upper M) k =
      ((List.finRange n).foldl (pass M) row ᵥ* upper M) k := by
    apply vecMul_congr
    intro l
    by_cases less : l < k
    · have done : l ∉ k :: after := by
        rw [List.mem_cons, not_or]
        exact ⟨ne_of_lt less, fun held => lt_asymm less (later l held)⟩
      rw [split, List.foldl_append, foldl_pass_other done]
      exact .inl rfl
    · exact .inr (by rw [upper, of_apply, if_neg less])
  have below : (before.foldl (pass M) row ᵥ* lower M) k = (row ᵥ* lower M) k := by
    apply vecMul_congr
    intro l
    by_cases more : k < l
    · exact .inl (foldl_pass_other fun held => lt_asymm more (earlier l held))
    · exact .inr (by rw [lower, of_apply, if_neg more])
  rw [← above, ← below, split, List.foldl_append, List.foldl_cons, foldl_pass_other notAfter,
    pass_own, foldl_pass_other notBefore]

end Rows

section Matrices

variable {M A : Matrix (Fin n) (Fin n) R} {js : List (Fin n)}

theorem foldl_addEntry (j k : Fin n) (row : Fin n → R) : (List.finRange n).foldl
    (fun A l => addEntry M A j k l) (A.updateRow j row) = A.updateRow j (pass M row k) := by
  apply List.foldl_hom fun row => A.updateRow j row
  intro row l
  rw [addEntry, updateRow_self, updateRow_idem, addTo]

theorem foldl_row (j : Fin n) : (List.finRange n).foldl
    (fun A k => (List.finRange n).foldl (fun A l => addEntry M A j k l) A) A =
      A.updateRow j ((List.finRange n).foldl (pass M) (A j)) := by
  have passes : (List.finRange n).foldl
      (fun A k => (List.finRange n).foldl (fun A l => addEntry M A j k l) A) (A.updateRow j (A j)) =
        A.updateRow j ((List.finRange n).foldl (pass M) (A j)) :=
    List.foldl_hom (fun row => A.updateRow j row) fun row k => foldl_addEntry j k row
  rw [updateRow_eq_self] at passes
  exact passes

theorem foldl_updateRow {α : Type u} {B : Matrix (Fin n) (Fin n) α}
    (f : (Fin n → α) → Fin n → α) (distinct : js.Nodup) (i : Fin n) :
    (js.foldl (fun B j => B.updateRow j (f (B j))) B) i = if i ∈ js then f (B i) else B i := by
  induction js generalizing B with
  | nil => rfl
  | cons j rest ih =>
      obtain ⟨once, others⟩ := List.nodup_cons.mp distinct
      rw [List.foldl_cons, ih others]
      by_cases own : i = j
      · subst own
        rw [if_neg once, if_pos List.mem_cons_self, updateRow_self]
      · simp only [updateRow_ne own, List.mem_cons, own, false_or]

theorem multiply_row (j : Fin n) : multiply M A j = (List.finRange n).foldl (pass M) (A j) := by
  have rows := foldl_updateRow (B := A) (fun row => (List.finRange n).foldl (pass M) row)
    (List.nodup_finRange n) j
  rw [if_pos (List.mem_finRange j)] at rows
  simp only [multiply, foldl_row]
  exact rows

/-- An entry gets its products with the new entries before it, then with the old ones after it. -/
theorem multiply_entry (j k : Fin n) : multiply M A j k =
    (A j k + (multiply M A * upper M) j k) * (1 + M k k) + (A * lower M) j k := by
  have row := multiply_row (M := M) (A := A) j
  have above : (multiply M A * upper M) j k =
      ((List.finRange n).foldl (pass M) (A j) ᵥ* upper M) k := by
    rw [← row]
    rfl
  rw [above, row]
  exact foldl_pass_entry k

theorem multiply_split : multiply M A =
    (A + multiply M A * upper M) * (1 + diagonal M.diag) + A * lower M := by
  ext j k
  rw [multiply_entry, Matrix.add_apply, Matrix.mul_add, Matrix.mul_one, Matrix.add_apply,
    mul_diagonal, Matrix.add_apply, diag_apply]
  ring

theorem triangle : upper M + diagonal M.diag + lower M = M := by
  ext j k
  simp only [upper, lower, Matrix.add_apply, of_apply, diagonal_apply, diag_apply]
  rcases lt_trichotomy j k with less | rfl | more
  · simp [less, ne_of_lt less, not_lt_of_gt less]
  · simp
  · simp [more, ne_of_gt more, not_lt_of_gt more]

theorem det_relaxation : (1 - upper M * (1 + diagonal M.diag)).det = 1 := by
  have entry : ∀ j k, k ≤ j → (upper M * (1 + diagonal M.diag)) j k = 0 := by
    intro j k less
    rw [Matrix.mul_add, Matrix.mul_one, Matrix.add_apply, mul_diagonal, upper, of_apply,
      if_neg (not_lt_of_ge less), zero_mul, add_zero]
  have triangular : (1 - upper M * (1 + diagonal M.diag)).BlockTriangular id := by
    intro j k below
    have less : k < j := below
    rw [Matrix.sub_apply, entry j k (le_of_lt less), one_apply_ne (ne_of_gt less), sub_zero]
  rw [det_of_isUpperTriangular triangular]
  apply Finset.prod_eq_one
  intro j _
  rw [Matrix.sub_apply, entry j j le_rfl, one_apply_eq, sub_zero]

theorem multiply_eq (M A : Matrix (Fin n) (Fin n) R) : multiply M A = A * relaxation M := by
  have unit : IsUnit (1 - upper M * (1 + diagonal M.diag)).det := by
    rw [det_relaxation]
    exact isUnit_one
  have solved : multiply M A * (1 - upper M * (1 + diagonal M.diag)) =
      A * (1 + diagonal M.diag + lower M) := by
    have split : multiply M A = (A + multiply M A * upper M) * (1 + diagonal M.diag) + A * lower M :=
      multiply_split
    calc multiply M A * (1 - upper M * (1 + diagonal M.diag))
        = multiply M A - multiply M A * upper M * (1 + diagonal M.diag) := by
          rw [Matrix.mul_sub, Matrix.mul_one, Matrix.mul_assoc]
      _ = A * (1 + diagonal M.diag) + A * lower M := by
          nth_rewrite 1 [split]
          rw [Matrix.add_mul]
          abel
      _ = A * (1 + diagonal M.diag + lower M) := by rw [Matrix.mul_add A (1 + _)]
  rw [relaxation, ← Matrix.mul_assoc, ← solved, mul_nonsing_inv_cancel_right _ _ unit]

/-- Where both products leave a matrix as it is, there is nothing in it. -/
theorem eq_zero_of_fixed (product : A * M = A) (relaxed : A * relaxation M = A) : A = 0 := by
  have split : multiply M A = (A + multiply M A * upper M) * (1 + diagonal M.diag) + A * lower M :=
    multiply_split
  rw [multiply_eq, relaxed] at split
  have rest : A + A * upper M * diagonal M.diag = 0 := by
    have expanded : A + A * upper M * diagonal M.diag = (A + A * upper M) * (1 + diagonal M.diag) +
        A * lower M - A * (upper M + diagonal M.diag + lower M) := by noncomm_ring
    rw [expanded, triangle, product, ← split, sub_self]
  ext j k
  induction k using WellFoundedLT.induction with
  | ind k ih =>
      have above : (A * upper M) j k = 0 := by
        rw [mul_apply]
        apply Finset.sum_eq_zero
        intro l _
        rw [upper, of_apply]
        split
        · rw [ih l ‹_›, Matrix.zero_apply, zero_mul]
        · rw [mul_zero]
      have entry := congrFun (congrFun rest j) k
      rw [Matrix.add_apply, mul_diagonal, above, zero_mul, add_zero] at entry
      exact entry

end Matrices

end VoteCounting.InPlace
