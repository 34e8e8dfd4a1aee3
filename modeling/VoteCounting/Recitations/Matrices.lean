import VoteCounting.Data.InPlace
import Mathlib.Data.BitVec
import Mathlib.Logic.Function.Basic

namespace VoteCounting.Recitations.Matrices

open InPlace

/-- `struct matrix`.  Its rows are numbered in the order of their allocation. -/
structure StructMatrix where
  x : Nat
  y : Nat
  data : Nat → Nat

/-- The entries of all rows; an `int` is a number modulo 2 ^ 32. -/
abbrev Cells := Nat → Nat → BitVec 32

def newMatrix (x y rows : Nat) : StructMatrix × Nat := (⟨x, y, fun i => rows + i⟩, rows + x)

/-- The loop of `main` over the array. -/
def newMatrices (n max : Nat) (matrices : Nat → StructMatrix) (rows : Nat) :
    (Nat → StructMatrix) × Nat :=
  (List.range max).foldl (fun made i =>
    let matrix := newMatrix n n made.2
    (Function.update made.1 i matrix.1, matrix.2)) (matrices, rows)

/-- `mat->data[j][k] += mat->data[j][l] * matrices[i]->data[l][k]` -/
def accumulate (mat matrix : StructMatrix) (cells : Cells) (j k l : Nat) : Cells :=
  let row := cells (mat.data j)
  Function.update cells (mat.data j)
    (Function.update row k (row k + row l * cells (matrix.data l) k))

def multiplyBy (mat matrix : StructMatrix) (cells : Cells) : Cells :=
  (List.range matrix.x).foldl (fun cells j => (List.range matrix.y).foldl (fun cells k =>
    (List.range matrix.x).foldl (fun cells l => accumulate mat matrix cells j k l) cells) cells) cells

/-- The result has the rows of the first matrix. -/
def matrixMultiply (matrices : Nat → StructMatrix) (start stop : Nat) (cells : Cells) :
    StructMatrix × Cells :=
  let mat := ⟨(matrices start).x, (matrices start).y, (matrices start).data⟩
  (mat, (List.range' (start + 1) (stop - (start + 1))).foldl
    (fun cells i => multiplyBy mat (matrices i) cells) cells)

/-- A matrix as the mathematical object. -/
def entries (n : Nat) (cells : Cells) (matrix : StructMatrix) : Matrix (Fin n) (Fin n) (BitVec 32) :=
  Matrix.of fun j k => cells (matrix.data j) k

/-- The matrices `start` to `stop - 1`. -/
def factors (n : Nat) (cells : Cells) (matrices : Nat → StructMatrix) (start stop : Nat) :
    List (Matrix (Fin n) (Fin n) (BitVec 32)) :=
  (List.range' start (stop - start)).map fun i => entries n cells (matrices i)

/-- The call returns the product, and the matrices are as before. -/
structure Multiplied (n max : Nat) (matrices : Nat → StructMatrix) (start stop : Nat)
    (cells : Cells) : Prop where
  product : entries n (matrixMultiply matrices start stop cells).2
    (matrixMultiply matrices start stop cells).1 = (factors n cells matrices start stop).prod
  kept : ∀ i < max, entries n (matrixMultiply matrices start stop cells).2 (matrices i) =
    entries n cells (matrices i)

/-- Square matrices without a row in common. -/
structure Created (n max : Nat) (matrices : Nat → StructMatrix) : Prop where
  square : ∀ i < max, (matrices i).x = n ∧ (matrices i).y = n
  apart : ∀ {i i' j j'}, i < max → i' < max → j < n → j' < n →
    (matrices i).data j = (matrices i').data j' → i = i' ∧ j = j'

section Creation

variable {n max rows : Nat} {matrices : Nat → StructMatrix}

theorem newMatrices_eq : (newMatrices n max matrices rows).2 = rows + max * n ∧
    ∀ i < max, (newMatrices n max matrices rows).1 i = ⟨n, n, fun j => rows + i * n + j⟩ := by
  induction max with
  | zero => exact ⟨by simp [newMatrices], fun i less => absurd less (Nat.not_lt_zero i)⟩
  | succ max ih =>
      obtain ⟨next, earlier⟩ := ih
      have grown : newMatrices n (max + 1) matrices rows =
          (Function.update (newMatrices n max matrices rows).1 max
            (newMatrix n n (newMatrices n max matrices rows).2).1,
          (newMatrix n n (newMatrices n max matrices rows).2).2) := by
        rw [newMatrices, List.range_succ, List.foldl_append]
        rfl
      rw [grown]
      refine ⟨?_, fun i less => ?_⟩
      · simp only [newMatrix, next]
        ring
      · by_cases last : i = max
        · simp only [last, Function.update_self, newMatrix, next]
        · simp only [Function.update_of_ne last]
          exact earlier i (by omega)

/-- Every call of `newMatrix` allocates rows of its own. -/
theorem newMatrices_created : Created n max (newMatrices n max matrices rows).1 where
  square i less := by
    rw [newMatrices_eq.2 i less]
    exact ⟨rfl, rfl⟩
  apart := by
    intro i i' j j' less less' inside inside' same
    rw [newMatrices_eq.2 i less, newMatrices_eq.2 i' less'] at same
    have sums : j + i * n = j' + i' * n := by
      simp only at same
      omega
    have columns := congrArg (· % n) sums
    have numbers := congrArg (· / n) sums
    simp only [Nat.add_mul_mod_self_right, Nat.mod_eq_of_lt inside, Nat.mod_eq_of_lt inside'] at columns
    have positive : 0 < n := by omega
    simp only [Nat.add_mul_div_right _ _ positive, Nat.div_eq_of_lt inside,
      Nat.div_eq_of_lt inside', Nat.zero_add] at numbers
    exact ⟨numbers, columns⟩

end Creation

/-- The cells with a matrix written to some rows. -/
noncomputable def place {n : Nat} (cells : Cells) (data : Fin n → Nat)
    (A : Matrix (Fin n) (Fin n) (BitVec 32)) : Cells :=
  Function.extend data (fun j => Function.extend Fin.val (A j) (cells (data j))) cells

section Placing

variable {n : Nat} {cells : Cells} {data : Fin n → Nat} {A : Matrix (Fin n) (Fin n) (BitVec 32)}
  {row : Nat} {mat matrix : StructMatrix}

theorem place_row (distinct : data.Injective) (j : Fin n) :
    place cells data A (data j) = Function.extend Fin.val (A j) (cells (data j)) :=
  distinct.extend_apply _ _ _

theorem place_entry (distinct : data.Injective) (j k : Fin n) :
    place cells data A (data j) k = A j k := by
  rw [place_row distinct, Fin.val_injective.extend_apply]

theorem place_other (other : ∀ j, data j ≠ row) : place cells data A row = cells row :=
  Function.extend_apply' _ _ _ fun found => by
    obtain ⟨j, same⟩ := found
    exact other j same

theorem place_own (distinct : data.Injective) :
    place cells data (Matrix.of fun j k => cells (data j) k) = cells := by
  funext row
  by_cases found : ∃ j, data j = row
  · obtain ⟨j, rfl⟩ := found
    rw [place_row distinct]
    funext k
    by_cases inside : ∃ i : Fin n, i.val = k
    · obtain ⟨i, rfl⟩ := inside
      rw [Fin.val_injective.extend_apply]
      rfl
    · rw [Function.extend_apply' _ _ _ inside]
  · rw [place, Function.extend_apply' _ _ _ found]

/-- Writing to an entry of a placed matrix. -/
theorem update_place (distinct : data.Injective) (j k : Fin n) (value : BitVec 32) :
    Function.update (place cells data A) (data j)
        (Function.update (place cells data A (data j)) k value) =
      place cells data (A.updateRow j (Function.update (A j) k value)) := by
  funext row
  by_cases found : ∃ i, data i = row
  · obtain ⟨i, rfl⟩ := found
    by_cases own : i = j
    · subst own
      rw [Function.update_self, place_row distinct, place_row distinct, Matrix.updateRow_self]
      funext c
      by_cases inside : ∃ i : Fin n, i.val = c
      · obtain ⟨i, rfl⟩ := inside
        by_cases same : i = k
        · rw [same, Function.update_self, Fin.val_injective.extend_apply, Function.update_self]
        · rw [Function.update_of_ne (Fin.val_injective.ne same), Fin.val_injective.extend_apply,
            Fin.val_injective.extend_apply, Function.update_of_ne same]
      · have other : c ≠ k := fun same => inside ⟨k, same.symm⟩
        rw [Function.update_of_ne other, Function.extend_apply' _ _ _ inside,
          Function.extend_apply' _ _ _ inside]
    · rw [Function.update_of_ne (distinct.ne own), place_row distinct, place_row distinct,
        Matrix.updateRow_ne own]
  · have other : ∀ i, data i ≠ row := fun i same => found ⟨i, same⟩
    rw [Function.update_of_ne (other j).symm, place_other other, place_other other]

theorem foldl_range {α : Type*} (f : α → Nat → α) (start : α) :
    (List.range n).foldl f start = (List.finRange n).foldl (fun a (i : Fin n) => f a i) start := by
  rw [← List.map_coe_finRange_eq_range, List.foldl_map]

/-- The loops multiply in place where the rows of the factor are other rows. -/
theorem multiplyBy_place (distinct : Function.Injective fun j : Fin n => mat.data j)
    (square : matrix.x = n ∧ matrix.y = n) (apart : ∀ j l : Fin n, mat.data j ≠ matrix.data l) :
    multiplyBy mat matrix (place cells (fun j : Fin n => mat.data j) A) =
      place cells (fun j : Fin n => mat.data j) (multiply (entries n cells matrix) A) := by
  have entry : ∀ A (j k l : Fin n),
      accumulate mat matrix (place cells (fun j : Fin n => mat.data j) A) j k l =
        place cells (fun j : Fin n => mat.data j) (addEntry (entries n cells matrix) A j k l) := by
    intro A j k l
    have factor : place cells (fun j : Fin n => mat.data j) A (matrix.data l) =
        cells (matrix.data l) := place_other fun j => apart j l
    rw [accumulate, place_entry distinct j k, place_entry distinct j l, factor,
      update_place distinct j k]
    rfl
  rw [multiplyBy, multiply, square.1, square.2]
  simp only [foldl_range]
  apply List.foldl_hom
  intro A j
  apply List.foldl_hom
  intro A k
  apply List.foldl_hom
  exact fun A l => entry A j k l

end Placing

/-- A matrix that the product with a chain leaves as it is, and the in-place product too. -/
def Unmoved {n : Nat} (A : Matrix (Fin n) (Fin n) (BitVec 32))
    (chain : List (Matrix (Fin n) (Fin n) (BitVec 32))) : Prop :=
  A * chain.prod = A ∧ A * (chain.map relaxation).prod = A

section Chains

variable {n max start stop : Nat} {matrices : Nat → StructMatrix} {cells : Cells}

theorem Created.distinct (created : Created n max matrices) {i : Nat} (inside : i < max) :
    Function.Injective fun j : Fin n => (matrices i).data j :=
  fun j j' same => Fin.ext (created.apart inside inside j.isLt j'.isLt same).2

theorem foldl_multiplyBy (cells : Cells) (created : Created n max matrices) (inside : start < max)
    {later : List Nat} (others : ∀ i ∈ later, start < i ∧ i < max)
    (A : Matrix (Fin n) (Fin n) (BitVec 32)) :
    later.foldl (fun cells i => multiplyBy (matrices start) (matrices i) cells)
        (place cells (fun j : Fin n => (matrices start).data j) A) =
      place cells (fun j : Fin n => (matrices start).data j)
        (A * ((later.map fun i => entries n cells (matrices i)).map relaxation).prod) := by
  induction later generalizing A with
  | nil => simp
  | cons i rest ih =>
      obtain ⟨⟨more, less⟩, others⟩ := List.forall_mem_cons.mp others
      have apart : ∀ j l : Fin n, (matrices start).data j ≠ (matrices i).data l := fun j l same =>
        absurd (created.apart inside less j.isLt l.isLt same).1 (ne_of_lt more)
      rw [List.foldl_cons, multiplyBy_place (created.distinct inside) (created.square i less) apart,
        ih others, multiply_eq, List.map_cons, List.map_cons, List.prod_cons, Matrix.mul_assoc]

theorem matrixMultiply_cells (cells : Cells) (created : Created n max matrices)
    (less : start < stop) (inside : stop ≤ max) : (matrixMultiply matrices start stop cells).2 =
      place cells (fun j : Fin n => (matrices start).data j)
        (entries n cells (matrices start) *
          ((factors n cells matrices (start + 1) stop).map relaxation).prod) := by
  have own : place cells (fun j : Fin n => (matrices start).data j)
      (entries n cells (matrices start)) = cells := place_own (created.distinct (by omega))
  have others : ∀ i ∈ List.range' (start + 1) (stop - (start + 1)), start < i ∧ i < max := by
    intro i held
    rw [List.mem_range'_1] at held
    omega
  have folded := foldl_multiplyBy cells created (by omega) others
    (entries n cells (matrices start))
  rw [own] at folded
  exact folded

theorem entries_place {A : Matrix (Fin n) (Fin n) (BitVec 32)} (created : Created n max matrices)
    (inside : start < max) :
    entries n (place cells (fun j : Fin n => (matrices start).data j) A) (matrices start) = A := by
  apply Matrix.ext
  intro j k
  exact place_entry (created.distinct inside) j k

theorem entries_place_other {A : Matrix (Fin n) (Fin n) (BitVec 32)} {i : Nat}
    (created : Created n max matrices) (inside : start < max) (less : i < max) (other : i ≠ start) :
    entries n (place cells (fun j : Fin n => (matrices start).data j) A) (matrices i) =
      entries n cells (matrices i) := by
  funext j k
  have apart : ∀ j' : Fin n, (matrices start).data j' ≠ (matrices i).data j := fun j' same =>
    other (created.apart inside less j'.isLt j.isLt same).1.symm
  exact congrFun (place_other apart) k

theorem factors_cons (less : start < stop) : factors n cells matrices start stop =
    entries n cells (matrices start) :: factors n cells matrices (start + 1) stop := by
  have split : stop - start = (stop - (start + 1)) + 1 := by omega
  rw [factors, split, List.range'_succ, List.map_cons]
  rfl

theorem multiplied_iff (created : Created n max matrices) (less : start < stop)
    (inside : stop ≤ max) : Multiplied n max matrices start stop cells ↔
      Unmoved (entries n cells (matrices start)) (factors n cells matrices (start + 1) stop) := by
  have own : start < max := by omega
  have result := matrixMultiply_cells cells created less inside
  have returned : entries n (matrixMultiply matrices start stop cells).2
      (matrixMultiply matrices start stop cells).1 = entries n cells (matrices start) *
        ((factors n cells matrices (start + 1) stop).map relaxation).prod := by
    rw [result]
    exact entries_place created own
  constructor
  · intro multiplied
    have kept := multiplied.kept start own
    have product := multiplied.product
    rw [returned, factors_cons less, List.prod_cons] at product
    rw [result, entries_place created own] at kept
    exact ⟨product.symm.trans kept, kept⟩
  · rintro ⟨product, relaxed⟩
    constructor
    · rw [returned, factors_cons less, List.prod_cons, product, relaxed]
    · intro i within
      rw [result]
      by_cases same : i = start
      · rw [same, entries_place created own, relaxed]
      · exact entries_place_other created own within same

theorem unmoved_nil (A : Matrix (Fin n) (Fin n) (BitVec 32)) : Unmoved A [] := by
  simp [Unmoved]

theorem unmoved_single {A M : Matrix (Fin n) (Fin n) (BitVec 32)} : Unmoved A [M] ↔ A = 0 := by
  constructor
  · rintro ⟨product, relaxed⟩
    exact eq_zero_of_fixed (by simpa using product) (by simpa using relaxed)
  · rintro rfl
    simp [Unmoved]

theorem factors_single : factors n cells matrices start (start + 1) =
    [entries n cells (matrices start)] := by
  rw [factors, Nat.add_sub_cancel_left]
  rfl

/-- One matrix is its own product.  A longer product is right if and only if the first matrix stays
as it is under the chain after it and under the in-place multiplications; for two matrices it is
then zero. -/
theorem matrixMultiply_exact_iff {rows : Nat} (less : start < stop) (inside : stop ≤ max) :
    let created := (newMatrices n max matrices rows).1
    (Multiplied n max created start stop cells ↔
      Unmoved (entries n cells (created start)) (factors n cells created (start + 1) stop)) ∧
    (stop = start + 1 → Multiplied n max created start stop cells) ∧
    (stop = start + 2 →
      (Multiplied n max created start stop cells ↔ entries n cells (created start) = 0)) := by
  intro created
  have exact_iff : Multiplied n max created start stop cells ↔
      Unmoved (entries n cells (created start)) (factors n cells created (start + 1) stop) :=
    multiplied_iff newMatrices_created less inside
  refine ⟨exact_iff, fun single => ?_, fun double => ?_⟩
  · have alone : factors n cells created (start + 1) stop = [] := by
      rw [factors, single, Nat.sub_self]
      rfl
    rw [exact_iff, alone]
    exact unmoved_nil _
  · rw [exact_iff, double, factors_single, unmoved_single]

/-- Two matrices with one entry each, or with four. -/
def pair (n : Nat) : Nat → StructMatrix := (newMatrices n 2 (fun _ => ⟨0, 0, fun _ => 0⟩) 0).1

theorem matrixMultiply_of_zero :
    Multiplied 2 2 (pair 2) 0 2 (fun row _ => if row < 2 then 0 else 5) := by
  apply ((matrixMultiply_exact_iff (by omega) le_rfl).2.2 rfl).mpr
  apply Matrix.ext
  intro j k
  have first : pair 2 0 = ⟨2, 2, fun j => 0 + 0 * 2 + j⟩ := newMatrices_eq.2 0 (by omega)
  have low : 0 + 0 * 2 + j.val < 2 := by omega
  exact (congrArg (entries 2 _ · j k) first).trans (if_pos low)

/-- The product of 1 and 2 comes out as 3. -/
theorem matrixMultiply_adds :
    ¬ Multiplied 1 2 (pair 1) 0 2 (fun row _ => BitVec.ofNat 32 (row + 1)) := by
  have created : Created 1 2 (pair 1) := newMatrices_created
  rw [multiplied_iff created (by omega) le_rfl, factors_single, unmoved_single]
  intro zero
  have entry := congrFun (congrFun zero 0) 0
  have first : pair 1 0 = ⟨1, 1, fun j => 0 + 0 * 1 + j⟩ := newMatrices_eq.2 0 (by omega)
  rw [first] at entry
  cases entry

end Chains

end VoteCounting.Recitations.Matrices
