import TyloQuant.Formats.PackBits

/-!
# Arrays of integers

The two-dimensional integer arrays that the Python packers take, row after row.
-/

namespace TyloQuant.Formats

/-- An array of two dimensions. -/
structure IntArray where
  rows : Nat
  columns : Nat
  entry : Nat → Nat → Int

namespace IntArray

def shape (a : IntArray) : Nat × Nat := (a.rows, a.columns)

/-- `reshape(-1)`. -/
def flat (a : IntArray) : List Int :=
  (List.range (a.rows * a.columns)).map fun k => a.entry (k / a.columns) (k % a.columns)

/-- A row of the array. -/
def row (a : IntArray) (i : Nat) : List Int := (List.range a.columns).map (a.entry i)

/-- `np.stack` of rows of one length. -/
def stack (columns : Nat) (rows : List (List Int)) : IntArray where
  rows := rows.length
  columns
  entry := fun i j => (rows.getD i []).getD j 0

/-- The numbers of an array that fit their bits. -/
def Fits (a : IntArray) (bits : Nat) : Prop := ∀ v ∈ a.flat, 0 ≤ v ∧ v < (2 ^ bits : Nat)

variable {a : IntArray}

@[simp] theorem length_flat : a.flat.length = a.rows * a.columns := by simp [flat]

theorem getD_flat {i j : Nat} (hi : i < a.rows) (hj : j < a.columns) :
    a.flat.getD (i * a.columns + j) 0 = a.entry i j := by
  have hmul : (i + 1) * a.columns ≤ a.rows * a.columns := Nat.mul_le_mul_right _ hi
  rw [Nat.succ_mul] at hmul
  have hcolumns : 0 < a.columns := by omega
  rw [flat, getD_map_range _ _ (by omega), Nat.mul_comm i, Nat.mul_add_div hcolumns,
    Nat.div_eq_of_lt hj, Nat.add_zero, Nat.mul_add_mod, Nat.mod_eq_of_lt hj]

theorem mem_flat {v : Int} : v ∈ a.flat ↔ ∃ i < a.rows, v ∈ a.row i := by
  constructor
  · intro hv
    obtain ⟨k, hk, rfl⟩ := List.mem_map.mp hv
    rw [List.mem_range] at hk
    have hcolumns : 0 < a.columns := Nat.pos_of_ne_zero fun hzero => by
      rw [hzero] at hk
      omega
    exact ⟨k / a.columns, Nat.div_lt_of_lt_mul (by rw [Nat.mul_comm]; exact hk),
      List.mem_map.mpr ⟨k % a.columns, List.mem_range.mpr (Nat.mod_lt _ hcolumns), rfl⟩⟩
  · rintro ⟨i, hi, hv⟩
    obtain ⟨j, hj, rfl⟩ := List.mem_map.mp hv
    rw [List.mem_range] at hj
    have hmul : (i + 1) * a.columns ≤ a.rows * a.columns := Nat.mul_le_mul_right _ hi
    rw [Nat.succ_mul] at hmul
    rw [← getD_flat hi hj, List.getD_eq_getElem _ _ (by rw [length_flat]; omega)]
    exact List.getElem_mem _

end IntArray

end TyloQuant.Formats
