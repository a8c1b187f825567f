import TyloQuant.Tq.Sound

/-!
# The states of a row

A state is 16 bits of a ring of 256 places, read backwards; what a state reads past the end of its
ring is the ring's beginning.  A ring that is cut short has its boundary state in its place.
-/

namespace TyloQuant.Tq

open Lib Bytes ByteFile Bits List

theorem word16_eq_field (stream : Nat → UInt8) (pos : Nat) :
    word16 stream pos = field stream pos 16 := by
  rw [← triple_shiftRight]
  exact Nat.and_two_pow_sub_one_eq_mod _ 16

theorem flatMap_range_map {α : Type} (g : Nat → Nat → α) (n m : Nat) :
    ((List.range n).flatMap fun r => (List.range m).map (g r))
      = (List.range (n * m)).map fun i => g (i / m) (i % m) := by
  induction n with
  | zero => simp
  | succ n ih =>
    rw [range_succ, flatMap_append, ih, Nat.succ_mul, range_add, map_append,
      flatMap_singleton, map_map]
    congr 1
    apply map_congr_left
    intro i hi
    have hlt := mem_range.mp hi
    have hm : 0 < m := by omega
    rw [Function.comp_apply, Nat.mul_comm n m, Nat.mul_add_div hm, Nat.div_eq_of_lt hlt,
      Nat.mul_add_mod, Nat.mod_eq_of_lt hlt, Nat.add_zero]

/-- A ring that goes on with its beginning. -/
def ringByte (k : Nat) (ring : Nat → UInt8) (j : Nat) : UInt8 :=
  ring (if j < 32 * k then j else j - 32 * k)

/-- The rest of a row that ends within a ring, and its boundary state. -/
def tailByte (size seed : Nat) (rest : Nat → UInt8) (j : Nat) : UInt8 :=
  if j < size then rest j
  else if j = size then UInt8.ofNat (seed &&& 255) else UInt8.ofNat (seed >>> 8)

/-- The state of a column of a row of `width` columns at `k` bits. -/
def stateAt (width k seed : Nat) (raw : Nat → UInt8) (i : Nat) : Nat :=
  if i < width / 256 * 256 then
    field (ringByte k fun j => raw (32 * k * (i / 256) + j)) ((255 - i % 256) * k) 16
  else
    field (tailByte (width % 256 * k / 8) seed fun j => raw (width / 256 * 32 * k + j))
      ((width % 256 - 1 - i % 256) * k) 16

/-- A state of a ring reads only the ring. -/
theorem ring_congr {k full i : Nat} {raw raw' : Nat → UInt8} (hk : 0 < k) (hi : i < full * 256)
    (h : ∀ j < full * (32 * k), raw j = raw' j) :
    field (ringByte k fun j => raw (32 * k * (i / 256) + j)) ((255 - i % 256) * k) 16
      = field (ringByte k fun j => raw' (32 * k * (i / 256) + j)) ((255 - i % 256) * k) 16 := by
  have hring : 32 * k * (i / 256 + 1) ≤ 32 * k * full := Nat.mul_le_mul_left _ (by omega)
  have hpos : (255 - i % 256) * k ≤ 255 * k := Nat.mul_le_mul_right _ (by omega)
  rw [Nat.mul_succ, Nat.mul_comm (32 * k) full] at hring
  apply field_congr
  intro j _ hj
  unfold ringByte
  by_cases hin : j < 32 * k
  · rw [if_pos hin]
    exact h _ (by omega)
  · rw [if_neg hin]
    exact h _ (by omega)

/-- The bytes of a row at `k` bits: those of its whole rings, and the rest. -/
theorem row_bytes_split (width k : Nat) :
    width * k / 8 = width / 256 * (32 * k) + width % 256 * k / 8 := by
  have hsplit : width * k = 8 * (width / 256 * (32 * k)) + width % 256 * k := by
    calc width * k
        = (256 * (width / 256) + width % 256) * k := by rw [Nat.div_add_mod]
      _ = 8 * (width / 256 * (32 * k)) + width % 256 * k := by ring
  rw [hsplit]
  omega

/-- A state reads only the bytes of its row. -/
theorem stateAt_congr {width k seed i : Nat} {raw raw' : Nat → UInt8} (hk : 0 < k)
    (h : ∀ j < width * k / 8, raw j = raw' j) :
    stateAt width k seed raw i = stateAt width k seed raw' i := by
  have hsplit := row_bytes_split width k
  unfold stateAt
  by_cases hin : i < width / 256 * 256
  · rw [if_pos hin, if_pos hin]
    exact ring_congr hk hin fun j hj => h j (by omega)
  · rw [if_neg hin, if_neg hin]
    apply field_congr
    intro j _ _
    unfold tailByte
    by_cases hj : j < width % 256 * k / 8
    · rw [if_pos hj, if_pos hj]
      rw [Nat.mul_assoc]
      exact h _ (by omega)
    · rw [if_neg hj, if_neg hj]

theorem unpackStates_eq {packed : List UInt8} {k n : Nat} (hk : 0 < k)
    (hlength : packed.length = n * (32 * k)) :
    unpackStates packed k = (List.range (n * 256)).map fun i =>
      field (ringByte k fun j => byte packed (32 * k * (i / 256) + j)) ((255 - i % 256) * k) 16 := by
  unfold unpackStates
  rw [hlength, Nat.mul_div_cancel _ (by omega), flatMap_range_map]
  simp only [word16_eq_field]
  rfl

namespace TQTensor

variable {t : TQTensor} {row : Nat}

/-- A byte of the words of a row. -/
def rowByte (t : TQTensor) (row j : Nat) : UInt8 := byte t.packed (t.start row * 4 + j)

def bits (t : TQTensor) (row : Nat) : Nat := bitsOf (t.descriptor row).toNat

def seed (t : TQTensor) (row : Nat) : Nat := tailSeed (t.descriptor row).toNat

/-- The bytes of a row. -/
def rowBytes (t : TQTensor) (row : Nat) : List UInt8 :=
  (t.packed.drop (t.start row * 4)).take (t.width * t.bits row / 8)

theorem byte_rowBytes {j : Nat} (hj : j < t.width * t.bits row / 8) :
    byte (t.rowBytes row) j = t.rowByte row j := by
  rw [rowBytes, byte_take, if_pos hj, byte_drop]
  rfl

theorem length_rowBytes (hrow : row < t.rows) :
    (t.rowBytes row).length = t.width * t.bits row / 8 := by
  have hfits := t.sound.row_fits hrow
  have hbytes := t.sound.row_bytes (t.descriptor row)
  rw [rowBytes, length_take, length_drop]
  unfold bits
  omega

theorem ring_states (hlength : (t.rowBytes row).length = t.width * t.bits row / 8) :
    (do
      let rings ← reshape ((t.rowBytes row).take (t.width / 256 * (32 * t.bits row)))
        (32 * t.bits row)
      pure (unpackStates rings (t.bits row)))
      = .ok ((List.range (t.width / 256 * 256)).map
          (stateAt t.width (t.bits row) (t.seed row) (t.rowByte row))) := by
  have hk : 0 < t.bits row := (bitsOf_le _).1
  have hsplit := row_bytes_split t.width (t.bits row)
  have hrings : ((t.rowBytes row).take (t.width / 256 * (32 * t.bits row))).length
      = t.width / 256 * (32 * t.bits row) := length_take_of_le (by omega)
  unfold reshape
  rw [hrings, Nat.mul_mod_left, if_neg (by simp)]
  change Except.ok _ = _
  rw [unpackStates_eq hk hrings]
  congr 1
  apply map_congr_left
  intro i hi
  have hi' := mem_range.mp hi
  rw [stateAt, if_pos hi']
  apply ring_congr hk hi'
  intro j hj
  rw [byte_take, if_pos hj, byte_rowBytes (by omega)]

theorem tail_state {i : Nat} (hi : i < t.width % 256)
    (hlength : (t.rowBytes row).length = t.width * t.bits row / 8) :
    word16 (byte ((t.rowBytes row).drop (t.width / 256 * (32 * t.bits row))
        ++ [UInt8.ofNat (t.seed row &&& 255), UInt8.ofNat (t.seed row >>> 8)]))
        ((t.width % 256 - 1 - i) * t.bits row)
      = stateAt t.width (t.bits row) (t.seed row) (t.rowByte row) (t.width / 256 * 256 + i) := by
  have hsplit := row_bytes_split t.width (t.bits row)
  have hmod : (t.width / 256 * 256 + i) % 256 = i := by omega
  have hwhole : t.width % 256 * t.bits row = 8 * (t.width % 256 * t.bits row / 8) := by
    obtain ⟨w, hw⟩ : ∃ w, t.width % 256 = 8 * w :=
      ⟨t.width % 256 / 8, by have h := t.sound.width_mod; omega⟩
    rw [hw, Nat.mul_assoc]
    omega
  have hpos : (t.width % 256 - 1 - i) * t.bits row + t.bits row ≤ t.width % 256 * t.bits row := by
    rw [← Nat.succ_mul]
    exact Nat.mul_le_mul_right _ (by omega)
  have hbits := bitsOf_le (t.descriptor row).toNat
  rw [word16_eq_field, stateAt, if_neg (by omega), hmod]
  apply field_congr
  intro j _ hj
  have hk : 1 ≤ t.bits row := hbits.1
  have hrest : ((t.rowBytes row).drop (t.width / 256 * (32 * t.bits row))).length
      = t.width % 256 * t.bits row / 8 := by
    rw [length_drop]
    omega
  rw [byte_append, hrest, tailByte]
  by_cases hin : j < t.width % 256 * t.bits row / 8
  · rw [if_pos hin, if_pos hin, byte_drop, byte_rowBytes (by omega), Nat.mul_assoc]
  · rw [if_neg hin, if_neg hin]
    obtain hfirst | hsecond : j = t.width % 256 * t.bits row / 8 ∨
        j = t.width % 256 * t.bits row / 8 + 1 := by omega
    · rw [if_pos hfirst, hfirst, Nat.sub_self]
      rfl
    · rw [if_neg (by omega), hsecond, Nat.add_sub_cancel_left]
      rfl

theorem states_eq (hrow : row < t.rows) :
    t.states row
      = .ok ((List.range t.width).map
        (stateAt t.width (t.bits row) (t.seed row) (t.rowByte row))) := by
  have hlength := length_rowBytes hrow
  have hrings := ring_states hlength
  have hsplit := row_bytes_split t.width (t.bits row)
  have hraw : (t.packed.drop (t.offset (t.descriptor row) * 4)).take (t.width * t.bits row / 8)
      = t.rowBytes row := by
    rw [t.sound.offset_eq hrow]
    rfl
  have hassoc : t.width / 256 * 32 * t.bits row = t.width / 256 * (32 * t.bits row) :=
    Nat.mul_assoc _ _ _
  obtain ⟨rings, hreshape, hunpack⟩ := bind_eq_ok.mp hrings
  obtain hunpack := pure_eq_ok.mp hunpack
  unfold states
  rw [if_neg (by omega)]
  by_cases hcompact : t.compact = true
  · rw [if_neg (by simp [hcompact])]
    change (do
      let rings ← reshape (List.take (t.width / 256 * 32 * t.bits row)
        ((t.packed.drop (t.offset (t.descriptor row) * 4)).take (t.width * t.bits row / 8)))
        (32 * t.bits row)
      pure (unpackStates rings (t.bits row) ++ (List.range (t.width % 256)).map fun i =>
        word16 (byte (((t.packed.drop (t.offset (t.descriptor row) * 4)).take
            (t.width * t.bits row / 8)).drop (t.width / 256 * 32 * t.bits row)
          ++ [UInt8.ofNat (t.seed row &&& 255), UInt8.ofNat (t.seed row >>> 8)]))
          ((t.width % 256 - 1 - i) * t.bits row))) = _
    rw [hraw, hassoc, hreshape]
    change Except.ok _ = _
    rw [hunpack]
    congr 1
    have htail : (List.range (t.width % 256)).map (fun i =>
        word16 (byte ((t.rowBytes row).drop (t.width / 256 * (32 * t.bits row))
          ++ [UInt8.ofNat (t.seed row &&& 255), UInt8.ofNat (t.seed row >>> 8)]))
          ((t.width % 256 - 1 - i) * t.bits row))
        = (List.range (t.width % 256)).map fun i =>
            stateAt t.width (t.bits row) (t.seed row) (t.rowByte row) (t.width / 256 * 256 + i) :=
      map_congr_left fun i hi => tail_state (mem_range.mp hi) hlength
    have hwidth : t.width = t.width / 256 * 256 + t.width % 256 := by omega
    have hrange : List.range t.width = List.range (t.width / 256 * 256)
        ++ (List.range (t.width % 256)).map (t.width / 256 * 256 + ·) := by
      rw [← range_add, ← hwidth]
    rw [htail, hrange, map_append, map_map]
    rfl
  · rw [if_pos (by simp [hcompact])]
    have hmod : t.width % 256 = 0 := by simpa [Components.compact] using hcompact
    have hwhole : t.width / 256 * 256 = t.width := by omega
    have hall : (t.rowBytes row).take (t.width / 256 * (32 * t.bits row)) = t.rowBytes row := by
      rw [hmod] at hsplit
      exact take_of_length_le (by omega)
    change (do
      let rings ← reshape ((t.packed.drop (t.offset (t.descriptor row) * 4)).take
        (t.width * t.bits row / 8)) (32 * t.bits row)
      pure (unpackStates rings (t.bits row))) = _
    rw [hall] at hreshape
    rw [hraw, hreshape]
    change Except.ok _ = _
    rw [hunpack, hwhole]

end TQTensor

end TyloQuant.Tq
