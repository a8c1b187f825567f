import TyloQuant.Lib.BitRange
import TyloQuant.Lib.Loops

/-!
# Packed numbers of the SQ formats

The loops with which the Python modules of the SQ formats pack numbers of some bits and take them
apart.  The packing loop does not look at the size of its numbers: one that is too large sets bits of
its neighbours.
-/

namespace TyloQuant.Formats

open Lib ByteFile Bits List

/-- A cast to `np.uint8`. -/
def uint8 (value : Int) : UInt8 := UInt8.ofNat (value % 256).toNat

theorem toNat_uint8 {v : Int} (hnonneg : 0 ≤ v) (hlt : v < 256) : ((uint8 v).toNat : Int) = v := by
  have hmod : (v % 256).toNat = v.toNat := by omega
  have hsize : v.toNat < UInt8.size := by
    change _ < 256
    omega
  rw [uint8, hmod, UInt8.toNat_ofNat_of_lt' hsize]
  omega

def packedNbytes (count bits : Nat) : Nat := (count * bits + 7) / 8

/-- One round of `_pack_bits`. -/
def packStep (values : List Nat) (bits : Nat) (output : Nat → UInt8) (index : Nat) : Nat → UInt8 :=
  let value := values.getD index 0
  let bit := index * bits
  let output := orByte output (bit / 8) (UInt8.ofNat (value <<< (bit % 8) &&& 0xff))
  if 8 < bit % 8 + bits then orByte output (bit / 8 + 1) (UInt8.ofNat (value >>> (8 - bit % 8)))
  else output

/-- The loop of `_pack_bits` over bytes. -/
def packBits (values : List Nat) (bits : Nat) : List UInt8 :=
  window ((List.range values.length).foldl (packStep values bits) fun _ => 0) 0
    (packedNbytes values.length bits)

def unpackBits (payload : List UInt8) (offset count bits : Nat) : List Nat :=
  (List.range count).map fun index =>
    let bit := index * bits
    let value := (byte payload (offset + bit / 8)).toNat
    let value := if 8 < bit % 8 + bits then
      value ||| (byte payload (offset + bit / 8 + 1)).toNat <<< 8 else value
    value >>> (bit % 8) &&& (1 <<< bits - 1)

/-! ### The bits -/

section Pack

variable {values : List Nat} {bits : Nat}

theorem bit_packStep (s : Nat → UInt8) {index : Nat} (hbits : bits ≤ 8)
    (hvalue : values.getD index 0 < 2 ^ bits) (i : Nat) :
    bit (packStep values bits s index) i
      = (bit s i || (decide (bits * index ≤ i) &&
        (values.getD index 0).testBit (i - bits * index))) := by
  have hlow (x : Nat) : UInt8.ofNat (x &&& 0xff) = UInt8.ofNat x := by
    apply toNat_eq_of_bits
    intro j hj
    rw [testBit_ofNat, testBit_ofNat, Nat.testBit_and,
      show 0xff = 2 ^ 8 - 1 from rfl, Nat.testBit_two_pow_sub_one]
    simp [hj]
  have hhigh (x : Nat) : x >>> (8 - bits * index % 8) = x <<< (bits * index % 8) >>> 8 := by
    apply Nat.eq_of_testBit_eq
    intro j
    rw [Nat.testBit_shiftRight, Nat.testBit_shiftRight, Nat.testBit_shiftLeft,
      decide_eq_true (by omega), Bool.true_and]
    congr 1
    omega
  unfold packStep
  dsimp only
  rw [hlow, Nat.mul_comm index bits, hhigh]
  split
  · exact bit_orPair_field s (by omega) hvalue i
  · exact bit_orByte_field s (by omega) hvalue i

/-- **The packed numbers**, when each fits its bits. -/
theorem filled_packBits (hbits : bits ≤ 8)
    (hvalues : ∀ v < values.length, values.getD v 0 < 2 ^ bits) :
    Filled (fun _ => 0) ((List.range values.length).foldl (packStep values bits) fun _ => 0)
      (packedNbytes values.length bits) bits values.length fun v => values.getD v 0 := by
  have hzero : Filled (fun _ => 0) (fun _ => 0) (packedNbytes values.length bits) bits 0
      fun v => values.getD v 0 := by
    refine ⟨fun i _ => ?_, fun _ _ => rfl⟩
    rw [bit_zero]
    simp
  refine foldl_range_induction (p := fun n s => Filled (fun _ => 0) s
    (packedNbytes values.length bits) bits n fun v => values.getD v 0) hzero fun n hn s hs => ?_
  refine hs.set ?_ (hvalues n hn) fun i => bit_packStep s hbits (hvalues n hn) i
  have hle : bits * (n + 1) ≤ bits * values.length := Nat.mul_le_mul_left bits hn
  unfold packedNbytes
  rw [Nat.mul_comm values.length]
  omega

@[simp] theorem length_packBits : (packBits values bits).length = packedNbytes values.length bits := by
  simp [packBits]

theorem bit_packBits (hbits : bits ≤ 8)
    (hvalues : ∀ v < values.length, values.getD v 0 < 2 ^ bits) (i : Nat) :
    bit (byte (packBits values bits)) i = (decide (i < bits * values.length) &&
      (values.getD (i / bits) 0).testBit (i % bits)) := by
  have hbytes : packedNbytes values.length bits = (bits * values.length + 7) / 8 := by
    rw [packedNbytes, Nat.mul_comm]
  by_cases hi : i < 8 * packedNbytes values.length bits
  · rw [← (filled_packBits hbits hvalues).bits i hi]
    unfold bit packBits
    rw [byte_window (by omega), Nat.zero_add]
  · rw [decide_eq_false (by omega), Bool.false_and]
    unfold bit
    rw [byte_of_le (by rw [length_packBits]; omega)]
    exact Nat.zero_testBit _

theorem field_packBits (hbits : bits ≤ 8)
    (hvalues : ∀ v < values.length, values.getD v 0 < 2 ^ bits) {v : Nat} (hv : v < values.length) :
    field (byte (packBits values bits)) (bits * v) bits = values.getD v 0 := by
  apply field_eq_of_testBit (hvalues v hv)
  intro j hj
  have hmul : bits * (v + 1) ≤ bits * values.length := Nat.mul_le_mul_left bits hv
  rw [Nat.mul_succ] at hmul
  obtain ⟨hdiv, hmod⟩ := div_mod_of_mem (w := bits) (n := v) (i := bits * v + j) (by omega) (by omega)
  rw [bit_packBits hbits hvalues, decide_eq_true (by omega), Bool.true_and, hdiv, hmod]
  congr 1
  omega

theorem bit_padded (hbits : bits ≤ 8) (hvalues : ∀ v < values.length, values.getD v 0 < 2 ^ bits)
    (n i : Nat) : bit (byte (packBits values bits ++ List.replicate n 0)) i
      = (decide (i < bits * values.length) && (values.getD (i / bits) 0).testBit (i % bits)) := by
  rw [← bit_packBits hbits hvalues]
  unfold bit
  rw [byte_append]
  split
  · rfl
  · rw [byte_zeros, byte_of_le (by omega)]

end Pack

theorem length_unpackBits (payload : List UInt8) (offset count bits : Nat) :
    (unpackBits payload offset count bits).length = count := by
  simp [unpackBits]

theorem getD_unpackBits (payload : List UInt8) (offset : Nat) {count bits index : Nat}
    (hbits : bits ≤ 8)
    (hindex : index < count) : (unpackBits payload offset count bits).getD index 0
      = field (byte payload) (8 * offset + bits * index) bits := by
  have hmask (x : Nat) : x &&& (1 <<< bits - 1) = x % 2 ^ bits := by
    rw [Nat.one_shiftLeft]
    exact Nat.and_two_pow_sub_one_eq_mod x bits
  have hbyte : offset + bits * index / 8 = (8 * offset + bits * index) / 8 := by omega
  have hshift : bits * index % 8 = (8 * offset + bits * index) % 8 := by omega
  unfold unpackBits
  rw [getD_eq_getElem _ _ (by simpa using hindex), getElem_map, getElem_range]
  dsimp only
  rw [hmask, Nat.mul_comm index bits, hbyte, hshift]
  split
  · exact pair_shiftRight _ (by omega)
  · exact byte_shiftRight _ (by omega)

theorem unpackBits_eq (payload : List UInt8) (offset count : Nat) {bits : Nat} (hbits : bits ≤ 8) :
    unpackBits payload offset count bits
      = (List.range count).map fun index => field (byte payload) (8 * offset + bits * index) bits := by
  apply ext_getElem
  · simp [unpackBits]
  · intro index hindex hindex'
    have hlt : index < count := by simpa [unpackBits] using hindex
    have hget := getD_unpackBits payload offset hbits hlt
    rw [getD_eq_getElem _ _ hindex] at hget
    rw [hget, getElem_map, getElem_range]

/-! ### Parts -/

theorem byte_flatten (before : List (List UInt8)) (part : List UInt8) (after : List (List UInt8))
    {k : Nat} (hk : k < part.length) :
    byte (before ++ part :: after).flatten (before.flatten.length + k) = byte part k := by
  rw [flatten_append, flatten_cons, byte_append, if_neg (by omega), Nat.add_sub_cancel_left,
    byte_append, if_pos hk]

theorem field_flatten (before : List (List UInt8)) (part : List UInt8) (after : List (List UInt8))
    {p w : Nat} (hp : p + w ≤ 8 * part.length) :
    field (byte (before ++ part :: after).flatten) (8 * before.flatten.length + p) w
      = field (byte part) p w := by
  rw [← field_add]
  exact field_congr fun k _ hk => byte_flatten before part after (by omega)

theorem any_window (s : Nat → UInt8) (start size : Nat) (p : UInt8 → Bool) :
    (window s start size).any p = true ↔ ∃ k < size, p (s (start + k)) = true := by
  simp [window, any_eq_true]

theorem getD_map_range {α : Type} (f : Nat → α) (d : α) {n i : Nat} (hi : i < n) :
    ((List.range n).map f).getD i d = f i := by
  rw [getD_eq_getElem _ _ (by simpa using hi), getElem_map, getElem_range]

end TyloQuant.Formats
