import TyloQuant.Lib.BitRange

/-!
# Writing bits through a carry

A writer of bits puts out whole bytes and keeps the bits that do not fill one in a number, the
carry.  Pushing a value onto the carry and taking the whole bytes off again moves no bit.
-/

namespace TyloQuant.Lib

open ByteFile Bits Bytes

/-! ### Numbers and their bytes -/

theorem testBit_ofLittleEndian (bs : List UInt8) (i : Nat) :
    (ofLittleEndian bs).testBit i = bit (byte bs) i := by
  induction bs generalizing i with
  | nil =>
    unfold bit
    rw [ofLittleEndian, byte_nil, Nat.zero_testBit]
    exact (Nat.zero_testBit _).symm
  | cons b bs ih =>
    have hb : b.toNat < 2 ^ 8 := b.toNat_lt
    rw [ofLittleEndian, show b.toNat + 256 * ofLittleEndian bs
      = 2 ^ 8 * ofLittleEndian bs + b.toNat by omega, Nat.testBit_two_pow_mul_add _ hb]
    unfold bit
    by_cases hi : i < 8
    · rw [if_pos hi, show i / 8 = 0 by omega, show i % 8 = i by omega]
      rfl
    · rw [if_neg hi, ih]
      unfold bit
      rw [show i / 8 = (i - 8) / 8 + 1 by omega, show i % 8 = (i - 8) % 8 by omega]
      rfl

theorem bit_littleEndian {w n : Nat} (hn : n < 256 ^ w) (i : Nat) :
    bit (byte (littleEndian w n)) i = n.testBit i := by
  rw [← testBit_ofLittleEndian, ofLittleEndian_littleEndian hn]

/-- Bits as bytes, the lowest bit of a byte first, the rest of the last byte zero. -/
def ofBools (bits : List Bool) : List UInt8 :=
  (List.range ((bits.length + 7) / 8)).map fun k =>
    UInt8.ofNat (Nat.ofBits fun j : Fin 8 => bits.getD (8 * k + j) false)

@[simp] theorem length_ofBools (bits : List Bool) :
    (ofBools bits).length = (bits.length + 7) / 8 := by
  simp [ofBools]

theorem bit_ofBools (bits : List Bool) (i : Nat) :
    bit (byte (ofBools bits)) i = bits.getD i false := by
  unfold bit
  by_cases hi : i / 8 < (bits.length + 7) / 8
  · have hbyte : byte (ofBools bits) (i / 8)
        = UInt8.ofNat (Nat.ofBits fun j : Fin 8 => bits.getD (8 * (i / 8) + j) false) := by
      unfold byte ofBools
      rw [List.getD_eq_getElem _ _ (by simpa using hi)]
      simp
    have hmod : i % 8 < 8 := Nat.mod_lt _ (by omega)
    rw [hbyte, testBit_ofNat, Nat.testBit_ofBits, dif_pos hmod, decide_eq_true hmod, Bool.true_and]
    simp only [Nat.div_add_mod]
  · rw [byte_of_le (by simpa using Nat.le_of_not_lt hi), List.getD_eq_default _ _ (by omega)]
    exact Nat.zero_testBit _

/-! ### The writer -/

/-- The first `n` of some bits have been written. -/
structure Written (bits : Nat → Bool) (output : List UInt8) (carry carryBits n : Nat) : Prop where
  carryBits_lt : carryBits < 8
  count : 8 * output.length + carryBits = n
  bytes : ∀ i < 8 * output.length, bit (byte output) i = bits i
  carry : ∀ j, carry.testBit j = (decide (j < carryBits) && bits (8 * output.length + j))

section Written

variable {bits : Nat → Bool} {output : List UInt8} {carry carryBits n : Nat}

theorem written_nil (bits : Nat → Bool) : Written bits [] 0 0 0 :=
  ⟨by omega, rfl, fun i hi => absurd hi (Nat.not_lt_zero i), fun j => by simp⟩

theorem Written.combined (h : Written bits output carry carryBits n) {value w : Nat}
    (hvalue : ∀ j, value.testBit j = (decide (j < w) && bits (n + j))) (j : Nat) :
    (carry ||| value <<< carryBits).testBit j
      = (decide (j < carryBits + w) && bits (8 * output.length + j)) := by
  have hcount := h.count
  rw [Nat.testBit_or, Nat.testBit_shiftLeft, h.carry, hvalue]
  by_cases hlow : j < carryBits
  · simp [hlow, show ¬carryBits ≤ j by omega, show j < carryBits + w by omega]
  · have hplace : n + (j - carryBits) = 8 * output.length + j := by omega
    rw [hplace]
    by_cases hhigh : j < carryBits + w
    · simp [hlow, hhigh, show carryBits ≤ j by omega, show j - carryBits < w by omega]
    · simp [hlow, hhigh, show ¬j - carryBits < w by omega]

theorem Written.combined_lt (h : Written bits output carry carryBits n) {value w : Nat}
    (hvalue : ∀ j, value.testBit j = (decide (j < w) && bits (n + j))) :
    carry ||| value <<< carryBits < 256 ^ ((carryBits + w + 7) / 8) := by
  rw [show 256 = 2 ^ 8 from rfl, ← Nat.pow_mul]
  apply Nat.lt_pow_two_of_testBit
  intro j hj
  rw [h.combined hvalue, decide_eq_false (by omega), Bool.false_and]

/-- **Pushing a value** and taking the whole bytes off. -/
theorem Written.push (h : Written bits output carry carryBits n) {value w : Nat}
    (hvalue : ∀ j, value.testBit j = (decide (j < w) && bits (n + j))) :
    Written bits
      (output ++ (littleEndian ((carryBits + w + 7) / 8) (carry ||| value <<< carryBits)).take
        ((carryBits + w) / 8))
      ((carry ||| value <<< carryBits) >>> ((carryBits + w) / 8 * 8))
      (carryBits + w - (carryBits + w) / 8 * 8) (n + w) := by
  have hcount := h.count
  have hlength : ((littleEndian ((carryBits + w + 7) / 8) (carry ||| value <<< carryBits)).take
      ((carryBits + w) / 8)).length = (carryBits + w) / 8 := by
    rw [List.length_take, length_littleEndian]
    omega
  refine ⟨by omega, ?_, fun i hi => ?_, fun j => ?_⟩
  · rw [List.length_append, hlength]
    omega
  · rw [List.length_append, hlength] at hi
    by_cases hold : i < 8 * output.length
    · rw [← h.bytes i hold]
      unfold bit
      rw [byte_append, if_pos (by omega)]
    · have hnew : bit (byte (output ++ (littleEndian ((carryBits + w + 7) / 8)
          (carry ||| value <<< carryBits)).take ((carryBits + w) / 8))) i
          = bit (byte (littleEndian ((carryBits + w + 7) / 8) (carry ||| value <<< carryBits)))
            (i - 8 * output.length) := by
        unfold bit
        rw [byte_append, if_neg (by omega), byte_take, if_pos (by omega),
          show i / 8 - output.length = (i - 8 * output.length) / 8 by omega,
          show i % 8 = (i - 8 * output.length) % 8 by omega]
      rw [hnew, bit_littleEndian (h.combined_lt hvalue), h.combined hvalue,
        decide_eq_true (by omega), Bool.true_and]
      congr 1
      omega
  · rw [Nat.testBit_shiftRight, h.combined hvalue, List.length_append, hlength]
    by_cases hj : j < carryBits + w - (carryBits + w) / 8 * 8
    · rw [decide_eq_true (by omega), decide_eq_true hj]
      congr 2
      omega
    · rw [decide_eq_false (by omega), decide_eq_false hj]
      rfl

theorem Written.bit_flush (h : Written bits output carry carryBits n) (i : Nat) :
    bit (byte (output ++ [UInt8.ofNat (carry &&& 0xff)])) i = (decide (i < n) && bits i) := by
  have hcount := h.count
  have hlt := h.carryBits_lt
  by_cases hold : i < 8 * output.length
  · rw [decide_eq_true (by omega), Bool.true_and, ← h.bytes i hold]
    unfold bit
    rw [byte_append, if_pos (by omega)]
  · by_cases hlast : i < 8 * (output.length + 1)
    · have hlast : bit (byte (output ++ [UInt8.ofNat (carry &&& 0xff)])) i
          = carry.testBit (i - 8 * output.length) := by
        unfold bit
        rw [byte_append, if_neg (by omega), show i / 8 - output.length = 0 by omega,
          show i % 8 = i - 8 * output.length by omega]
        change (UInt8.ofNat (carry &&& 0xff)).toNat.testBit _ = _
        rw [testBit_ofNat, decide_eq_true (by omega), Bool.true_and, Nat.testBit_and,
          show 0xff = 2 ^ 8 - 1 from rfl, Nat.testBit_two_pow_sub_one, decide_eq_true (by omega),
          Bool.and_true]
      rw [hlast, h.carry, show 8 * output.length + (i - 8 * output.length) = i by omega]
      congr 1
      rw [decide_eq_decide]
      omega
    · rw [decide_eq_false (by omega), Bool.false_and]
      unfold bit
      rw [byte_of_le (by rw [List.length_append, List.length_singleton]; omega)]
      exact Nat.zero_testBit _

end Written

end TyloQuant.Lib
