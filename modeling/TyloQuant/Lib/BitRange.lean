import Mathlib.Data.List.GetD
import TyloQuant.Lib.Bits
import TyloQuant.Lib.Bytes

/-!
# Ranges of a byte string

A range of bytes is cut out as it is.  A range of bits is moved to the start of a byte, and the rest
of its last byte is zero: so the bytes of a range are determined by its bits alone, wherever they
come from.
-/

namespace TyloQuant.Lib

open ByteFile Bits Bytes

/-! ### Bytes -/

/-- The bytes of a range. -/
def window (s : Nat → UInt8) (offset size : Nat) : List UInt8 :=
  (List.range size).map fun i => s (offset + i)

section Window

variable {s t : Nat → UInt8} {offset size i : Nat}

@[simp] theorem length_window : (window s offset size).length = size := by
  simp [window]

theorem byte_window (h : i < size) : byte (window s offset size) i = s (offset + i) := by
  unfold byte window
  rw [List.getD_eq_getElem _ _ (by simpa using h)]
  simp

theorem window_congr {offset' : Nat} (h : ∀ i < size, s (offset + i) = t (offset' + i)) :
    window s offset size = window t offset' size := by
  apply List.map_congr_left
  intro i hi
  exact h i (List.mem_range.mp hi)

theorem window_eq {xs : List UInt8} (hlength : xs.length = size)
    (h : ∀ i < size, s (offset + i) = byte xs i) : window s offset size = xs := by
  apply ext (by simpa using hlength.symm)
  intro i
  by_cases hi : i < size
  · rw [byte_window hi, h i hi]
  · rw [byte_of_le (by simpa using Nat.le_of_not_lt hi), byte_of_le (by omega)]

end Window

/-- The number in some bytes, the lowest byte first. -/
def readLE (s : Nat → UInt8) (offset size : Nat) : Nat := ofLittleEndian (window s offset size)

theorem readLE_congr {s t : Nat → UInt8} {offset size : Nat}
    (h : ∀ i < size, s (offset + i) = t (offset + i)) :
    readLE s offset size = readLE t offset size := by
  rw [readLE, window_congr h, readLE]

theorem readLE_littleEndian {s : Nat → UInt8} {offset size n : Nat} (hn : n < 256 ^ size)
    (h : ∀ i < size, s (offset + i) = byte (littleEndian size n) i) : readLE s offset size = n := by
  rw [readLE, window_eq (length_littleEndian size n) h, ofLittleEndian_littleEndian hn]

/-! ### Bits -/

/-- The bits of a range, from the start of a byte on. -/
def bitRange (s : Nat → UInt8) (start count : Nat) : List UInt8 :=
  (List.range ((count + 7) / 8)).map fun k =>
    UInt8.ofNat (field s (start + 8 * k) (min 8 (count - 8 * k)))

section BitRange

variable {s t : Nat → UInt8} {start count : Nat}

@[simp] theorem length_bitRange : (bitRange s start count).length = (count + 7) / 8 := by
  simp [bitRange]

theorem bit_bitRange (i : Nat) :
    bit (byte (bitRange s start count)) i = (decide (i < count) && bit s (start + i)) := by
  unfold bit
  by_cases hi : i / 8 < (count + 7) / 8
  · have hbyte : byte (bitRange s start count) (i / 8)
        = UInt8.ofNat (field s (start + 8 * (i / 8)) (min 8 (count - 8 * (i / 8)))) := by
      unfold byte bitRange
      rw [List.getD_eq_getElem _ _ (by simpa using hi)]
      simp
    rw [hbyte, testBit_ofNat, testBit_field, show start + 8 * (i / 8) + i % 8 = start + i by omega]
    have hmod : i % 8 < 8 := Nat.mod_lt _ (by omega)
    by_cases hlt : i < count
    · simp [bit, hmod, hlt, show i % 8 < count - 8 * (i / 8) by omega]
    · simp [hlt, show ¬i % 8 < count - 8 * (i / 8) by omega]
  · rw [byte_of_le (by simpa using Nat.le_of_not_lt hi)]
    simp [show ¬i < count by omega]

/-- Only the bits matter. -/
theorem bitRange_eq {xs : List UInt8} (hlength : xs.length = (count + 7) / 8)
    (h : ∀ i < 8 * xs.length, bit (byte xs) i = (decide (i < count) && bit s (start + i))) :
    xs = bitRange s start count := by
  apply ext (by simpa using hlength)
  intro k
  by_cases hk : k < xs.length
  · apply byte_eq_of_bits
    intro j hj
    rw [h _ (by omega), bit_bitRange]
  · rw [byte_of_le (by omega), byte_of_le (by simp only [length_bitRange]; omega)]

theorem bitRange_congr {start' : Nat} (h : ∀ i < count, bit s (start + i) = bit t (start' + i)) :
    bitRange s start count = bitRange t start' count := by
  apply bitRange_eq (by simp)
  intro i _
  rw [bit_bitRange]
  by_cases hi : i < count
  · rw [h i hi]
  · simp [hi]

end BitRange

theorem mask_eq_zero {b : UInt8} {used : Nat} (hused : used ≤ 8) :
    b.toNat &&& (255 - (1 <<< used - 1)) = 0 ↔ ∀ j < 8, used ≤ j → b.toNat.testBit j = false := by
  have hmask : ∀ used ≤ 8, 255 - (1 <<< used - 1) = 2 ^ used * (2 ^ (8 - used) - 1) := by decide
  rw [hmask used hused]
  constructor
  · intro h j hj hle
    have hbit := congrArg (·.testBit j) h
    simpa [Nat.testBit_and, Nat.testBit_two_pow_mul, Nat.testBit_two_pow_sub_one, hle,
      show j - used < 8 - used by omega] using hbit
  · intro h
    apply Nat.eq_of_testBit_eq
    intro j
    rw [Nat.testBit_and, Nat.testBit_two_pow_mul, Nat.testBit_two_pow_sub_one, Nat.zero_testBit]
    by_cases hj : j < 8
    · by_cases hle : used ≤ j
      · simp [h j hj hle]
      · simp [hle]
    · simp [show ¬j - used < 8 - used by omega]

theorem byte_eq_zero {b : UInt8} : b = 0 ↔ ∀ j < 8, b.toNat.testBit j = false := by
  constructor
  · rintro rfl j _
    exact Nat.zero_testBit j
  · intro h
    apply toNat_eq_of_bits
    intro j hj
    rw [h j hj]
    exact (Nat.zero_testBit j).symm

end TyloQuant.Lib
