import Mathlib.Data.Nat.Bitwise
import TyloQuant.Lib.ByteFile

/-!
# Bits of a byte string

A byte string is looked at as the sequence of its bits, the lowest bit of a byte first, and a
packed number is a run of them.  Bytes are given by a function of the offset: of a list it is
`ByteFile.byte`, of a memory its contents.  Each way in which a program reads or writes packed
numbers has one lemma here about a single bit; what a program leaves is then a matter of which bit
comes from where.
-/

namespace TyloQuant.Lib.Bits

open ByteFile

/-! ### Bits and fields -/

/-- Bit `i` of a byte string. -/
def bit (s : Nat → UInt8) (i : Nat) : Bool := (s (i / 8)).toNat.testBit (i % 8)

/-- The number in `w` bits from bit `p` on. -/
def field (s : Nat → UInt8) (p w : Nat) : Nat := Nat.ofBits fun j : Fin w => bit s (p + j)

theorem toNat_eq_of_bits {a b : UInt8} (h : ∀ j < 8, a.toNat.testBit j = b.toNat.testBit j) :
    a = b := by
  apply UInt8.toNat_inj.mp
  apply Nat.eq_of_testBit_eq
  intro j
  rcases Nat.lt_or_ge j 8 with hj | hj
  · exact h j hj
  · have hle : 2 ^ 8 ≤ 2 ^ j := Nat.pow_le_pow_right (by omega) hj
    have ha : a.toNat < 2 ^ 8 := a.toNat_lt
    have hb : b.toNat < 2 ^ 8 := b.toNat_lt
    rw [Nat.testBit_lt_two_pow (by omega), Nat.testBit_lt_two_pow (by omega)]

theorem testBit_toNat (a : UInt8) (j : Nat) :
    a.toNat.testBit j = (decide (j < 8) && a.toNat.testBit j) := by
  by_cases hj : j < 8
  · simp [hj]
  · have hle : 2 ^ 8 ≤ 2 ^ j := Nat.pow_le_pow_right (by omega) (by omega)
    have ha : a.toNat < 2 ^ 8 := a.toNat_lt
    rw [Nat.testBit_lt_two_pow (by omega), Bool.and_false]

theorem testBit_ofNat (n j : Nat) :
    (UInt8.ofNat n).toNat.testBit j = (decide (j < 8) && n.testBit j) := by
  rw [UInt8.toNat_ofNat', Nat.testBit_mod_two_pow]

theorem byte_eq_of_bits {s t : Nat → UInt8} {k l : Nat}
    (h : ∀ j < 8, bit s (8 * k + j) = bit t (8 * l + j)) : s k = t l := by
  apply toNat_eq_of_bits
  intro j hj
  have hbit := h j hj
  unfold bit at hbit
  rwa [show (8 * k + j) / 8 = k by omega, show (8 * k + j) % 8 = j by omega,
    show (8 * l + j) / 8 = l by omega, show (8 * l + j) % 8 = j by omega] at hbit

theorem testBit_byte (s : Nat → UInt8) (k j : Nat) :
    (s k).toNat.testBit j = (decide (j < 8) && bit s (8 * k + j)) := by
  rw [testBit_toNat]
  by_cases hj : j < 8
  · unfold bit
    rw [show (8 * k + j) / 8 = k by omega, show (8 * k + j) % 8 = j by omega]
  · simp [hj]

theorem testBit_field (s : Nat → UInt8) (p w j : Nat) :
    (field s p w).testBit j = (decide (j < w) && bit s (p + j)) := by
  unfold field
  rw [Nat.testBit_ofBits]
  by_cases hj : j < w <;> simp [hj]

theorem field_lt (s : Nat → UInt8) (p w : Nat) : field s p w < 2 ^ w := Nat.ofBits_lt_two_pow _

theorem field_eq_iff {s t : Nat → UInt8} {p q w : Nat} :
    field s p w = field t q w ↔ ∀ j < w, bit s (p + j) = bit t (q + j) := by
  constructor
  · intro h j hj
    have hbit := congrArg (·.testBit j) h
    simpa [testBit_field, hj] using hbit
  · intro h
    apply Nat.eq_of_testBit_eq
    intro j
    rw [testBit_field, testBit_field]
    by_cases hj : j < w
    · rw [h j hj]
    · simp [hj]

theorem field_eq_of_testBit {s : Nat → UInt8} {p w n : Nat} (hn : n < 2 ^ w)
    (h : ∀ j < w, bit s (p + j) = n.testBit j) : field s p w = n := by
  apply Nat.eq_of_testBit_eq
  intro j
  rw [testBit_field]
  by_cases hj : j < w
  · simp [hj, h j hj]
  · have hle : 2 ^ w ≤ 2 ^ j := Nat.pow_le_pow_right (by omega) (by omega)
    rw [Nat.testBit_lt_two_pow (by omega)]
    simp [hj]

theorem bit_add (s : Nat → UInt8) (start i : Nat) :
    bit (fun k => s (start + k)) i = bit s (8 * start + i) := by
  unfold bit
  rw [show (8 * start + i) / 8 = start + i / 8 by omega, show (8 * start + i) % 8 = i % 8 by omega]

theorem field_add (s : Nat → UInt8) (start p w : Nat) :
    field (fun k => s (start + k)) p w = field s (8 * start + p) w := by
  rw [field_eq_iff]
  intro j _
  rw [bit_add, Nat.add_assoc]

theorem bit_zero (i : Nat) : bit (fun _ => 0) i = false := by
  unfold bit
  exact Nat.zero_testBit _

/-! ### Reading -/

theorem testBit_pair (s : Nat → UInt8) (k j : Nat) :
    ((s k).toNat ||| (s (k + 1)).toNat <<< 8).testBit j
      = (decide (j < 16) && bit s (8 * k + j)) := by
  rw [Nat.testBit_or, Nat.testBit_shiftLeft, testBit_byte, testBit_byte]
  by_cases hlow : j < 8
  · simp [hlow, show ¬8 ≤ j by omega, show j < 16 by omega]
  · by_cases hhigh : j < 16
    · simp [hlow, hhigh, show 8 ≤ j by omega, show j - 8 < 8 by omega,
        show 8 * (k + 1) + (j - 8) = 8 * k + j by omega]
    · simp [hlow, hhigh, show ¬(j - 8 < 8) by omega]

/-- A field of at most a byte and a bit's offset lies in two bytes. -/
theorem pair_shiftRight (s : Nat → UInt8) {p w : Nat} (hw : p % 8 + w ≤ 16) :
    (((s (p / 8)).toNat ||| (s (p / 8 + 1)).toNat <<< 8) >>> (p % 8)) % 2 ^ w = field s p w := by
  apply Nat.eq_of_testBit_eq
  intro j
  rw [Nat.testBit_mod_two_pow, Nat.testBit_shiftRight, testBit_pair, testBit_field]
  by_cases hj : j < w
  · simp [hj, show p % 8 + j < 16 by omega, show 8 * (p / 8) + (p % 8 + j) = p + j by omega]
  · simp [hj]

/-- One byte is enough for a field that does not cross its end. -/
theorem byte_shiftRight (s : Nat → UInt8) {p w : Nat} (hw : p % 8 + w ≤ 8) :
    ((s (p / 8)).toNat >>> (p % 8)) % 2 ^ w = field s p w := by
  apply Nat.eq_of_testBit_eq
  intro j
  rw [Nat.testBit_mod_two_pow, Nat.testBit_shiftRight, testBit_byte, testBit_field]
  by_cases hj : j < w
  · simp [hj, show p % 8 + j < 8 by omega, show 8 * (p / 8) + (p % 8 + j) = p + j by omega]
  · simp [hj]

theorem testBit_triple (s : Nat → UInt8) (k j : Nat) :
    ((s k).toNat ||| (s (k + 1)).toNat <<< 8 ||| (s (k + 2)).toNat <<< 16).testBit j
      = (decide (j < 24) && bit s (8 * k + j)) := by
  rw [Nat.testBit_or, testBit_pair, Nat.testBit_shiftLeft, testBit_byte]
  by_cases hlow : j < 16
  · simp [hlow, show ¬16 ≤ j by omega, show j < 24 by omega]
  · by_cases hhigh : j < 24
    · simp [hlow, hhigh, show 16 ≤ j by omega, show j - 16 < 8 by omega,
        show 8 * (k + 2) + (j - 16) = 8 * k + j by omega]
    · simp [hlow, hhigh, show ¬(j - 16 < 8) by omega]

theorem triple_shiftRight (s : Nat → UInt8) (p : Nat) :
    (((s (p / 8)).toNat ||| (s (p / 8 + 1)).toNat <<< 8 ||| (s (p / 8 + 2)).toNat <<< 16)
      >>> (p % 8)) % 2 ^ 16 = field s p 16 := by
  apply Nat.eq_of_testBit_eq
  intro j
  rw [Nat.testBit_mod_two_pow, Nat.testBit_shiftRight, testBit_triple, testBit_field]
  by_cases hj : j < 16
  · simp [hj, show p % 8 + j < 24 by omega, show 8 * (p / 8) + (p % 8 + j) = p + j by omega]
  · simp [hj]

theorem field_congr {s t : Nat → UInt8} {p w : Nat}
    (h : ∀ k, p / 8 ≤ k → 8 * k < p + w → s k = t k) : field s p w = field t p w := by
  rw [field_eq_iff]
  intro j hj
  unfold bit
  rw [h _ (by omega) (by omega)]

/-! ### Writing -/

/-- Sets some bits of one byte. -/
def orByte (s : Nat → UInt8) (k : Nat) (b : UInt8) : Nat → UInt8 :=
  fun i => if i = k then s i ||| b else s i

theorem bit_orByte (s : Nat → UInt8) (k : Nat) (b : UInt8) (i : Nat) :
    bit (orByte s k b) i = (bit s i || (decide (i / 8 = k) && b.toNat.testBit (i % 8))) := by
  unfold bit orByte
  by_cases h : i / 8 = k
  · simp [h, Nat.testBit_or]
  · simp [h]

/-- A number of `w` bits set at bit `p`, within one byte. -/
theorem bit_orByte_field (s : Nat → UInt8) {p w n : Nat} (hw : p % 8 + w ≤ 8) (hn : n < 2 ^ w)
    (i : Nat) : bit (orByte s (p / 8) (UInt8.ofNat (n <<< (p % 8)))) i
      = (bit s i || (decide (p ≤ i) && n.testBit (i - p))) := by
  rw [bit_orByte, testBit_ofNat, Nat.testBit_shiftLeft]
  congr 1
  have hmod : i % 8 < 8 := Nat.mod_lt _ (by omega)
  by_cases hle : p ≤ i
  · by_cases hlt : i < p + w
    · simp [hle, hmod, show i / 8 = p / 8 by omega, show p % 8 ≤ i % 8 by omega,
        show i % 8 - p % 8 = i - p by omega]
    · have hpow : 2 ^ w ≤ 2 ^ (i - p) := Nat.pow_le_pow_right (by omega) (by omega)
      have hclear : n.testBit (i - p) = false := Nat.testBit_lt_two_pow (by omega)
      rw [hclear, Bool.and_false]
      by_cases hbyte : i / 8 = p / 8
      · rw [show i % 8 - p % 8 = i - p by omega, hclear]
        simp
      · simp [hbyte]
  · by_cases hbyte : i / 8 = p / 8
    · simp [hle, show ¬p % 8 ≤ i % 8 by omega]
    · simp [hle, hbyte]

/-- A number of `w` bits set at bit `p`, in two bytes. -/
theorem bit_orPair_field (s : Nat → UInt8) {p w n : Nat} (hw : p % 8 + w ≤ 16) (hn : n < 2 ^ w)
    (i : Nat) :
    bit (orByte (orByte s (p / 8) (UInt8.ofNat (n <<< (p % 8)))) (p / 8 + 1)
        (UInt8.ofNat (n <<< (p % 8) >>> 8))) i
      = (bit s i || (decide (p ≤ i) && n.testBit (i - p))) := by
  rw [bit_orByte, bit_orByte, testBit_ofNat, testBit_ofNat, Nat.testBit_shiftRight,
    Nat.testBit_shiftLeft, Nat.testBit_shiftLeft, Bool.or_assoc]
  congr 1
  have hmod : i % 8 < 8 := Nat.mod_lt _ (by omega)
  by_cases hlow : i / 8 = p / 8
  · by_cases hle : p ≤ i
    · simp [hlow, hle, hmod, show p % 8 ≤ i % 8 by omega, show i % 8 - p % 8 = i - p by omega]
    · simp [hlow, hle, show ¬p % 8 ≤ i % 8 by omega]
  · by_cases hhigh : i / 8 = p / 8 + 1
    · simp [hhigh, hmod, show p ≤ i by omega, show p % 8 ≤ 8 + i % 8 by omega,
        show 8 + i % 8 - p % 8 = i - p by omega]
    · by_cases hle : p ≤ i
      · have hpow : 2 ^ w ≤ 2 ^ (i - p) := Nat.pow_le_pow_right (by omega) (by omega)
        have hclear : n.testBit (i - p) = false := Nat.testBit_lt_two_pow (by omega)
        simp [hlow, hhigh, hclear]
      · simp [hlow, hhigh, hle]

/-- Overwrites `count` bytes from offset `k` on. -/
def put (s : Nat → UInt8) (k count : Nat) (t : Nat → UInt8) : Nat → UInt8 :=
  fun i => if k ≤ i ∧ i < k + count then t (i - k) else s i

theorem bit_put (s : Nat → UInt8) (k count : Nat) (t : Nat → UInt8) (i : Nat) :
    bit (put s k count t) i
      = if 8 * k ≤ i ∧ i < 8 * (k + count) then bit t (i - 8 * k) else bit s i := by
  unfold bit put
  by_cases h : 8 * k ≤ i ∧ i < 8 * (k + count)
  · rw [if_pos h, if_pos (by omega), show (i - 8 * k) / 8 = i / 8 - k by omega,
      show (i - 8 * k) % 8 = i % 8 by omega]
  · rw [if_neg h, if_neg (by omega)]

/-- The bytes of a number, the lowest first. -/
def word (n : Nat) : Nat → UInt8 := fun k => UInt8.ofNat (n >>> (8 * k))

theorem bit_word (n i : Nat) : bit (word n) i = n.testBit i := by
  unfold bit word
  rw [testBit_ofNat, Nat.testBit_shiftRight, show 8 * (i / 8) + i % 8 = i by omega]
  simp [Nat.mod_lt]

/-! ### Packed streams -/

theorem div_mod_of_mem {w n i : Nat} (hle : w * n ≤ i) (hlt : i < w * n + w) :
    i / w = n ∧ i % w = i - w * n := by
  have hw : 0 < w := by omega
  have hdiv : i / w = n := by
    rw [Nat.div_eq_iff hw, Nat.mul_comm n w]
    omega
  refine ⟨hdiv, ?_⟩
  rw [Nat.mod_eq_sub, hdiv]

theorem place_div_mod {n b j : Nat} (hj : j < b) : (n * b + j) / b = n ∧ (n * b + j) % b = j := by
  obtain ⟨hdiv, hmod⟩ := div_mod_of_mem (w := b) (n := n) (i := n * b + j)
    (by rw [Nat.mul_comm]; omega) (by rw [Nat.mul_comm]; omega)
  refine ⟨hdiv, hmod.trans ?_⟩
  rw [Nat.mul_comm b, Nat.add_sub_cancel_left]

/-- A memory of `bytes` bytes in which `n` numbers of `w` bits follow one another and the rest is
    zero; what lies beyond is as in `old`. -/
structure Filled (old s : Nat → UInt8) (bytes w n : Nat) (value : Nat → Nat) : Prop where
  bits : ∀ i < 8 * bytes, bit s i = (decide (i < w * n) && (value (i / w)).testBit (i % w))
  frame : ∀ k, bytes ≤ k → s k = old k

section Filled

variable {old s s' : Nat → UInt8} {bytes w n m : Nat} {value : Nat → Nat}

theorem filled_zeros (old : Nat → UInt8) (bytes w : Nat) (value : Nat → Nat) :
    Filled old (put old 0 bytes fun _ => 0) bytes w 0 value := by
  refine ⟨fun i hi => ?_, fun k hk => ?_⟩
  · rw [bit_put, if_pos (by omega), bit_zero]
    simp
  · unfold put
    rw [if_neg (by omega)]

/-- The next numbers are written, in whatever way. -/
theorem Filled.extend (h : Filled old s bytes w n value) (hroom : w * (n + m) ≤ 8 * bytes)
    (hbits : ∀ i, bit s' i = if w * n ≤ i ∧ i < w * (n + m) then
      (value (i / w)).testBit (i % w) else bit s i) : Filled old s' bytes w (n + m) value := by
  have hadd : w * (n + m) = w * n + w * m := Nat.mul_add w n m
  refine ⟨fun i hi => ?_, fun k hk => ?_⟩
  · rw [hbits i]
    by_cases hlow : i < w * n
    · rw [if_neg (by omega), h.bits i hi]
      simp [hlow, show i < w * (n + m) by omega]
    · by_cases hhigh : i < w * (n + m)
      · rw [if_pos (by omega)]
        simp [hhigh]
      · rw [if_neg (by omega), h.bits i hi]
        simp [hlow, hhigh]
  · rw [← h.frame k hk]
    apply byte_eq_of_bits
    intro j _
    rw [hbits, if_neg (by omega)]

/-- The next number is set where there was zero. -/
theorem Filled.set (h : Filled old s bytes w n value) (hroom : w * (n + 1) ≤ 8 * bytes)
    (hvalue : value n < 2 ^ w)
    (hbits : ∀ i, bit s' i = (bit s i || (decide (w * n ≤ i) && (value n).testBit (i - w * n)))) :
    Filled old s' bytes w (n + 1) value := by
  have hadd : w * (n + 1) = w * n + w := Nat.mul_succ w n
  apply h.extend hroom
  intro i
  rw [hbits]
  by_cases hin : w * n ≤ i ∧ i < w * (n + 1)
  · obtain ⟨hdiv, hmod⟩ := div_mod_of_mem hin.1 (by omega)
    rw [if_pos hin, h.bits i (by omega), hdiv, hmod]
    simp [hin.1, show ¬i < w * n by omega]
  · rw [if_neg hin]
    by_cases hle : w * n ≤ i
    · have hpow : 2 ^ w ≤ 2 ^ (i - w * n) := Nat.pow_le_pow_right (by omega) (by omega)
      rw [Nat.testBit_lt_two_pow (by omega)]
      simp
    · simp [hle]

theorem Filled.field_eq (h : Filled old s bytes w n value) {v : Nat} (hv : v < n)
    (hroom : w * n ≤ 8 * bytes) (hvalue : value v < 2 ^ w) : field s (w * v) w = value v := by
  apply field_eq_of_testBit hvalue
  intro j hj
  have hmul : w * (v + 1) ≤ w * n := Nat.mul_le_mul_left w hv
  rw [Nat.mul_succ] at hmul
  have hdiv : (w * v + j) / w = v ∧ (w * v + j) % w = j := by
    simpa using div_mod_of_mem (Nat.le_add_right (w * v) j) (by omega)
  rw [h.bits _ (by omega), hdiv.1, hdiv.2]
  simp [show w * v + j < w * n by omega]

end Filled

end TyloQuant.Lib.Bits
