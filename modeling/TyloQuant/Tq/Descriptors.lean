import TyloQuant.Tq.Tensor

/-!
# The bits of a descriptor

Which bits of a descriptor its width, its anchor and its boundary state are, and which of them an
offset takes the place of.
-/

namespace TyloQuant.Tq

open Lib Bits

variable {mask n : Nat}

theorem testBit_and_mask (hmask : mask = 2 ^ n - 1) (x j : Nat) :
    (x &&& mask).testBit j = (decide (j < n) && x.testBit j) := by
  rw [hmask, Nat.testBit_and, Nat.testBit_two_pow_sub_one, Bool.and_comm]

theorem testBit_placed (hmask : mask = 2 ^ n - 1) (x a b i : Nat) :
    ((x >>> b &&& mask) <<< a).testBit i
      = (decide (a ≤ i ∧ i < a + n) && x.testBit (b + (i - a))) := by
  rw [Nat.testBit_shiftLeft, testBit_and_mask hmask, Nat.testBit_shiftRight, ← Bool.and_assoc]
  congr 1
  by_cases hle : a ≤ i
  · simp [hle, show i - a < n ↔ i < a + n by omega]
  · simp [hle]

theorem testBit_tailSeed (d j : Nat) : (tailSeed d).testBit j =
    (if j < 5 then d.testBit (35 + j) else if j < 13 then d.testBit (51 + j)
      else if j = 13 then d.testBit 0 else decide (j = 14) && d.testBit 31) := by
  have h0 := testBit_placed (n := 5) rfl d 0 35 j
  have h1 := testBit_placed (n := 8) rfl d 5 56 j
  have h2 := testBit_placed (n := 1) rfl d 13 0 j
  have h3 := testBit_placed (n := 1) rfl d 14 31 j
  rw [Nat.shiftLeft_zero] at h0
  rw [Nat.shiftRight_zero] at h2
  change ((((d >>> 35 &&& (2 ^ 5 - 1)) ||| (d >>> 56 &&& (2 ^ 8 - 1)) <<< 5)
    ||| (d &&& (2 ^ 1 - 1)) <<< 13) ||| (d >>> 31 &&& (2 ^ 1 - 1)) <<< 14).testBit j = _
  rw [Nat.testBit_or, Nat.testBit_or, Nat.testBit_or, h0, h1, h2, h3]
  by_cases h5 : j < 5
  · simp [h5, show ¬5 ≤ j by omega, show ¬13 ≤ j by omega, show ¬14 ≤ j by omega]
  · by_cases h13 : j < 13
    · simp [h5, h13, show 5 ≤ j by omega, show ¬13 ≤ j by omega, show ¬14 ≤ j by omega,
        show 56 + (j - 5) = 51 + j by omega]
    · by_cases heq : j = 13
      · simp [heq]
      · by_cases heq' : j = 14
        · simp [heq']
        · simp [h5, h13, heq, heq', show ¬j < 14 by omega, show ¬j < 15 by omega]

variable {a b : Nat}

theorem bitsOf_congr (h : ∀ i, 32 ≤ i → i < 35 → a.testBit i = b.testBit i) :
    bitsOf a = bitsOf b := by
  unfold bitsOf
  congr 1
  apply Nat.eq_of_testBit_eq
  intro j
  rw [testBit_and_mask (show 7 = 2 ^ 3 - 1 from rfl), testBit_and_mask (show 7 = 2 ^ 3 - 1 from rfl),
    Nat.testBit_shiftRight, Nat.testBit_shiftRight]
  by_cases hj : j < 3
  · rw [h (32 + j) (by omega) (by omega)]
  · simp [hj]

theorem anchorOf_congr (h : ∀ i, 40 ≤ i → i < 56 → a.testBit i = b.testBit i) :
    anchorOf a = anchorOf b := by
  unfold anchorOf
  apply Nat.eq_of_testBit_eq
  intro j
  rw [Nat.testBit_mod_two_pow, Nat.testBit_mod_two_pow, Nat.testBit_shiftRight,
    Nat.testBit_shiftRight]
  by_cases hj : j < 16
  · rw [h (40 + j) (by omega) (by omega)]
  · simp [hj]

theorem tailSeed_congr
    (h : ∀ i, i = 0 ∨ i = 31 ∨ (35 ≤ i ∧ i < 40) ∨ (56 ≤ i ∧ i < 64) → a.testBit i = b.testBit i) :
    tailSeed a = tailSeed b := by
  apply Nat.eq_of_testBit_eq
  intro j
  rw [testBit_tailSeed, testBit_tailSeed, h 0 (by omega), h 31 (by omega)]
  by_cases h5 : j < 5
  · rw [if_pos h5, if_pos h5, h (35 + j) (by omega)]
  · by_cases h13 : j < 13
    · rw [if_neg h5, if_neg h5, if_pos h13, if_pos h13, h (51 + j) (by omega)]
    · rw [if_neg h5, if_neg h5, if_neg h13, if_neg h13]

theorem testBit_complement (mask i : Nat) :
    (complement mask).testBit i = (decide (i < 64) ^^ mask.testBit i) := by
  have hones : (0xffffffffffffffff : Nat) = 2 ^ 64 - 1 := by decide
  rw [complement, hones, Nat.testBit_xor, Nat.testBit_two_pow_sub_one]

/-! ### Offsets -/

namespace Components

variable (t : Components)

def offsetMask : UInt64 := if t.compact then 0x7ffffffe else 0xffffffff

/-- The bits that an offset takes. -/
def OffsetBit (i : Nat) : Prop := if t.compact then 1 ≤ i ∧ i < 31 else i < 32

instance (i : Nat) : Decidable (t.OffsetBit i) := by
  unfold OffsetBit
  infer_instance

theorem testBit_offsetMask (i : Nat) : t.offsetMask.toNat.testBit i = decide (t.OffsetBit i) := by
  unfold offsetMask OffsetBit
  by_cases hcompact : t.compact = true
  · have hmask : (0x7ffffffe : UInt64).toNat = (2 ^ 30 - 1) <<< 1 := by decide
    simp only [hcompact, if_true]
    rw [hmask, Nat.testBit_shiftLeft, Nat.testBit_two_pow_sub_one, ← Bool.decide_and]
    exact decide_eq_decide.mpr (by omega)
  · have hmask : (0xffffffff : UInt64).toNat = 2 ^ 32 - 1 := by decide
    simp only [hcompact, if_false, Bool.false_eq_true]
    rw [hmask, Nat.testBit_two_pow_sub_one]

theorem toNat_not_offsetMask : (~~~t.offsetMask).toNat = complement t.offsetMask.toNat := by
  unfold offsetMask
  cases t.compact with
  | true => rfl
  | false => rfl

/-- An offset that fits a descriptor. -/
def Places (off : Nat) : Prop := if t.compact then off < 2 ^ 31 ∧ off % 2 = 0 else off < 2 ^ 32

variable {t} {d : UInt64} {off : Nat} {i : Nat}

theorem Places.offsetBit (h : t.Places off) (hi : off.testBit i = true) : t.OffsetBit i := by
  have hlt (n : Nat) (hn : off < 2 ^ n) : i < n := by
    by_contra hge
    have hpow : 2 ^ n ≤ 2 ^ i := Nat.pow_le_pow_right (by omega) (by omega)
    rw [Nat.testBit_lt_two_pow (by omega)] at hi
    cases hi
  unfold Places at h
  unfold OffsetBit
  cases hcompact : t.compact with
  | true =>
    rw [hcompact] at h
    obtain ⟨hbound, heven⟩ := h
    refine ⟨Nat.pos_of_ne_zero fun hzero => ?_, hlt 31 hbound⟩
    rw [hzero, Nat.testBit_zero, heven] at hi
    cases hi
  | false =>
    rw [hcompact] at h
    exact hlt 32 h

theorem Places.lt (h : t.Places off) : off < 2 ^ 64 := by
  unfold Places at h
  split at h <;> omega

/-- A descriptor with another offset. -/
def place (t : Components) (d : UInt64) (off : Nat) : UInt64 :=
  (d &&& ~~~t.offsetMask) ||| UInt64.ofNat off

theorem testBit_place (h : t.Places off) (i : Nat) : (t.place d off).toNat.testBit i
    = if t.OffsetBit i then off.testBit i else d.toNat.testBit i := by
  rw [place, UInt64.toNat_or, UInt64.toNat_and, toNat_not_offsetMask,
    UInt64.toNat_ofNat_of_lt' h.lt, Nat.testBit_or, Nat.testBit_and, testBit_complement,
    testBit_offsetMask]
  by_cases hbit : t.OffsetBit i
  · have hi : i < 64 := by
      unfold OffsetBit at hbit
      split at hbit <;> omega
    simp [hbit, hi]
  · have hclear : off.testBit i = false := by
      by_contra hset
      exact hbit (h.offsetBit (by simpa using hset))
    by_cases hi : i < 64
    · simp [hbit, hi, hclear]
    · have hpow : 2 ^ 64 ≤ 2 ^ i := Nat.pow_le_pow_right (by omega) (by omega)
      have hlt := d.toNat_lt
      have hclear' : d.toNat.testBit i = false := Nat.testBit_lt_two_pow (by omega)
      simp [hbit, hi, hclear, hclear']

theorem testBit_place_of_ge (h : t.Places off) (hi : 32 ≤ i) :
    (t.place d off).toNat.testBit i = d.toNat.testBit i := by
  rw [testBit_place h, if_neg]
  unfold OffsetBit
  split <;> omega

theorem bitsOf_place (h : t.Places off) : bitsOf (t.place d off).toNat = bitsOf d.toNat :=
  bitsOf_congr fun _ hi _ => testBit_place_of_ge h hi

theorem anchorOf_place (h : t.Places off) : anchorOf (t.place d off).toNat = anchorOf d.toNat :=
  anchorOf_congr fun _ hi _ => testBit_place_of_ge h (by omega)

theorem tailSeed_place (h : t.Places off) (hcompact : t.compact = true) :
    tailSeed (t.place d off).toNat = tailSeed d.toNat := by
  apply tailSeed_congr
  intro i hi
  rw [testBit_place h, if_neg]
  unfold OffsetBit
  rw [if_pos hcompact]
  omega

theorem offset_eq_and (d : UInt64) : t.offset d = d.toNat &&& t.offsetMask.toNat := by
  unfold offset offsetMask
  cases t.compact with
  | true => rfl
  | false => rfl

theorem offset_place (h : t.Places off) : t.offset (t.place d off) = off := by
  rw [offset_eq_and]
  apply Nat.eq_of_testBit_eq
  intro i
  rw [Nat.testBit_and, testBit_offsetMask, testBit_place h]
  by_cases hbit : t.OffsetBit i
  · simp [hbit]
  · have hclear : off.testBit i = false := by
      by_contra hset
      exact hbit (h.offsetBit (by simpa using hset))
    simp [hbit, hclear]

end Components

end TyloQuant.Tq
