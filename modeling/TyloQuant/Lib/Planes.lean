import Mathlib.Logic.Function.Basic
import TyloQuant.Lib.Bits

/-!
# Planes of a memory

A memory is laid out as planes that are apart, each for packed numbers of a width of its own.  A
program that fills the planes side by side writes the next numbers of one plane at a time, and
leaves the other planes as they were.
-/

namespace TyloQuant.Lib

open Bits

universe u

/-- Planes of a memory: where each starts, its bytes, and the bits of its numbers. -/
structure Planes (ι : Type u) where
  start : ι → Nat
  bytes : ι → Nat
  width : ι → Nat
  apart : ∀ p q, p ≠ q → start p + bytes p ≤ start q ∨ start q + bytes q ≤ start p

namespace Planes

variable {ι : Type u} (P : Planes ι)

/-- The first numbers of each plane are these values, and the rest of each plane is zero. -/
def Holds (s : Nat → UInt8) (count : ι → Nat) (value : ι → Nat → Nat) : Prop :=
  ∀ p, ∀ i < 8 * P.bytes p, bit s (8 * P.start p + i)
    = (decide (i < P.width p * count p) && (value p (i / P.width p)).testBit (i % P.width p))

variable {P} {s s' : Nat → UInt8} {count : ι → Nat} {value : ι → Nat → Nat} {p : ι} {m v : Nat}

theorem holds_zeros (P : Planes ι) (value : ι → Nat → Nat) :
    P.Holds (fun _ => 0) (fun _ => 0) value := by
  intro p i _
  rw [bit_zero]
  simp

theorem Holds.filled (h : P.Holds s count value) (p : ι) :
    Filled (fun k => s (P.start p + k)) (fun k => s (P.start p + k)) (P.bytes p) (P.width p)
      (count p) (value p) := by
  refine ⟨fun i hi => ?_, fun _ _ => rfl⟩
  rw [bit_add]
  exact h p i hi

theorem Holds.congr (h : P.Holds s count value)
    (hs : ∀ p, ∀ k < P.bytes p, s' (P.start p + k) = s (P.start p + k)) :
    P.Holds s' count value := by
  intro p i hi
  rw [← h p i hi]
  unfold bit
  rw [show (8 * P.start p + i) / 8 = P.start p + i / 8 by omega, hs p (i / 8) (by omega)]

section Writing

variable [DecidableEq ι]

theorem Holds.extend (h : P.Holds s count value)
    (hroom : P.width p * (count p + m) ≤ 8 * P.bytes p)
    (hbits : ∀ i, bit s' i = if 8 * P.start p + P.width p * count p ≤ i ∧
        i < 8 * P.start p + P.width p * (count p + m) then
      (value p ((i - 8 * P.start p) / P.width p)).testBit ((i - 8 * P.start p) % P.width p)
      else bit s i) :
    P.Holds s' (Function.update count p (count p + m)) value := by
  intro q i hi
  by_cases hq : q = p
  · subst hq
    have hextend : Filled (fun k => s (P.start q + k)) (fun k => s' (P.start q + k)) (P.bytes q)
        (P.width q) (count q + m) (value q) := by
      apply (h.filled q).extend hroom
      intro i
      rw [bit_add, bit_add, hbits, Nat.add_sub_cancel_left]
      by_cases hin : P.width q * count q ≤ i ∧ i < P.width q * (count q + m)
      · rw [if_pos hin, if_pos (by omega)]
      · rw [if_neg hin, if_neg (by omega)]
    have hbit := hextend.bits i hi
    rw [bit_add] at hbit
    rw [hbit, Function.update_self]
  · have hapart := P.apart q p hq
    rw [hbits, if_neg (by omega), Function.update_of_ne hq]
    exact h q i hi

theorem Holds.set (h : P.Holds s count value)
    (hroom : P.width p * (count p + 1) ≤ 8 * P.bytes p) (hvalue : value p (count p) < 2 ^ P.width p)
    (hbits : ∀ i, bit s' i = (bit s i || (decide (8 * P.start p + P.width p * count p ≤ i) &&
      (value p (count p)).testBit (i - (8 * P.start p + P.width p * count p))))) :
    P.Holds s' (Function.update count p (count p + 1)) value := by
  have hadd : P.width p * (count p + 1) = P.width p * count p + P.width p := Nat.mul_succ _ _
  apply h.extend hroom
  intro i
  rw [hbits]
  by_cases hin : 8 * P.start p + P.width p * count p ≤ i ∧
      i < 8 * P.start p + P.width p * (count p + 1)
  · obtain ⟨hdiv, hmod⟩ := div_mod_of_mem (w := P.width p) (n := count p)
      (i := i - 8 * P.start p) (by omega) (by omega)
    have hzero := h p (i - 8 * P.start p) (by omega)
    rw [show 8 * P.start p + (i - 8 * P.start p) = i by omega,
      decide_eq_false (show ¬i - 8 * P.start p < P.width p * count p by omega), Bool.false_and]
      at hzero
    rw [if_pos hin, hzero, hdiv, hmod, decide_eq_true hin.1, Bool.false_or, Bool.true_and]
    congr 1
    omega
  · rw [if_neg hin]
    by_cases hle : 8 * P.start p + P.width p * count p ≤ i
    · have hpow : 2 ^ P.width p ≤ 2 ^ (i - (8 * P.start p + P.width p * count p)) :=
        Nat.pow_le_pow_right (by omega) (by omega)
      rw [Nat.testBit_lt_two_pow (by omega), Bool.and_false, Bool.or_false]
    · rw [decide_eq_false hle, Bool.false_and, Bool.or_false]

theorem Holds.sets {write : (Nat → UInt8) → Nat → Nat → UInt8} {n : Nat}
    (h : P.Holds s count value) (hn : count p = n)
    (hroom : P.width p * (n + m) ≤ 8 * P.bytes p)
    (hvalue : ∀ j < m, value p (n + j) < 2 ^ P.width p)
    (hwrite : ∀ s, ∀ j < m, ∀ i, bit (write s j) i
      = (bit s i || (decide (8 * P.start p + P.width p * (n + j) ≤ i) &&
        (value p (n + j)).testBit (i - (8 * P.start p + P.width p * (n + j)))))) :
    P.Holds ((List.range m).foldl write s) (Function.update count p (n + m)) value := by
  induction m with
  | zero =>
    rw [Nat.add_zero, ← hn, Function.update_eq_self]
    exact h
  | succ m ih =>
    have hle : P.width p * (n + m) ≤ P.width p * (n + (m + 1)) := Nat.mul_le_mul_left _ (by omega)
    have hprev := ih (by omega) (fun j hj => hvalue j (by omega))
      fun s j hj => hwrite s j (by omega)
    rw [List.range_succ, List.foldl_append]
    have hcount : Function.update count p (n + m) p = n + m := Function.update_self _ _ _
    have hupdate : Function.update count p (n + (m + 1)) = Function.update
        (Function.update count p (n + m)) p (Function.update count p (n + m) p + 1) := by
      rw [hcount, Function.update_idem]
      rfl
    rw [hupdate]
    apply hprev.set
    · rw [hcount]
      exact hroom
    · rw [hcount]
      exact hvalue m (by omega)
    · rw [hcount]
      exact hwrite _ m (by omega)

theorem Holds.put {t : Nat → UInt8} (h : P.Holds s count value) (hwidth : P.width p = 8)
    (hroom : count p + m ≤ P.bytes p) (hvalue : ∀ j < m, value p (count p + j) = (t j).toNat) :
    P.Holds (put s (P.start p + count p) m t) (Function.update count p (count p + m)) value := by
  apply h.extend (by rw [hwidth]; omega)
  intro i
  rw [bit_put, hwidth]
  by_cases hin : 8 * (P.start p + count p) ≤ i ∧ i < 8 * (P.start p + count p + m)
  · rw [if_pos hin, if_pos (by omega)]
    have hplace := hvalue ((i - 8 * P.start p) / 8 - count p) (by omega)
    rw [show count p + ((i - 8 * P.start p) / 8 - count p) = (i - 8 * P.start p) / 8 by omega]
      at hplace
    rw [hplace, bit, show (i - 8 * (P.start p + count p)) / 8 = (i - 8 * P.start p) / 8 - count p by
      omega, show (i - 8 * (P.start p + count p)) % 8 = (i - 8 * P.start p) % 8 by omega]
  · rw [if_neg hin, if_neg (by omega)]

end Writing

section Reading

variable (h : P.Holds s count value)

include h

theorem Holds.field_eq (hv : v < count p) (hroom : P.width p * count p ≤ 8 * P.bytes p)
    (hvalue : value p v < 2 ^ P.width p) :
    field s (8 * P.start p + P.width p * v) (P.width p) = value p v := by
  rw [← field_add]
  exact (h.filled p).field_eq hv hroom hvalue

theorem Holds.byte_eq (hwidth : P.width p = 8) (hv : v < count p) (hroom : count p ≤ P.bytes p)
    {b : UInt8} (hvalue : value p v = b.toNat) : s (P.start p + v) = b := by
  apply toNat_eq_of_bits
  intro j hj
  have hbit := h p (8 * v + j) (by omega)
  unfold bit at hbit
  rw [hwidth, decide_eq_true (show 8 * v + j < 8 * count p by omega), Bool.true_and,
    show (8 * P.start p + (8 * v + j)) / 8 = P.start p + v by omega,
    show (8 * P.start p + (8 * v + j)) % 8 = j by omega, show (8 * v + j) / 8 = v by omega,
    show (8 * v + j) % 8 = j by omega, hvalue] at hbit
  exact hbit

/-- The bytes of a plane are determined by its numbers. -/
theorem Holds.byte_congr {value' : ι → Nat → Nat} (h' : P.Holds s' count value')
    (hvalue : ∀ n < count p, value p n = value' p n) {k : Nat} (hk : k < P.bytes p) :
    s (P.start p + k) = s' (P.start p + k) := by
  apply byte_eq_of_bits
  intro j hj
  rw [show 8 * (P.start p + k) + j = 8 * P.start p + (8 * k + j) by omega, h p _ (by omega),
    h' p _ (by omega)]
  by_cases hlt : 8 * k + j < P.width p * count p
  · rw [hvalue _ (Nat.div_lt_of_lt_mul hlt)]
  · simp [hlt]

theorem Holds.rest_eq {i : Nat} (hcount : P.width p * count p ≤ i) (hi : i < 8 * P.bytes p) :
    bit s (8 * P.start p + i) = false := by
  rw [h p i hi, decide_eq_false (by omega), Bool.false_and]

end Reading

end Planes

end TyloQuant.Lib
