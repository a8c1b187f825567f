import Mathlib.Data.List.TakeDrop
import Mathlib.Tactic.Ring

/-!
# Fields in a byte string

Reading a field takes its bytes off the front of a string, or fails when there are too few.  Each
reader has one lemma: it succeeds exactly on the strings that begin with what its writer produces.
-/

namespace TyloQuant.Lib.Bytes

/-! ### Numbers -/

/-- The lowest `w` bytes of a number, the lowest first. -/
def littleEndian : Nat → Nat → List UInt8
  | 0, _ => []
  | w + 1, n => UInt8.ofNat n :: littleEndian w (n / 256)

def ofLittleEndian : List UInt8 → Nat
  | [] => 0
  | b :: bs => b.toNat + 256 * ofLittleEndian bs

@[simp] theorem length_littleEndian (w n : Nat) : (littleEndian w n).length = w := by
  induction w generalizing n with
  | zero => rfl
  | succ w ih => rw [littleEndian, List.length_cons, ih]

theorem ofLittleEndian_lt (bs : List UInt8) : ofLittleEndian bs < 256 ^ bs.length := by
  induction bs with
  | nil => exact Nat.one_pos
  | cons b bs ih =>
    have hb : b.toNat < 256 := b.toNat_lt
    rw [ofLittleEndian, List.length_cons, Nat.pow_succ]
    omega

theorem ofLittleEndian_littleEndian {w n : Nat} (h : n < 256 ^ w) :
    ofLittleEndian (littleEndian w n) = n := by
  induction w generalizing n with
  | zero =>
    rw [Nat.pow_zero] at h
    rw [littleEndian, ofLittleEndian]
    omega
  | succ w ih =>
    rw [Nat.pow_succ] at h
    have hlow : (UInt8.ofNat n).toNat = n % 256 := UInt8.toNat_ofNat'
    rw [littleEndian, ofLittleEndian, ih (by omega), hlow]
    omega

theorem littleEndian_ofLittleEndian (bs : List UInt8) :
    littleEndian bs.length (ofLittleEndian bs) = bs := by
  induction bs with
  | nil => rfl
  | cons b bs ih =>
    have hb : b.toNat < 256 := b.toNat_lt
    have hdiv : (b.toNat + 256 * ofLittleEndian bs) / 256 = ofLittleEndian bs := by omega
    have hlow : UInt8.ofNat (b.toNat + 256 * ofLittleEndian bs) = b := by
      apply UInt8.toNat_inj.mp
      rw [UInt8.toNat_ofNat']
      omega
    rw [List.length_cons, ofLittleEndian, littleEndian, hdiv, ih, hlow]

/-! ### Readers -/

def readBytes (n : Nat) (s : List UInt8) : Option (List UInt8 × List UInt8) :=
  if n ≤ s.length then some (s.take n, s.drop n) else none

theorem readBytes_iff {n : Nat} {s a rest : List UInt8} :
    readBytes n s = some (a, rest) ↔ a.length = n ∧ s = a ++ rest := by
  unfold readBytes
  constructor
  · intro h
    split at h
    · obtain ⟨rfl, rfl⟩ := Prod.mk.inj (Option.some.inj h)
      exact ⟨List.length_take_of_le ‹_›, (List.take_append_drop n s).symm⟩
    · cases h
  · rintro ⟨rfl, rfl⟩
    rw [if_pos (by rw [List.length_append]; omega), List.take_left, List.drop_left]

def readLittleEndian (w : Nat) (s : List UInt8) : Option (Nat × List UInt8) :=
  (readBytes w s).map fun field => (ofLittleEndian field.1, field.2)

theorem readLittleEndian_iff {w n : Nat} {s rest : List UInt8} :
    readLittleEndian w s = some (n, rest) ↔ n < 256 ^ w ∧ s = littleEndian w n ++ rest := by
  constructor
  · intro h
    obtain ⟨⟨bytes, rest'⟩, hread, heq⟩ := Option.map_eq_some_iff.mp h
    obtain ⟨rfl, rfl⟩ := Prod.mk.inj heq
    obtain ⟨rfl, rfl⟩ := readBytes_iff.mp hread
    exact ⟨ofLittleEndian_lt bytes, by rw [littleEndian_ofLittleEndian]⟩
  · rintro ⟨hlt, rfl⟩
    have hread : readBytes w (littleEndian w n ++ rest) = some (littleEndian w n, rest) :=
      readBytes_iff.mpr ⟨length_littleEndian w n, rfl⟩
    rw [readLittleEndian, hread, Option.map_some, ofLittleEndian_littleEndian hlt]

end TyloQuant.Lib.Bytes
