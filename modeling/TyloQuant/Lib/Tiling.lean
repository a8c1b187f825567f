import Mathlib.Data.List.Count
import Mathlib.Data.List.Pairwise
import Mathlib.Data.List.Perm.Basic

/-!
# Intervals that tile a space

An interval is its begin and its length.  A list of intervals tiles a space when each place of the
space is in exactly one of them and no other place is in any.  Cutting an interval in two and
putting two neighbours together keep a tiling, in whatever order its parts are listed.
-/

namespace TyloQuant

/-- Whether an interval has a place. -/
def covers (x : Nat) (i : Nat × Nat) : Bool := i.1 ≤ x ∧ x < i.1 + i.2

/-- The intervals cover each place below `n` exactly once and no other place. -/
def Tiles (n : Nat) (parts : List (Nat × Nat)) : Prop :=
  ∀ x, parts.countP (covers x) = if x < n then 1 else 0

namespace Tiles

variable {n : Nat} {parts parts' : List (Nat × Nat)} {i : Nat × Nat}

theorem perm (h : Tiles n parts) (hperm : parts.Perm parts') : Tiles n parts' :=
  fun x => (hperm.countP_eq _).symm.trans (h x)

theorem whole (n : Nat) : Tiles n [(0, n)] := fun x => by
  simp [covers, List.countP_cons]

theorem cut {o a b : Nat} :
    Tiles n ((o, a + b) :: parts) ↔ Tiles n ((o, a) :: (o + a, b) :: parts) := by
  refine forall_congr' fun x => ?_
  suffices h : ((o, a + b) :: parts).countP (covers x) =
      ((o, a) :: (o + a, b) :: parts).countP (covers x) by rw [h]
  simp only [List.countP_cons, covers, decide_eq_true_eq]
  split_ifs <;> omega

theorem inside (h : Tiles n parts) (hi : i ∈ parts) (hpos : 0 < i.2) : i.1 + i.2 ≤ n := by
  by_contra hout
  have hnone := h (i.1 + i.2 - 1)
  rw [if_neg (by omega), List.countP_eq_zero] at hnone
  exact hnone i hi (decide_eq_true ⟨by omega, by omega⟩)

theorem disjoint (h : Tiles n parts) : parts.Pairwise fun i j =>
    0 < i.2 → 0 < j.2 → i.1 + i.2 ≤ j.1 ∨ j.1 + j.2 ≤ i.1 := by
  rw [List.pairwise_iff_forall_sublist]
  intro i j hsub hi hj
  by_contra hmeet
  have hcount : [i, j].countP (covers (max i.1 j.1)) ≤ parts.countP (covers (max i.1 j.1)) :=
    hsub.countP_le
  rw [h] at hcount
  have hboth : [i, j].countP (covers (max i.1 j.1)) = 2 := by
    simp only [List.countP_cons, List.countP_nil, covers, decide_eq_true_eq]
    rw [if_pos (by omega), if_pos (by omega)]
  split at hcount <;> omega

end Tiles

end TyloQuant
