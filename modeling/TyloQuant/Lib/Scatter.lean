import Mathlib.Data.List.Induction
import Mathlib.Logic.Function.Basic
import TyloQuant.Lib.Bits

/-!
# Writing to places that are apart

A program that groups its items writes them in some order of its own.  When the places of different
items are apart, the order does not matter: each place holds what its item wrote, and the rest is
as it was.
-/

namespace TyloQuant.Lib.Scatter

open Bits

universe u v

variable {ι : Type u}

section Bytes

variable (start len : ι → Nat) (bytes : ι → Nat → UInt8)

/-- Writes the bytes of each item at its place. -/
def putAll (s : Nat → UInt8) (items : List ι) : Nat → UInt8 :=
  items.foldl (fun s a => put s (start a) (len a) (bytes a)) s

/-- The place of an item. -/
def Covers (a : ι) (i : Nat) : Prop := start a ≤ i ∧ i < start a + len a

variable {start len bytes} {s : Nat → UInt8} {items : List ι} {a b : ι} {i j : Nat}

theorem put_of_covers (h : Covers start len b i) :
    put s (start b) (len b) (bytes b) i = bytes b (i - start b) := if_pos h

theorem put_of_not_covers (h : ¬Covers start len b i) :
    put s (start b) (len b) (bytes b) i = s i := if_neg h

theorem putAll_concat : putAll start len bytes s (items ++ [b])
    = put (putAll start len bytes s items) (start b) (len b) (bytes b) := by
  simp [putAll]

/-- The place of an item holds its bytes when no other item covers it. -/
theorem putAll_of_mem (ha : a ∈ items) (hj : j < len a)
    (hapart : ∀ b ∈ items, Covers start len b (start a + j) → b = a) :
    putAll start len bytes s items (start a + j) = bytes a j := by
  induction items using List.reverseRecOn with
  | nil => simp at ha
  | append_singleton items b ih =>
    rw [putAll_concat]
    by_cases hb : Covers start len b (start a + j)
    · obtain rfl := hapart b (by simp) hb
      rw [put_of_covers hb, Nat.add_sub_cancel_left]
    · have hne : a ≠ b := by
        rintro rfl
        exact hb ⟨by omega, by omega⟩
      rw [put_of_not_covers hb]
      apply ih
      · simpa [hne] using ha
      · exact fun c hc => hapart c (by simp [hc])

end Bytes

section Cells

variable [DecidableEq ι] {β : Type v} (g : ι → β → β)

/-- Changes the cell of each item. -/
def updateAll (f : ι → β) (items : List ι) : ι → β :=
  items.foldl (fun f a => Function.update f a (g a (f a))) f

variable {g} {f : ι → β} {items : List ι}

theorem updateAll_apply (h : items.Nodup) (a : ι) :
    updateAll g f items a = if a ∈ items then g a (f a) else f a := by
  induction items using List.reverseRecOn with
  | nil => simp [updateAll]
  | append_singleton items b ih =>
    rw [List.nodup_append] at h
    obtain ⟨hitems, -, hapart⟩ := h
    have hb : b ∉ items := fun hmem => hapart b hmem b (by simp) rfl
    have hconcat : updateAll g f (items ++ [b])
        = Function.update (updateAll g f items) b (g b (updateAll g f items b)) := by
      simp [updateAll]
    rw [hconcat]
    by_cases hab : a = b
    · subst hab
      simp [ih hitems, hb]
    · rw [Function.update_of_ne hab, ih hitems]
      simp [hab]

end Cells

end TyloQuant.Lib.Scatter
