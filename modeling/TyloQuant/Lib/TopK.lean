import Mathlib.Data.List.Nodup
import Mathlib.Data.List.Perm.Subperm
import Mathlib.Order.Defs.PartialOrder

/-!
# The best of a list

A running selection keeps the best `k` of what it has seen.  The best of what was kept and of what
comes next are the best of everything seen so far.
-/

namespace TyloQuant.Lib

open List

universe u v

variable {α : Type u} {ν : Type v} [Preorder ν] {val : α → ν} {k : Nat}
  {items new kept kept' : List α}

/-- `kept` are `k` of the items, or all when there are no more than `k`, and nothing that is left
    out has a larger value than something kept. -/
structure Best (val : α → ν) (k : Nat) (items kept : List α) : Prop where
  split : ∃ rest, (kept ++ rest).Perm items ∧ ∀ x ∈ kept, ∀ y ∈ rest, val y ≤ val x
  length : kept.length = min k items.length

theorem Best.self (h : items.length ≤ k) : Best val k items items :=
  ⟨⟨[], by rw [List.append_nil], fun _ _ y hy => absurd hy not_mem_nil⟩, by omega⟩

theorem Best.nodup (h : Best val k items kept) (hitems : items.Nodup) : kept.Nodup := by
  obtain ⟨rest, hperm, -⟩ := h.split
  exact (nodup_append.mp (hperm.nodup_iff.mpr hitems)).1

theorem Best.le (h : Best val k items kept) {x y : α} (hx : x ∈ kept) (hy : y ∈ items)
    (hout : y ∉ kept) : val y ≤ val x := by
  obtain ⟨rest, hperm, hle⟩ := h.split
  rcases mem_append.mp (hperm.mem_iff.mpr hy) with hmem | hmem
  · exact absurd hmem hout
  · exact hle x hx y hmem

/-- The best of the kept and the new items are the best of all. -/
theorem Best.append (h : Best val k items kept) (h' : Best val k (kept ++ new) kept')
    (hnodup : (items ++ new).Nodup) : Best val k (items ++ new) kept' := by
  obtain ⟨rest, hperm, hle⟩ := h.split
  obtain ⟨rest', hperm', hle'⟩ := h'.split
  have hall : (kept' ++ (rest' ++ rest)).Perm (items ++ new) := by
    rw [← List.append_assoc]
    refine (hperm'.append_right rest).trans ?_
    rw [List.append_assoc]
    refine (perm_append_comm.append_left kept).trans ?_
    rw [← List.append_assoc]
    exact hperm.append_right new
  refine ⟨⟨rest' ++ rest, hall, fun x hx y hy => ?_⟩, ?_⟩
  · rcases mem_append.mp hy with hy | hy
    · exact hle' x hx y hy
    -- `y` was left out, so as many as `k` were kept, and one of them made room for `x`
    by_cases hkept : x ∈ kept
    · exact hle x hkept y hy
    have hfull : kept.length = k := by
      have hlength := hperm.length_eq
      have hpos := length_pos_of_mem hy
      rw [length_append] at hlength
      have hmin := h.length
      omega
    have hout : ∃ z ∈ kept, z ∉ kept' := by
      by_contra hno
      push Not at hno
      have hkeptNodup := h.nodup (nodup_append.mp hnodup).1
      have hsub : (x :: kept).Subperm kept' := by
        refine List.Nodup.subperm (nodup_cons.mpr ⟨hkept, hkeptNodup⟩) ?_
        rintro z (_ | ⟨_, hz⟩)
        · exact hx
        · exact hno z hz
      have hlength := hsub.length_le
      have hmin := h'.length
      rw [length_cons] at hlength
      omega
    obtain ⟨z, hz, hz'⟩ := hout
    exact le_trans (hle z hz y hy) (h'.le hx (mem_append_left _ hz) hz')
  · have hmin := h.length
    have hmin' := h'.length
    rw [length_append] at hmin' ⊢
    omega

end TyloQuant.Lib
