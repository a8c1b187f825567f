import Mathlib.Data.List.Forall2
import Mathlib.Order.Basic

/-!
# Computations that may throw

A call that may throw is a value of `Except`.  A sequence of such calls succeeds when each of
them does: this file has the one rule that takes a successful sequence apart, and the rules for
its two leaves, so that no proof has to unfold the monad.
-/

namespace TyloQuant.Lib

open List

universe u v

variable {ε : Type u} {α β : Type v} {x : Except ε α} {b : β}

theorem bind_eq_ok {f : α → Except ε β} : (x >>= f) = .ok b ↔ ∃ a, x = .ok a ∧ f a = .ok b := by
  cases x with
  | error e =>
    constructor
    · intro h
      cases h
    · rintro ⟨a, ha, -⟩
      cases ha
  | ok a =>
    constructor
    · intro h
      exact ⟨a, rfl, h⟩
    · rintro ⟨a', ha, h⟩
      cases ha
      exact h

variable {a : α}

theorem bind_of_ok (h : x = .ok a) (f : α → Except ε β) : (x >>= f) = f a := by
  rw [h]
  rfl

theorem pure_eq_ok {b : α} : (pure a : Except ε α) = .ok b ↔ a = b := by
  constructor
  · intro h
    cases h
    rfl
  · rintro rfl
    rfl

theorem map_eq_ok {f : α → β} : x.map f = .ok b ↔ ∃ a, x = .ok a ∧ b = f a := by
  cases x with
  | error e =>
    constructor
    · intro h
      cases h
    · rintro ⟨a, ha, -⟩
      cases ha
  | ok a =>
    constructor
    · intro h
      cases h
      exact ⟨a, rfl, rfl⟩
    · rintro ⟨a', ha, rfl⟩
      cases ha
      rfl

theorem guard_eq_ok {p : Prop} [Decidable p] {e : ε} {b : α} :
    (if p then .error e else x) = .ok b ↔ ¬p ∧ x = .ok b := by
  by_cases hp : p
  · simp [hp]
  · simp [hp]

theorem mapM_eq_ok {α β : Type v} {f : α → Except ε β} {xs : List α} :
    ∀ {ys : List β}, xs.mapM f = .ok ys ↔ List.Forall₂ (fun x y => f x = .ok y) xs ys := by
  induction xs with
  | nil =>
    intro ys
    rw [mapM_nil, pure_eq_ok, forall₂_nil_left_iff]
    exact eq_comm
  | cons x xs ih =>
    intro ys
    rw [mapM_cons, bind_eq_ok, forall₂_cons_left_iff]
    constructor
    · rintro ⟨y, hy, h⟩
      obtain ⟨rest, hrest, h⟩ := bind_eq_ok.mp h
      exact ⟨y, rest, hy, ih.mp hrest, (pure_eq_ok.mp h).symm⟩
    · rintro ⟨y, rest, hy, hrest, rfl⟩
      exact ⟨y, hy, bind_eq_ok.mpr ⟨rest, ih.mpr hrest, rfl⟩⟩

/-- Results are different when each result comes from one argument only. -/
theorem nodup_of_forall₂ {α β : Type v} {R : α → β → Prop} {xs : List α} {ys : List β}
    (h : List.Forall₂ R xs ys) (hnodup : xs.Nodup)
    (hinj : ∀ {x x' y}, R x y → R x' y → x = x') : ys.Nodup := by
  induction h with
  | nil => exact nodup_nil
  | @cons x y xs ys hxy hrest ih =>
    rw [nodup_cons] at hnodup ⊢
    refine ⟨fun hmem => ?_, ih hnodup.2⟩
    obtain ⟨x', hx', hx'y⟩ : ∃ x' ∈ xs, R x' y := by
      clear ih hnodup
      induction hrest with
      | nil => cases hmem
      | @cons x' y' xs ys hxy' _ ih' =>
        rcases mem_cons.mp hmem with rfl | hmem
        · exact ⟨x', mem_cons_self, hxy'⟩
        · obtain ⟨x'', hx'', h⟩ := ih' hmem
          exact ⟨x'', mem_cons_of_mem _ hx'', h⟩
    exact hnodup.1 (hinj hxy hx'y ▸ hx')

end TyloQuant.Lib
