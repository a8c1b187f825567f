import Mathlib.Data.List.GetD
import Mathlib.Data.List.TakeDrop

/-!
# Rows in a flat list

A matrix that is stored row after row.  A row is a part of the flat list, at a multiple of the
width, and a row of rows is one at a multiple of their size.
-/

namespace TyloQuant.Lib

open List

universe u v

variable {α : Type u} {β : Type v}

/-- What `copy_n` copies. -/
def part (xs : List α) (start count : Nat) : List α := (xs.drop start).take count

variable {xs : List α} {count start : Nat}

theorem length_part (h : start + count ≤ xs.length) : (part xs start count).length = count := by
  rw [part, length_take, length_drop]
  omega

variable {i n : Nat}

theorem getD_drop {a : α} : (xs.drop n).getD i a = xs.getD (n + i) a := by
  rw [getD_eq_getElem?_getD, getD_eq_getElem?_getD, getElem?_drop]

theorem getD_part {xs : List α} {start count i : Nat} {a : α} (h : i < count) :
    (part xs start count).getD i a = xs.getD (start + i) a := by
  rw [part, ← getD_drop, getD_eq_getElem?_getD, getElem?_take_of_lt h,
    ← getD_eq_getElem?_getD]

theorem part_append_left {ys : List α} (h : start + count ≤ xs.length) :
    part (xs ++ ys) start count = part xs start count := by
  rw [part, drop_append, take_append, length_drop,
    show count - (xs.length - start) = 0 by omega, take_zero, List.append_nil]
  rfl

theorem part_append_right {ys : List α} (h : xs.length = n) (start count : Nat) :
    part (xs ++ ys) (n + start) count = part ys start count := by
  have hnil : xs.drop (n + start) = [] := drop_eq_nil_of_le (by omega)
  rw [part, drop_append, hnil, List.nil_append, h, Nat.add_sub_cancel_left]
  rfl

theorem part_self (h : xs.length = n) : part xs 0 n = xs := by
  rw [part, drop_zero, take_of_length_le (by omega)]

variable {k : Nat}

theorem part_flatMap {f : α → List β} (hf : ∀ a ∈ xs, (f a).length = n) (a : α) {c : Nat}
    (hi : i < xs.length) (hk : k + c ≤ n) :
    part (xs.flatMap f) (i * n + k) c = part (f (xs.getD i a)) k c := by
  induction xs generalizing i with
  | nil => simp at hi
  | cons x xs ih =>
    have hx : (f x).length = n := hf x mem_cons_self
    rw [flatMap_cons]
    cases i with
    | zero =>
      rw [Nat.zero_mul, Nat.zero_add, getD_cons_zero]
      exact part_append_left (by omega)
    | succ i =>
      rw [show (i + 1) * n + k = n + (i * n + k) by rw [Nat.succ_mul]; omega,
        part_append_right hx, getD_cons_succ]
      exact ih (fun a ha => hf a (mem_cons_of_mem _ ha)) (by simpa using hi)

variable {f : Nat → List β} {m : Nat}

theorem part_flatMap_range (hf : ∀ i < m, (f i).length = n) {c : Nat} (hi : i < m)
    (hk : k + c ≤ n) :
    part ((List.range m).flatMap f) (i * n + k) c = part (f i) k c := by
  have hall : ∀ a ∈ List.range m, (f a).length = n := fun a ha => hf a (mem_range.mp ha)
  rw [part_flatMap hall 0 (by simpa using hi) hk, getD_eq_getElem _ _ (by simpa using hi),
    getElem_range]

theorem part_row (hf : ∀ i < m, (f i).length = n) (hi : i < m) :
    part ((List.range m).flatMap f) (i * n) n = f i := by
  have hpart := part_flatMap_range hf hi (Nat.le_of_eq (Nat.zero_add n))
  rw [Nat.add_zero] at hpart
  exact hpart.trans (part_self (hf i hi))

theorem getD_flatMap_range (hf : ∀ i < m, (f i).length = n) (hi : i < m) (hk : k < n) (a : β) :
    ((List.range m).flatMap f).getD (i * n + k) a = (f i).getD k a := by
  have hpart : part ((List.range m).flatMap f) (i * n + k) 1 = part (f i) k 1 :=
    part_flatMap_range hf hi hk
  have hread := @getD_part _ ((List.range m).flatMap f) (i * n + k) 1 0 a Nat.one_pos
  rw [hpart, getD_part Nat.one_pos] at hread
  simpa using hread.symm

theorem map_range_mul (f : Nat → β) (m n : Nat) :
    (List.range (m * n)).map f =
      (List.range m).flatMap fun i => (List.range n).map fun k => f (i * n + k) := by
  induction m with
  | zero => simp
  | succ m ih =>
    rw [Nat.succ_mul, range_add, map_append, ih, range_succ, flatMap_append,
      flatMap_singleton, map_map]
    rfl

theorem take_drop_range (h : start + count ≤ n) :
    ((List.range n).drop start).take count = (List.range count).map (start + ·) := by
  rw [range_eq_range', drop_range', take_range'_of_length_ge (by omega),
    range'_eq_map_range]
  simp

end TyloQuant.Lib
