import Mathlib.Algebra.GroupWithZero.Nat
import Mathlib.Data.List.GetD
import Mathlib.Data.List.TakeDrop

/-!
# Files as byte strings with a position

A file is a string of bytes.  Writing past its end fills the gap with zeros, as truncating it to
a greater size does.  Two files are equal when they have the same size and the same bytes, and
the byte of a file at any offset is zero beyond its end: so each operation has two lemmas, what
size it leaves and which byte it leaves at an offset.
-/

namespace TyloQuant.Lib.ByteFile

open List

/-- The byte at an offset, zero beyond the end. -/
def byte (xs : List UInt8) (i : Nat) : UInt8 := xs.getD i 0

variable {xs ys : List UInt8}

theorem ext (hlength : xs.length = ys.length) (hbyte : ∀ i, byte xs i = byte ys i) : xs = ys := by
  apply ext_getElem hlength
  intro i hx hy
  have h := hbyte i
  unfold byte at h
  rwa [getD_eq_getElem _ _ hx, getD_eq_getElem _ _ hy] at h

variable {i : Nat}

theorem byte_of_le (h : xs.length ≤ i) : byte xs i = 0 := getD_eq_default _ _ h

@[simp] theorem byte_nil (i : Nat) : byte [] i = 0 := byte_of_le (Nat.zero_le i)

theorem byte_append (xs ys : List UInt8) (i : Nat) :
    byte (xs ++ ys) i = if i < xs.length then byte xs i else byte ys (i - xs.length) := by
  unfold byte
  split
  · rename_i h
    exact getD_append _ _ _ _ h
  · rename_i h
    exact getD_append_right _ _ _ _ (Nat.le_of_not_lt h)

theorem byte_take (xs : List UInt8) (n i : Nat) :
    byte (xs.take n) i = if i < n then byte xs i else 0 := by
  unfold byte
  rw [getD_eq_getElem?_getD, getD_eq_getElem?_getD, getElem?_take]
  split <;> rfl

theorem byte_drop (xs : List UInt8) (n i : Nat) : byte (xs.drop n) i = byte xs (n + i) := by
  unfold byte
  rw [getD_eq_getElem?_getD, getD_eq_getElem?_getD, getElem?_drop]

theorem byte_flatMap {α : Type} {f : α → List UInt8} (xs : List α) (a : α) {j : Nat}
    (hi : i < xs.length) (hj : j < (f (xs.getD i a)).length) :
    byte (xs.flatMap f) (((xs.map fun x => (f x).length).take i).sum + j)
      = byte (f (xs.getD i a)) j := by
  induction xs generalizing i with
  | nil => simp at hi
  | cons x xs ih =>
    rw [flatMap_cons, byte_append]
    cases i with
    | zero =>
      have hj' : j < (f x).length := hj
      rw [take_zero, sum_nil, Nat.zero_add, if_pos hj']
      rfl
    | succ i =>
      rw [map_cons, take_succ_cons, sum_cons, if_neg (by omega),
        show (f x).length + ((xs.map fun x => (f x).length).take i).sum + j - (f x).length
          = ((xs.map fun x => (f x).length).take i).sum + j by omega]
      rw [getD_cons_succ] at hj ⊢
      exact ih (by simpa using hi) hj

theorem byte_zeros (n i : Nat) : byte (List.replicate n 0) i = 0 := by
  unfold byte
  rw [getD_eq_getElem?_getD, getElem?_replicate]
  split <;> rfl

/-! ### Operations -/

/-- `ftruncate`. -/
def truncate (xs : List UInt8) (n : Nat) : List UInt8 :=
  xs.take n ++ List.replicate (n - xs.length) 0

/-- `pwrite` of some bytes. -/
def overwrite (xs : List UInt8) (pos : Nat) (ys : List UInt8) : List UInt8 :=
  truncate xs pos ++ ys ++ xs.drop (pos + ys.length)

@[simp] theorem length_truncate (xs : List UInt8) (n : Nat) : (truncate xs n).length = n := by
  rw [truncate, length_append, length_take, length_replicate]
  omega

theorem byte_truncate (xs : List UInt8) (n i : Nat) :
    byte (truncate xs n) i = if i < n then byte xs i else 0 := by
  rw [truncate, byte_append, byte_take, byte_zeros, length_take]
  split
  · rfl
  · rename_i h
    split
    · rw [byte_of_le (by omega)]
    · rfl

theorem length_overwrite (xs : List UInt8) (pos : Nat) (ys : List UInt8) :
    (overwrite xs pos ys).length = max xs.length (pos + ys.length) := by
  rw [overwrite, length_append, length_append, length_truncate, length_drop]
  omega

theorem byte_overwrite (xs : List UInt8) (pos : Nat) (ys : List UInt8) (i : Nat) :
    byte (overwrite xs pos ys) i =
      if pos ≤ i ∧ i < pos + ys.length then byte ys (i - pos) else byte xs i := by
  rw [overwrite, byte_append, byte_append, byte_truncate, byte_drop, length_append,
    length_truncate]
  by_cases hpos : i < pos
  · rw [if_pos (by omega), if_pos hpos, if_pos hpos, if_neg (by omega)]
  · by_cases hend : i < pos + ys.length
    · rw [if_pos hend, if_neg hpos, if_pos (by omega)]
    · rw [if_neg hend, if_neg (by omega)]
      congr 1
      omega

/-! ### An open file -/

/-- An open file and its position. -/
structure Cursor where
  bytes : List UInt8
  pos : Nat := 0
deriving DecidableEq, Repr

namespace Cursor

def seek (f : Cursor) (pos : Nat) : Cursor := { f with pos := pos }

/-- `write`: nothing happens when there is nothing to write. -/
def write (f : Cursor) (ys : List UInt8) : Cursor :=
  if ys = [] then f else ⟨overwrite f.bytes f.pos ys, f.pos + ys.length⟩

/-- `truncate`: the position stays where it is. -/
def truncate (f : Cursor) (size : Nat) : Cursor :=
  { f with bytes := ByteFile.truncate f.bytes size }

@[simp] theorem write_nil (f : Cursor) : f.write [] = f := if_pos rfl

theorem write_of_ne_nil (f : Cursor) (h : ys ≠ []) :
    f.write ys = ⟨overwrite f.bytes f.pos ys, f.pos + ys.length⟩ := if_neg h

@[simp] theorem pos_write (f : Cursor) (ys : List UInt8) :
    (f.write ys).pos = f.pos + ys.length := by
  by_cases h : ys = []
  · subst h
    simp
  · rw [f.write_of_ne_nil h]

theorem byte_write (f : Cursor) (ys : List UInt8) (i : Nat) :
    byte (f.write ys).bytes i =
      if f.pos ≤ i ∧ i < f.pos + ys.length then byte ys (i - f.pos) else byte f.bytes i := by
  by_cases h : ys = []
  · subst h
    rw [write_nil, if_neg (by simp)]
  · rw [f.write_of_ne_nil h]
    exact byte_overwrite _ _ _ _

theorem length_write (f : Cursor) (h : ys ≠ []) :
    (f.write ys).bytes.length = max f.bytes.length (f.pos + ys.length) := by
  rw [f.write_of_ne_nil h]
  exact length_overwrite _ _ _

end Cursor

end TyloQuant.Lib.ByteFile
