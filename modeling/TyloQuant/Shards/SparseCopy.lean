import Mathlib.Order.Nat
import TyloQuant.Shards.Records

/-!
# What a sparse copy leaves in the target

`copy_sparse_range` moves over the holes of its source without writing.  So the bytes of the
target under a hole stay as they were, and where no data follows the offset at all the target is
truncated at the end of the range.  Both are what a plain copy leaves exactly when the target
holds zeros under the holes and, in the second case, ends no later than the range.

`Filled` says which source offsets a part of the copy has written; two parts one after the other
have written the offsets of either.
-/

namespace TyloQuant.Shards

open Lib.ByteFile List

/-! ### Plain copies -/

/-- The bytes of a range. -/
def range (source : List UInt8) (begin stop : Nat) : List UInt8 :=
  (source.drop begin).take (stop - begin)

variable {begin : Nat}

theorem length_range {source : List UInt8} {stop : Nat} (h : stop ≤ source.length) :
    (range source begin stop).length = stop - begin := by
  rw [range, length_take, length_drop]
  omega

variable {i : Nat}

theorem byte_range (source : List UInt8) {stop : Nat} (h : i < stop - begin) :
    byte (range source begin stop) i = byte source (begin + i) := by
  rw [range, byte_take, if_pos h, byte_drop]

variable {offset : Nat}

/-- A part of the copy of `[start, stop)` to `destination`, which has written the offsets that
    meet `writes`. -/
structure Filled (source : List UInt8) (start stop destination : Nat) (writes : Nat → Prop)
    (old new : Cursor) : Prop where
  pos : new.pos ≤ max old.pos (destination + (stop - start))
  grows : old.bytes.length ≤ new.bytes.length
  bounded : new.bytes.length ≤ max old.bytes.length (destination + (stop - start))
  copied : ∀ i, start ≤ i → i < stop → writes i →
    byte new.bytes (destination + (i - start)) = byte source i
  kept : ∀ i, start ≤ i → i < stop → ¬writes i →
    byte new.bytes (destination + (i - start)) = byte old.bytes (destination + (i - start))
  outside : ∀ j, j < destination ∨ destination + (stop - start) ≤ j →
    byte new.bytes j = byte old.bytes j

namespace Filled

variable {source : List UInt8} {start stop destination : Nat} {old mid new : Cursor}
  {writes writes' : Nat → Prop}

theorem refl (old : Cursor) (h : ∀ i, i < stop → ¬writes i) :
    Filled source start stop destination writes old old where
  pos := le_max_left _ _
  grows := le_rfl
  bounded := le_max_left _ _
  copied i _ hi hw := absurd hw (h i hi)
  kept _ _ _ _ := rfl
  outside _ _ := rfl

theorem congr (h : Filled source start stop destination writes old new)
    (hiff : ∀ i, start ≤ i → i < stop → (writes' i ↔ writes i)) :
    Filled source start stop destination writes' old new where
  pos := h.pos
  grows := h.grows
  bounded := h.bounded
  copied i hlow hi hw := h.copied i hlow hi ((hiff i hlow hi).mp hw)
  kept i hlow hi hw := h.kept i hlow hi fun hw' => hw ((hiff i hlow hi).mpr hw')
  outside := h.outside

theorem trans (h : Filled source start stop destination writes old mid)
    (h' : Filled source start stop destination writes' mid new) :
    Filled source start stop destination (fun i => writes i ∨ writes' i) old new where
  pos := by
    have hpos := h.pos
    have hpos' := h'.pos
    omega
  grows := h.grows.trans h'.grows
  bounded := by
    have hbound := h.bounded
    have hbound' := h'.bounded
    omega
  copied i hlow hi hw := by
    by_cases hsecond : writes' i
    · exact h'.copied i hlow hi hsecond
    · rw [h'.kept i hlow hi hsecond]
      exact h.copied i hlow hi (hw.resolve_right hsecond)
  kept i hlow hi hw := by
    rw [h'.kept i hlow hi fun hw' => hw (Or.inr hw')]
    exact h.kept i hlow hi fun hw' => hw (Or.inl hw')
  outside j hj := by rw [h'.outside j hj, h.outside j hj]

theorem write {cursor : Nat} (destination : Nat) (old : Cursor) (hstart : start ≤ begin)
    (hbegin : begin ≤ cursor) (hcursor : cursor ≤ stop) (hstop : stop ≤ source.length) :
    Filled source start stop destination (fun i => begin ≤ i ∧ i < cursor) old
      ((old.seek (destination + begin - start)).write (range source begin cursor)) := by
  have hlength : (range source begin cursor).length = cursor - begin :=
    length_range (hcursor.trans hstop)
  have hbyte : ∀ j, byte ((old.seek (destination + begin - start)).write
      (range source begin cursor)).bytes j =
        if destination + begin - start ≤ j ∧ j < destination + begin - start + (cursor - begin)
        then byte (range source begin cursor) (j - (destination + begin - start))
        else byte old.bytes j := by
    intro j
    rw [Cursor.byte_write, hlength]
    rfl
  have hsize : ((old.seek (destination + begin - start)).write
      (range source begin cursor)).bytes.length =
        if begin = cursor then old.bytes.length
        else max old.bytes.length (destination + begin - start + (cursor - begin)) := by
    by_cases hempty : begin = cursor
    · have hnil : range source begin cursor = [] :=
        eq_nil_of_length_eq_zero (by omega)
      rw [if_pos hempty, hnil, Cursor.write_nil]
      rfl
    · have hne : range source begin cursor ≠ [] := by
        intro h
        rw [h, length_nil] at hlength
        omega
      rw [if_neg hempty, Cursor.length_write _ hne, hlength]
      rfl
  constructor
  · rw [Cursor.pos_write, hlength]
    change destination + begin - start + (cursor - begin) ≤ _
    omega
  · rw [hsize]
    split <;> omega
  · rw [hsize]
    split <;> omega
  · rintro i hlow hi ⟨hbegin', hcursor'⟩
    rw [hbyte, if_pos (by omega), byte_range _ (by omega)]
    congr 1
    omega
  · intro i hlow hi hnot
    rw [hbyte, if_neg (by omega)]
  · intro j hj
    rw [hbyte, if_neg (by omega)]

end Filled

/-- The platform tells data from holes. -/
def SeekSupport.seesHoles : SeekSupport → Bool
  | .dataOnly | .full => true
  | .absent | .refused | .failing => false

/-- No data follows the offset, so the target is truncated. -/
def truncates (support : SeekSupport) (source : SparseFile) (start : Nat) : Bool :=
  support.seesHoles && (source.seekData start).isNone

/-- The copy from `start` on moves over the offset `i`. -/
def skips (support : SeekSupport) (source : SparseFile) (start i : Nat) : Bool :=
  match support with
  | .absent | .refused | .failing => false
  | .full => !source.isData i
  | .dataOnly => ((source.seekData start).map fun data => decide (i < data)).getD true

variable {support : SeekSupport}

/-- What a copy of `size > 0` bytes from `start` leaves. -/
structure Copied (support : SeekSupport) (source : SparseFile) (start size : Nat)
    (old new : Cursor) : Prop where
  pos : new.pos = old.pos + size
  length : new.bytes.length =
    if truncates support source start then old.pos + size
    else max old.bytes.length (old.pos + size)
  inside : ∀ i < size, byte new.bytes (old.pos + i) =
    if skips support source start (start + i) then byte old.bytes (old.pos + i)
    else byte source.bytes (start + i)
  before : ∀ j < old.pos, byte new.bytes j = byte old.bytes j
  after : truncates support source start = false →
    ∀ j, old.pos + size ≤ j → byte new.bytes j = byte old.bytes j

variable {size : Nat}

end TyloQuant.Shards
