import Mathlib.Tactic.Common
import TyloQuant.Lib.Bits
import TyloQuant.Lib.Bytes
import TyloQuant.Lib.Outcome

/-!
# TQ tensors and their readers

A TQ tensor is a header of 64 bytes, a descriptor of 64 bits for each row, scales, and the packed
words of the rows one after the other.  A descriptor has the word offset of its row, the bit width
and the anchor; in a compact tensor also the bits of the state at which the short last ring was
cut.  `TqRows` reads parts of a tensor without the rest of it.
-/

namespace TyloQuant.Tq

open Lib Bytes ByteFile

inductive TqError where
  | invalidArgument (message : String)
  | outOfRange (message : String)
  | overflowError (message : String)
  | valueError (message : String)
  | indexError
  | keyError
  | structError
deriving DecidableEq, Repr

/-- `TqLayout::integer`: the little-endian number at an offset. -/
def integer (bytes : List UInt8) (offset count : Nat) : Nat :=
  ofLittleEndian ((bytes.drop offset).take count)

/-- Reads a range of a tensor's bytes; a range that ends outside of them is refused. -/
def readRange (source : List UInt8) (offset count : Nat) : Except TqError (List UInt8) :=
  if source.length < offset ∨ source.length - offset < count then
    .error (.outOfRange "model tensor row range is out of bounds")
  else .ok ((source.drop offset).take count)

theorem integer_lt (bytes : List UInt8) (offset count : Nat) :
    integer bytes offset count < 256 ^ count := by
  have hlt := ofLittleEndian_lt ((bytes.drop offset).take count)
  have hle : ((bytes.drop offset).take count).length ≤ count := by simp
  exact lt_of_lt_of_le hlt (Nat.pow_le_pow_right (by omega) hle)

theorem integer_slice (source : List UInt8) {offset size k count : Nat} (h : k + count ≤ size) :
    integer ((source.drop offset).take size) k count = integer source (offset + k) count := by
  unfold integer
  rw [List.drop_take, List.take_take, List.drop_drop, Nat.min_eq_left (by omega)]

theorem readRange_ok {source : List UInt8} {offset count : Nat}
    (h : offset + count ≤ source.length) :
    readRange source offset count = .ok ((source.drop offset).take count) := by
  unfold readRange
  rw [if_neg (by omega)]

theorem readRange_eq_ok {source bytes : List UInt8} {offset count : Nat} :
    readRange source offset count = .ok bytes ↔
      offset + count ≤ source.length ∧ (source.drop offset).take count = bytes := by
  unfold readRange
  rw [guard_eq_ok, Except.ok.injEq]
  exact and_congr_left fun _ => ⟨fun _ => by omega, fun _ => by omega⟩

/-- The complement of a mask of 64 bits. -/
def complement (mask : Nat) : Nat := 0xffffffffffffffff ^^^ mask

/-- The difference of two `uint32_t`. -/
def sub32 (a b : Nat) : Nat := (a + (2 ^ 32 - b)) % 2 ^ 32

/-! ### Descriptors -/

def bitsOf (descriptor : Nat) : Nat := (descriptor >>> 32 &&& 7) + 1

theorem bitsOf_le (d : Nat) : 1 ≤ bitsOf d ∧ bitsOf d ≤ 8 := by
  have hle : d >>> 32 &&& 7 ≤ 7 := Nat.and_le_right
  unfold bitsOf
  omega

def tailSeed (d : Nat) : Nat :=
  (d >>> 35 &&& 31) ||| (d >>> 56 &&& 255) <<< 5 ||| (d &&& 1) <<< 13 ||| (d >>> 31 &&& 1) <<< 14

structure TqLayout where
  rows : Nat
  width : Nat
  gs : Nat
  packedBytes : Nat
  columns : Bool
  compact : Bool
deriving DecidableEq, Repr

namespace TqLayout

def groups (m : TqLayout) : Nat := if m.columns then 0 else (m.width + m.gs - 1) / m.gs

def scales (m : TqLayout) : Nat := 64 + m.rows * 8

def scaleBytes (m : TqLayout) : Nat :=
  if m.columns then m.width * 2 else (m.rows * m.groups + 1) / 2

def packed (m : TqLayout) : Nat := m.scales + m.scaleBytes

def bytes (m : TqLayout) : Nat := m.packed + m.packedBytes

def offsetMask (m : TqLayout) : Nat := if m.compact then 0x7ffffffe else 0xffffffff

def offset (m : TqLayout) (descriptor : Nat) : Nat := descriptor % 2 ^ 32 &&& m.offsetMask

def validDescriptor (m : TqLayout) (d : Nat) : Bool :=
  if (d >>> 40 &&& 0xffff) > 0x7bff then false
  else if !m.compact then d &&& complement 0x00ffff07ffffffff = 0
  else (m.width * bitsOf d / 32 &&& 1) = 0 && tailSeed d < 1 <<< (16 - bitsOf d)

def rebase (m : TqLayout) (d words : Nat) : Except TqError Nat :=
  if words &&& complement m.offsetMask ≠ 0 then
    .error (.overflowError "TQ row word offset exceeds format capacity")
  else .ok (d &&& complement m.offsetMask ||| words)

end TqLayout

def magic05 : List UInt8 := [82, 84, 82, 69, 76, 76, 48, 53]

def magic06 : List UInt8 := [82, 84, 82, 69, 76, 76, 48, 54]

/-- The constructor of `TqLayout`, from a header and the size of the tensor. -/
def parseLayout (p : List UInt8) (size : Nat) : Except TqError TqLayout :=
  if size < 64 then .error (.invalidArgument "truncated TQ header")
  else
    let compact := p.take 8 = magic06 ∧ integer p 8 4 = 6
    if (¬compact ∧ (p.take 8 ≠ magic05 ∨ integer p 8 4 ≠ 5)) ∨ 1 < integer p 20 4 then
      .error (.invalidArgument "invalid TQ header")
    else
      let m : TqLayout :=
        { rows := integer p 12 4
          width := integer p 16 4
          gs := integer p 24 4
          packedBytes := integer p 28 4
          columns := integer p 20 4 ≠ 0
          compact := decide compact }
      if m.rows = 0 ∨ m.width = 0 ∨ m.width % 32 ≠ 0 ∨
          (if m.compact then ¬m.columns ∨ m.width % 256 = 0 else m.width % 256 ≠ 0) ∨
          (¬m.columns ∧ (m.gs < 16 ∨ 1 <<< 20 < m.gs ∨ m.gs &&& (m.gs - 1) ≠ 0)) then
        .error (.invalidArgument "invalid TQ row geometry")
      else if ((p.drop 32).take 32).any (· ≠ 0) then
        .error (.invalidArgument "nonzero TQ reserved coefficients")
      else if size ≠ m.bytes then .error (.invalidArgument "TQ tensor byte count differs")
      else .ok m

/-! ### Rows -/

structure TqRows where
  source : List UInt8
  header : List UInt8
  layout : TqLayout
deriving DecidableEq, Repr

namespace TqRows

/-- The constructor of `TqRows`. -/
def make (source : List UInt8) : Except TqError TqRows :=
  if source.length < 64 then .error (.invalidArgument "truncated TQ header")
  else do
    let header ← readRange source 0 64
    let layout ← parseLayout header source.length
    pure { source, header, layout }

/-- The header with other numbers of rows and of packed bytes. -/
def headerFor (t : TqRows) (rows packedBytes : Nat) : List UInt8 :=
  overwrite (overwrite t.header 12 (littleEndian 4 rows)) 28 (littleEndian 4 packedBytes)

end TqRows

/-- The selector of four bits at an index. -/
def selectorAt (source : List UInt8) (index : Nat) : Nat :=
  (byte source (index / 2)).toNat >>> ((index &&& 1) * 4) &&& 15

/-- Some selectors from an even or an odd place on, moved to the first place. -/
def repackSelectors (source : List UInt8) (first count : Nat) : List UInt8 :=
  (List.range ((count + 1) / 2)).map ((List.range count).foldl (fun scales i =>
    Bits.orByte scales (i / 2)
      (UInt8.ofNat (selectorAt source (i + (first &&& 1)) <<< ((i &&& 1) * 4)))) fun _ => 0)

/-- The checks of `slice_rows`, with the descriptors it leaves and the offset after them. -/
def rebaseRows (m : TqLayout) (first : Nat) : Nat → List Nat → Except TqError (List Nat × Nat)
  | expected, [] => .ok ([], expected)
  | expected, d :: rest =>
    if ¬m.validDescriptor d ∨ m.offset d ≠ expected then
      .error (.invalidArgument "invalid TQ row descriptor")
    else do
      let rebased ← m.rebase d (sub32 expected first)
      let (rows, last) ← rebaseRows m first ((expected + m.width * bitsOf d / 32) % 2 ^ 32) rest
      pure (rebased :: rows, last)

namespace TqRows

/-- The bytes of one row, and the room it takes by itself. -/
def rowBytes (t : TqRows) (descriptor : Nat) : Nat :=
  72 + (if t.layout.columns then t.layout.scaleBytes else (t.layout.groups + 1) / 2) +
    t.layout.width * bitsOf descriptor / 8

/-- The scales that `slice_row_into` reads: those of all columns, or the selectors of the row. -/
def readRowScales (t : TqRows) (row : Nat) : Except TqError (List UInt8) :=
  let m := t.layout
  if m.columns then readRange t.source m.scales m.scaleBytes
  else if m.groups = 1 then do
    let selector ← readRange t.source (m.scales + row / 2) 1
    pure [UInt8.ofNat ((byte selector 0).toNat >>> ((row &&& 1) * 4) &&& 15)]
  else do
    let first := row * m.groups
    let selectors ← readRange t.source (m.scales + first / 2)
      ((first + m.groups + 1) / 2 - first / 2)
    pure (repackSelectors selectors first m.groups)

/-- The scales that `slice_rows` reads. -/
def readScales (t : TqRows) (begin_ count : Nat) : Except TqError (List UInt8) :=
  let m := t.layout
  if m.columns then readRange t.source m.scales m.scaleBytes
  else do
    let firstSelector := begin_ * m.groups
    let selectors := count * m.groups
    let source ← readRange t.source (m.scales + firstSelector / 2)
      ((firstSelector + selectors + 1) / 2 - firstSelector / 2)
    pure (repackSelectors source firstSelector selectors)

/-- `slice_row_into`: the bytes that it leaves in the caller's memory. -/
def sliceRowInto (t : TqRows) (row capacity : Nat) : Except TqError (List UInt8) :=
  let m := t.layout
  if m.rows ≤ row then .error (.outOfRange "invalid TQ table row")
  else do
    let record ← readRange t.source (64 + row * 8) 8
    let descriptor := integer record 0 8
    let first := m.offset descriptor
    let packedBytes := m.width * bitsOf descriptor / 8
    if ¬m.validDescriptor descriptor ∨ m.packedBytes < first * 4 + packedBytes ∨
        (row = 0 ∧ first ≠ 0) ∨ (row + 1 = m.rows ∧ first * 4 + packedBytes ≠ m.packedBytes) then
      .error (.invalidArgument "invalid TQ row descriptor or payload range")
    else if capacity < t.rowBytes descriptor then
      .error (.overflowError "TQ row staging capacity is too small")
    else do
      let rebased ← m.rebase descriptor 0
      let scales ← t.readRowScales row
      let words ← readRange t.source (m.packed + first * 4) packedBytes
      pure (t.headerFor 1 packedBytes ++ littleEndian 8 rebased ++ scales ++ words)

def sliceRows (t : TqRows) (begin_ end_ : Nat) : Except TqError (List UInt8) :=
  let m := t.layout
  if end_ ≤ begin_ ∨ m.rows < end_ then .error (.outOfRange "invalid TQ row range")
  else do
    let count := end_ - begin_
    let descriptors ← readRange t.source (64 + begin_ * 8) (count * 8)
    let records := (List.range count).map fun row => integer descriptors (row * 8) 8
    let first := m.offset (integer descriptors 0 8)
    let (rebased, expected) ← rebaseRows m first first records
    -- The products are of 32 bits.
    if m.packedBytes < first * 4 % 2 ^ 32 ∨ m.packedBytes < expected * 4 % 2 ^ 32 ∨
        (begin_ = 0 ∧ first ≠ 0) ∨ (end_ = m.rows ∧ expected * 4 % 2 ^ 32 ≠ m.packedBytes) then
      .error (.invalidArgument "TQ row payload range differs")
    else do
      let packedBytes := sub32 expected first * 4
      let scales ← t.readScales begin_ count
      let words ← readRange t.source (m.packed + first * 4 % 2 ^ 32) packedBytes
      pure (t.headerFor count packedBytes ++ rebased.flatMap (littleEndian 8) ++ scales ++ words)

/-- The checks of `slice_columns`, with the words after the rows. -/
def checkColumns (m : TqLayout) : Nat → List Nat → Except TqError Nat
  | expected, [] => .ok expected
  | expected, d :: rest =>
    if ¬m.validDescriptor d ∨ m.offset d ≠ expected then
      .error (.invalidArgument "invalid TQ row descriptor")
    else checkColumns m (expected + m.width * bitsOf d / 32) rest

/-- The rows of `slice_columns` from a cursor on: their descriptors and their bytes. -/
def copyColumns (t : TqRows) (begin_ width : Nat) :
    Nat → List Nat → Except TqError (List Nat × List UInt8)
  | _, [] => .ok ([], [])
  | cursor, d :: rest => do
      let bytes := width * bitsOf d / 8
      let words ← readRange t.source
        (t.layout.packed + t.layout.offset d * 4 + begin_ * bitsOf d / 8) bytes
      let (descriptors, packed) ← copyColumns t begin_ width (cursor + bytes) rest
      pure ((d &&& 0x00ffff0700000000 ||| cursor / 4) :: descriptors, words ++ packed)

def sliceColumns (t : TqRows) (begin_ end_ : Nat) : Except TqError (List UInt8) :=
  let m := t.layout
  if end_ ≤ begin_ ∨ m.width < end_ ∨ begin_ % 256 ≠ 0 ∨ end_ % 256 ≠ 0 then
    .error (.outOfRange "TQ column slices require complete encoded rings")
  else do
    let width := end_ - begin_
    let gs := if m.columns then m.gs else min m.gs 256
    let groups := if m.columns then 0 else (width + gs - 1) / gs
    let scaleBytes := if m.columns then width * 2 else (m.rows * groups + 1) / 2
    let records ← readRange t.source 64 (m.rows * 8)
    let scales ← readRange t.source m.scales m.scaleBytes
    let descriptors := (List.range m.rows).map fun row => integer records (row * 8) 8
    let expected ← checkColumns m 0 descriptors
    if expected * 4 ≠ m.packedBytes then
      .error (.invalidArgument "TQ row payload range differs")
    else do
      let packedBytes := (descriptors.map fun d => width * bitsOf d / 8).sum
      let (rebased, words) ← copyColumns t begin_ width 0 descriptors
      let selectors := (List.range (m.rows * groups)).foldl (fun target i =>
        let source := i / groups * m.groups + (begin_ + i % groups * gs) / m.gs
        Bits.orByte target (i / 2) (UInt8.ofNat (selectorAt scales source <<< ((i &&& 1) * 4))))
        fun _ => 0
      let targetScales :=
        if m.columns then (scales.drop (begin_ * 2)).take scaleBytes
        else (List.range scaleBytes).map selectors
      let header := overwrite (overwrite t.header 0 magic05) 8 (littleEndian 4 5)
      let header := overwrite (overwrite header 16 (littleEndian 4 width)) 24 (littleEndian 4 gs)
      pure (overwrite header 28 (littleEndian 4 packedBytes) ++ rebased.flatMap (littleEndian 8)
        ++ targetScales ++ words)

end TqRows

end TyloQuant.Tq
