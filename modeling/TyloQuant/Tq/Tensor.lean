import TyloQuant.Lib.Scatter
import TyloQuant.Tq.Layout

/-!
# TQ tensors

The components of a tensor, what is checked of them, the states of a row, the bytes of a tensor,
and how the padding of a last ring is cut off.  The arrays of a tensor are in memory, so that the
numbers of bits of its rows are far from 2^64, and are added as numbers.
-/

namespace TyloQuant.Tq

open Lib Bytes ByteFile

/-- Where runs of some lengths start that follow one another. -/
def cumulative : Nat → List Nat → List Nat
  | _, [] => []
  | start, l :: ls => start :: cumulative (start + l) ls

/-- The scales of the columns in half precision, or selectors for the subgroups of the rows. -/
inductive Scales where
  | columns (scales : List UInt16)
  | selectors (scales : List UInt8)
deriving DecidableEq, Repr

def Scales.isColumns : Scales → Bool
  | columns _ => true
  | selectors _ => false

def Scales.length : Scales → Nat
  | columns scales => scales.length
  | selectors scales => scales.length

/-- The anchor of a row, in half precision. -/
def anchorOf (descriptor : Nat) : Nat := (descriptor >>> 40) % 2 ^ 16

/-- `isfinite` of a number in half precision. -/
def finite16 (x : Nat) : Bool := x >>> 10 &&& 31 ≠ 31

/-- `x < 0` for a finite number in half precision: the negative zero is not below zero. -/
def negative16 (x : Nat) : Bool := 0x8000 < x

/-- `x <= 0`. -/
def nonpositive16 (x : Nat) : Bool := x = 0 ∨ 0x8000 ≤ x

/-- The components of a tensor, before they are checked. -/
structure Components where
  rows : Nat
  width : Nat
  gs : Int
  scales : Scales
  descriptors : List UInt64
  packed : List UInt8
deriving DecidableEq, Repr

namespace Components

variable (t : Components)

def columns : Bool := t.scales.isColumns

def compact : Bool := t.width % 256 ≠ 0

def groups : Nat := if t.columns then 0 else (t.width + t.gs.toNat - 1) / t.gs.toNat

def offset (d : UInt64) : Nat := d.toNat &&& if t.compact then 0x7ffffffe else 0xffffffff

/-- The words of a row. -/
def words (d : UInt64) : Nat := t.width * bitsOf d.toNat / 32

def lengths : List Nat := t.descriptors.map t.words

/-- `__post_init__`. -/
def check : Except TqError Unit :=
  if t.rows = 0 ∨ t.width = 0 ∨ t.width % 32 ≠ 0 then
    .error (.valueError "Expected positive rows and a width divisible by 32")
  else if t.compact ∧ ¬t.columns then
    .error (.valueError "Compact tails require shared column scales")
  else if ¬t.columns ∧ (t.gs < 16 ∨ 2 ^ 20 < t.gs ∨ t.gs.toNat &&& (t.gs.toNat - 1) ≠ 0) then
    .error (.valueError "Subgroup size must be a power of two in [16, 2**20]")
  else if t.descriptors.length ≠ t.rows then
    .error (.valueError "Row descriptor count differs")
  else if ¬t.compact ∧ t.descriptors.any (fun d => d.toNat &&& complement 0x00ffff07ffffffff ≠ 0)
      then .error (.valueError "Reserved row descriptor bits must be zero")
  else if t.descriptors.map t.offset ≠ cumulative 0 t.lengths ∨
      t.lengths.sum * 4 ≠ t.packed.length then
    .error (.valueError "Row offsets or packed payload length differ")
  else if 2 ^ 32 < t.lengths.sum then
    .error (.valueError "Packed tensor exceeds 32-bit word offsets")
  else if t.compact ∧ (t.lengths.any (· &&& 1 ≠ 0) ∨ 2 ^ 31 ≤ t.lengths.sum) then
    .error (.valueError "Compact rows require even word offsets below 2**31")
  else if t.compact ∧
      t.descriptors.any (fun d => 1 <<< (16 - bitsOf d.toNat) ≤ tailSeed d.toNat) then
    .error (.valueError "Invalid compact tail boundary state")
  else if t.scales.length ≠ (if t.columns then t.width else (t.rows * t.groups + 1) / 2) then
    .error (.valueError "Scale payload length differs")
  else if t.descriptors.any (fun d => !finite16 (anchorOf d.toNat)) ∨
      t.descriptors.any (fun d => negative16 (anchorOf d.toNat)) then
    .error (.valueError "Row anchors must be finite and nonnegative")
  else match t.scales with
    | .selectors _ => .ok ()
    | .columns scales =>
      if scales.any (fun s => !finite16 s.toNat) ∨ scales.any (fun s => nonpositive16 s.toNat) then
        .error (.valueError "Column scales must be finite and positive")
      else .ok ()

end Components

/-- A tensor: components that passed the checks. -/
structure TQTensor extends Components where
  checked : toComponents.check = .ok ()
deriving DecidableEq

/-- The constructor of a tensor. -/
def TQTensor.make (t : Components) : Except TqError TQTensor :=
  match h : t.check with
  | .error e => .error e
  | .ok () => .ok ⟨t, h⟩

/-! ### States -/

/-- The 16 bits at a place, out of three bytes. -/
def word16 (stream : Nat → UInt8) (pos : Nat) : Nat :=
  ((stream (pos / 8)).toNat ||| (stream (pos / 8 + 1)).toNat <<< 8
    ||| (stream (pos / 8 + 2)).toNat <<< 16) >>> (pos % 8) &&& 65535

/-- `unpack_states`: the states of all rings, whose rows must have 32 bytes for each bit. -/
def unpackStates (packed : List UInt8) (bits : Nat) : List Nat :=
  (List.range (packed.length / (32 * bits))).flatMap fun r =>
    (List.range 256).map fun i =>
      word16 (fun j => byte packed (32 * bits * r + if j < 32 * bits then j else j - 32 * bits))
        ((255 - i) * bits)

/-- `raw.reshape(-1, size)`. -/
def reshape (raw : List UInt8) (size : Nat) : Except TqError (List UInt8) :=
  if raw.length % size ≠ 0 then .error (.valueError "cannot reshape array") else .ok raw

namespace TQTensor

variable (t : TQTensor)

/-- The exact states of one row. -/
def states (row : Nat) : Except TqError (List Nat) :=
  if t.rows ≤ row then .error .indexError
  else
    let descriptor := t.descriptors.getD row 0
    let bits := bitsOf descriptor.toNat
    let raw := (t.packed.drop (t.offset descriptor * 4)).take (t.width * bits / 8)
    if !t.compact then do
      let rings ← reshape raw (32 * bits)
      pure (unpackStates rings bits)
    else
      let full := t.width / 256
      let tail := t.width % 256
      let seed := tailSeed descriptor.toNat
      let stream := raw.drop (full * 32 * bits) ++
        [UInt8.ofNat (seed &&& 255), UInt8.ofNat (seed >>> 8)]
      do
        let rings ← reshape (raw.take (full * 32 * bits)) (32 * bits)
        pure (unpackStates rings bits
          ++ (List.range tail).map fun i => word16 (byte stream) ((tail - 1 - i) * bits))

def anchors : List Nat := t.descriptors.map fun d => anchorOf d.toNat

/-! ### Bytes -/

def toBytes : Except TqError (List UInt8) :=
  if 2 ^ 32 ≤ t.rows ∨ 2 ^ 32 ≤ t.width ∨ t.gs < 0 ∨ 2 ^ 32 ≤ t.gs ∨ 2 ^ 32 ≤ t.packed.length then
    .error .structError
  else .ok ((if t.compact then magic06 else magic05)
    ++ [if t.compact then 6 else 5, t.rows, t.width, t.columns.toNat, t.gs.toNat,
        t.packed.length].flatMap (littleEndian 4)
    ++ List.replicate 32 0
    ++ t.descriptors.flatMap (fun d => littleEndian 8 d.toNat)
    ++ (match t.scales with
        | .columns scales => scales.flatMap fun s => littleEndian 2 s.toNat
        | .selectors scales => scales)
    ++ t.packed)

def fromBytes (payload : List UInt8) : Except TqError TQTensor :=
  if payload.length < 64 then .error (.valueError "Truncated Trellis header")
  else
    let magic := payload.take 8
    let version := integer payload 8 4
    let rows := integer payload 12 4
    let width := integer payload 16 4
    let columns := integer payload 20 4
    let gs := integer payload 24 4
    let nbytes := integer payload 28 4
    let compact := magic = magic06 ∧ version = 6
    if ¬(compact ∨ (magic = magic05 ∧ version = 5)) ∨ (columns ≠ 0 ∧ columns ≠ 1) then
      .error (.valueError "Invalid TQ header")
    else if rows = 0 ∨ width = 0 ∨ width % 32 ≠ 0 ∨ (compact ∧ (columns = 0 ∨ width % 256 = 0)) ∨
        (¬compact ∧ width % 256 ≠ 0) ∨ (columns = 0 ∧ gs = 0) then
      .error (.valueError "Invalid Trellis geometry")
    else if ((payload.drop 32).take 32).any (· ≠ 0) then
      .error (.valueError "Fixed-book tensors require zero polynomial coefficients")
    else
      let scaleBytes := if columns ≠ 0 then width * 2 else (rows * ((width + gs - 1) / gs) + 1) / 2
      let end_ := 64 + rows * 8
      if payload.length ≠ end_ + scaleBytes + nbytes then
        .error (.valueError "Trellis payload length differs")
      else make
        { rows, width, gs
          scales :=
            if columns ≠ 0 then
              .columns ((List.range width).map fun i =>
                UInt16.ofNat (integer payload (end_ + 2 * i) 2))
            else .selectors ((payload.drop end_).take scaleBytes)
          descriptors :=
            (List.range rows).map fun r => UInt64.ofNat (integer payload (64 + 8 * r) 8)
          packed := (payload.drop (end_ + scaleBytes)).take nbytes }

/-! ### Compact tails -/

/-- The bits of a descriptor that hold the boundary state. -/
def scatterSeed (seed : Nat) : Nat :=
  (seed &&& 31) <<< 35 ||| (seed >>> 5 &&& 255) <<< 56 ||| (seed >>> 13 &&& 1)
    ||| (seed >>> 14 &&& 1) <<< 31

section CompactTail

variable (logicalWidth : Nat)

/-- The bytes of a row of the source. -/
def raw (row : Nat) (j : Nat) : UInt8 :=
  byte t.packed (t.offset (t.descriptors.getD row 0) * 4 + j)

/-- The last ring of a row of `k` bits. -/
def lastRing (k row : Nat) (j : Nat) : UInt8 := t.raw row (logicalWidth / 256 * 32 * k + j)

/-- The boundary state: the bits that the last ring has beyond its first state. -/
def boundarySeed (k row : Nat) : Nat :=
  let ring := t.lastRing logicalWidth k row
  let at_ := 255 * k / 8
  let state := ((ring (at_ % (32 * k))).toNat ||| (ring ((at_ + 1) % (32 * k))).toNat <<< 8
    ||| (ring ((at_ + 2) % (32 * k))).toNat <<< 16) >>> (255 * k % 8) &&& 65535
  state >>> k

/-- The bytes of a row that are kept. -/
def kept (k row : Nat) (j : Nat) : UInt8 :=
  let full := logicalWidth / 256
  let tail := logicalWidth % 256
  if j < full * 32 * k then t.raw row j
  else t.lastRing logicalWidth k row ((256 - tail) * k / 8 + (j - full * 32 * k))

/-- `compact_tail`.  The array that `np.empty` gives has any contents. -/
def compactTail (empty : Nat → UInt8) : Except TqError TQTensor :=
  if logicalWidth = t.width then .ok t
  else if t.compact ∨ ¬t.columns ∨ logicalWidth = 0 ∨ logicalWidth % 32 ≠ 0 ∨
      logicalWidth % 256 = 0 ∨ t.width ≠ (logicalWidth + 255) / 256 * 256 then
    .error (.valueError "Invalid compact tail source geometry")
  else
    let lengths := t.descriptors.map fun d => logicalWidth * bitsOf d.toNat / 32
    if lengths.any (· &&& 1 ≠ 0) then
      .error (.valueError "Compact rows require even word lengths")
    else if 2 ^ 31 ≤ lengths.sum then
      .error (.valueError "Compact row offsets exceed their storage limit")
    else
      let offsets := cumulative 0 lengths
      let bits := fun row => bitsOf (t.descriptors.getD row 0).toNat
      -- The rows of one width are copied together.
      let ids := (List.range' 1 8).flatMap fun k =>
        (List.range t.rows).filter fun row => bits row = k
      let descriptors := Scatter.updateAll
        (fun row d => d ||| UInt64.ofNat (scatterSeed (t.boundarySeed logicalWidth (bits row) row)))
        (fun row => UInt64.ofNat
          ((t.descriptors.getD row 0).toNat &&& 0x00ffff0700000000 ||| offsets.getD row 0)) ids
      let output := Scatter.putAll (fun row => offsets.getD row 0 * 4)
        (fun row => logicalWidth * bits row / 8)
        (fun row => t.kept logicalWidth (bits row) row) empty ids
      make
        { rows := t.rows
          width := logicalWidth
          gs := t.gs
          scales := match t.scales with
            | .columns scales => .columns (scales.take logicalWidth)
            | .selectors scales => .selectors scales
          descriptors := (List.range t.rows).map descriptors
          packed := (List.range (lengths.sum * 4)).map output }

end CompactTail

end TQTensor

end TyloQuant.Tq
