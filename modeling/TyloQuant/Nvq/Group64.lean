import Mathlib.Tactic.Common
import TyloQuant.Lib.Bits

/-!
# Interleaved group records

The `group64` layout of an NVQ-JSC tensor keeps 24 columns in one 64-bit record: three segments of
20 bits, each with a 12-bit index, seven sign bits and their parity bit, and a 4-bit state on top.
`unpackGroup64` takes the records of some rows apart into the packed streams of the other layouts:
the words of eight whole records where the next vector starts a byte, elsewhere the bits of one
vector after the other.

A word of 64 bits is a number below `2 ^ 64`.  A tensor has less than `2 ^ 31` rows and columns, so
no product of their numbers overflows.
-/

namespace TyloQuant.Nvq

open Lib Bits

inductive NvqError where
  | runtimeError (message : String)
  | invalidArgument (message : String)
  | outOfRange (message : String)
  | overflowError (message : String)
deriving DecidableEq, Repr

/-- A memory with a place of some bytes for a field. -/
structure FieldTarget where
  data : Nat → UInt8
  bytes : Nat

/-- Anchors, states, indices and auxiliary bits. -/
structure FieldTargets where
  anchors : FieldTarget
  states : FieldTarget
  indices : FieldTarget
  aux : FieldTarget

def FieldTarget.clear (target : FieldTarget) : FieldTarget :=
  { target with data := put target.data 0 target.bytes fun _ => 0 }

def recordAt (records : List UInt64) (i : Nat) : Nat := (records.getD i 0).toNat

/-! ### Checks -/

/-- Bit `p` is the parity of bits `p` to `p + 7` of the record. -/
def parityOf (record : Nat) : Nat :=
  let parity := record ^^^ record >>> 4
  let parity := parity ^^^ parity >>> 2
  parity ^^^ parity >>> 1

def parityMask : Nat := 1 <<< 12 ||| 1 <<< 32 ||| 1 <<< 52

/-- The first loop: the parity bits that are wrong, and the states. -/
def stateStep (records : List UInt64) (s : Nat × (Nat → UInt8)) (i : Nat) : Nat × (Nat → UInt8) :=
  (s.1 ||| (parityOf (recordAt records i) &&& parityMask),
    orByte s.2 (i / 2) (UInt8.ofNat ((recordAt records i >>> 60) <<< ((i &&& 1) * 4))))

def padding (tail : Nat) : Nat := (1 <<< 60 - 1) ^^^ (1 <<< (tail * 20) - 1)

/-- The padding of the last record of each row is zero. -/
def checkPadding (records : List UInt64) (rows groups vectors : Nat) : Bool :=
  vectors % 3 = 0 ||
    (List.range rows).all fun row =>
      recordAt records ((row + 1) * groups - 1) &&& padding (vectors % 3) = 0

/-! ### Vectors -/

structure Streams where
  vectorIndex : Nat
  indices : Nat → UInt8
  aux : Nat → UInt8

/-- The three indices of a record. -/
def indexWord (record : Nat) : Nat :=
  (record &&& 4095) ||| (record >>> 20 &&& 4095) <<< 12 ||| (record >>> 40 &&& 4095) <<< 24

/-- The six sign fields of two records. -/
def signWord (a b : Nat) : Nat :=
  (a >>> 12 &&& 127) ||| (a >>> 32 &&& 127) <<< 7 ||| (a >>> 52 &&& 127) <<< 14 |||
    (b >>> 12 &&& 127) <<< 21 ||| (b >>> 32 &&& 127) <<< 28 ||| (b >>> 52 &&& 127) <<< 35

/-- Six indices take nine bytes: a word and the byte after it. -/
def putIndices (data : Nat → UInt8) (start a b : Nat) : Nat → UInt8 :=
  let stored := put data start 8 (word ((indexWord a ||| indexWord b <<< 36) % 2 ^ 64))
  put stored (start + 8) 1 (word (indexWord b >>> 28))

/-- 24 sign fields take 21 bytes. -/
def putSigns (data : Nat → UInt8) (start : Nat) (signs : Nat → Nat) : Nat → UInt8 :=
  let low := (signs 0 ||| signs 1 <<< 42) % 2 ^ 64
  let middle := (signs 1 >>> 22 ||| signs 2 <<< 20 ||| signs 3 <<< 62) % 2 ^ 64
  let high := signs 3 >>> 2
  put (put (put data start 8 (word low)) (start + 8) 8 (word middle)) (start + 16) 5 (word high)

/-- Eight whole records, when the next vector starts a byte. -/
def putEight (records : List UInt64) (first : Nat) (s : Streams) : Streams where
  vectorIndex := s.vectorIndex + 24
  indices := (List.range 4).foldl (fun data pair =>
    putIndices data (s.vectorIndex * 12 / 8 + pair * 9) (recordAt records (first + pair * 2))
      (recordAt records (first + pair * 2 + 1))) s.indices
  aux := putSigns s.aux (s.vectorIndex * 7 / 8) fun pair =>
    signWord (recordAt records (first + pair * 2)) (recordAt records (first + pair * 2 + 1))

/-- One vector. -/
def putOne (record : Nat) (s : Streams) (offset : Nat) : Streams :=
  let segment := record >>> (offset * 20) &&& 0xfffff
  let indexByte := s.vectorIndex * 12 / 8
  let index := (segment &&& 0xfff) <<< ((s.vectorIndex &&& 1) * 4)
  let signBit := s.vectorIndex * 7
  let shift := signBit &&& 7
  let value := (segment >>> 12 &&& 127) <<< shift
  let aux := orByte s.aux (signBit / 8) (UInt8.ofNat value)
  { vectorIndex := s.vectorIndex + 1
    indices := orByte (orByte s.indices indexByte (UInt8.ofNat index)) (indexByte + 1)
      (UInt8.ofNat (index >>> 8))
    aux := if 1 < shift then orByte aux (signBit / 8 + 1) (UInt8.ofNat (value >>> 8)) else aux }

/-- One row, from a group on. -/
def unpackRow (records : List UInt64) (groups vectors row group : Nat) (s : Streams) : Streams :=
  if group < groups then
    if s.vectorIndex &&& 7 = 0 ∧ group * 3 + 24 ≤ vectors then
      unpackRow records groups vectors row (group + 8)
        (putEight records (row * groups + group) s)
    else
      unpackRow records groups vectors row (group + 1)
        (((List.range 3).filter fun offset => group * 3 + offset < vectors).foldl
          (putOne (recordAt records (row * groups + group))) s)
  else s
termination_by groups - group

def unpackGroup64 (records : List UInt64) (rows groups vectors : Nat) (fields : FieldTargets) :
    Except NvqError FieldTargets :=
  let states := fields.states.clear
  let indices := fields.indices.clear
  let aux := fields.aux.clear
  let checked := (List.range records.length).foldl (stateStep records) (0, states.data)
  if checked.1 ≠ 0 then .error (.runtimeError "invalid NVQ-JSC group64 parity bit")
  else if !checkPadding records rows groups vectors then
    .error (.runtimeError "NVQ-JSC group64 padding must be zero")
  else
    let s := (List.range rows).foldl (fun s row => unpackRow records groups vectors row 0 s)
      { vectorIndex := 0, indices := indices.data, aux := aux.data }
    .ok { anchors := fields.anchors
          states := { states with data := checked.2 }
          indices := { indices with data := s.indices }
          aux := { aux with data := s.aux } }

/-! ### What the streams are to be -/

/-- The segment of a vector, in the row-major order of the vectors. -/
def segmentOf (records : List UInt64) (groups vectors v : Nat) : Nat :=
  recordAt records (v / vectors * groups + v % vectors / 3) >>> (v % vectors % 3 * 20)

def stateOf (records : List UInt64) (i : Nat) : Nat := recordAt records i >>> 60

def indexOf (records : List UInt64) (groups vectors v : Nat) : Nat :=
  segmentOf records groups vectors v % 2 ^ 12

def signsOf (records : List UInt64) (groups vectors v : Nat) : Nat :=
  (segmentOf records groups vectors v >>> 12) % 2 ^ 7

/-- Whether a field of eight bits has an odd number of ones. -/
def oddParity (n : Nat) : Bool := (List.range 8).foldl (fun odd j => odd ^^ n.testBit j) false

/-- A sign field of odd parity, or a padding bit that is set. -/
def Malformed (records : List UInt64) (rows groups vectors : Nat) : Prop :=
  (∃ i < records.length, ∃ offset < 3, oddParity (recordAt records i >>> (offset * 20 + 12)) = true) ∨
    vectors % 3 ≠ 0 ∧ ∃ row < rows, ∃ j, vectors % 3 * 20 ≤ j ∧ j < 60 ∧
      (recordAt records ((row + 1) * groups - 1)).testBit j = true

/-- A field holds exactly the numbers, packed, then zeros; nothing else has changed. -/
structure FieldTarget.Holds (target filled : FieldTarget) (w n : Nat) (value : Nat → Nat) :
    Prop where
  bytes : filled.bytes = target.bytes
  fields : ∀ v < n, field filled.data (w * v) w = value v
  zeros : ∀ i, w * n ≤ i → i < 8 * target.bytes → bit filled.data i = false
  frame : ∀ k, target.bytes ≤ k → filled.data k = target.data k

/-- The bytes of a packed stream. -/
def packed (items bits : Nat) : Nat := (items * bits + 7) / 8

end TyloQuant.Nvq
