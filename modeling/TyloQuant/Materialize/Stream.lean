import TyloQuant.Lib.BitRange
import TyloQuant.Lib.Outcome

/-!
# Streaming a materialization plan

A plan lists the parts of the file to write: literal bytes, byte ranges of a source file, and bit
ranges of one that are packed one after the other.  `_stream_plan` writes any range of that file,
so that a run that was stopped can go on where it ended.

A handle is the bytes of its file; each read below is made at the position that the `seek` before
it (or the read before it) left.  Reports of progress are left out.
-/

namespace TyloQuant.Materialize

open Lib Bytes ByteFile

/-! ### Plans -/

inductive Segment where
  | literal (data : List UInt8)
  | source (source : String) (offset nbytes : Nat)
  | bitRanges (source : String) (ranges : List (Nat × Nat)) (bitCount : Nat)
deriving DecidableEq

def Segment.nbytes : Segment → Nat
  | .literal data => data.length
  | .source _ _ nbytes => nbytes
  | .bitRanges _ _ bitCount => (bitCount + 7) / 8

def sumSegments (segments : List Segment) : Nat := (segments.map Segment.nbytes).sum

structure MaterializationPlan where
  segments : List Segment
  totalBytes : Nat

/-- The open files, by name. -/
abbrev Sources := String → Option (List UInt8)

inductive StreamError where
  | valueError (message : String)
  | runtimeError (message : String)
  | keyError (source : String)
  | overflowError
deriving DecidableEq

/-- `seek` and `read`. -/
def readAt (bytes : List UInt8) (position count : Nat) : List UInt8 :=
  (bytes.drop position).take count

def lookup (sources : Sources) (source : String) : Except StreamError (List UInt8) :=
  match sources source with
  | none => .error (.keyError source)
  | some bytes => .ok bytes

/-- `to_bytes` with the lowest byte first. -/
def toBytes (n length : Nat) : Except StreamError (List UInt8) :=
  if n < 256 ^ length then .ok (littleEndian length n) else .error .overflowError

/-! ### Bit ranges -/

/-- What `_stream_bit_ranges` has written, and the bits that do not fill a byte yet. -/
structure BitStream where
  output : List UInt8 := []
  written : Nat := 0
  carry : Nat := 0
  carryBits : Nat := 0

/-- One round of the loop writes the whole bytes it can. -/
def emit (st : BitStream) (value takeBits : Nat) : Except StreamError BitStream :=
  let combined := st.carry ||| value <<< st.carryBits
  let totalBits := st.carryBits + takeBits
  let emitNbytes := totalBits / 8
  if emitNbytes = 0 then .ok { st with carry := combined, carryBits := totalBits }
  else
    (toBytes combined ((totalBits + 7) / 8)).map fun encoded =>
      { output := st.output ++ encoded.take emitNbytes
        written := st.written + emitNbytes
        carry := combined >>> (emitNbytes * 8)
        carryBits := totalBits - emitNbytes * 8 }

def maxSourceBytes (chunkBytes : Nat) : Nat := max 1 (min chunkBytes (1 <<< 20))

/-- `while remaining_bits`. -/
def readBits (source : String) (bytes : List UInt8) (chunkBytes readBit remainingBits : Nat)
    (st : BitStream) : Except StreamError BitStream :=
  if remainingBits = 0 then .ok st
  else
    let shift := readBit &&& 7
    let takeBits := min remainingBits (maxSourceBytes chunkBytes * 8 - shift)
    let byteOffset := readBit / 8
    let readNbytes := (shift + takeBits + 7) / 8
    let raw := readAt bytes byteOffset readNbytes
    if raw.length ≠ readNbytes then
      .error (.valueError s!"truncated {source} packed-bit source at {byteOffset}")
    else
      let value := ofLittleEndian raw >>> shift &&& (1 <<< takeBits - 1)
      emit st value takeBits >>=
        readBits source bytes chunkBytes (readBit + takeBits) (remainingBits - takeBits)
termination_by remainingBits
decreasing_by
  have hshift : readBit &&& 7 ≤ 7 := Nat.and_le_right
  have hmax : 1 ≤ maxSourceBytes chunkBytes := le_max_left _ _
  omega

/-- The loop over the ranges, with the place of the next one among the bits of the segment.  The
    code never asks for an end before the start, so that what is left of a range is no negative
    number. -/
def streamRanges (source : String) (bytes : List UInt8) (chunkBytes startBit endBit : Nat) :
    List (Nat × Nat) → Nat → BitStream → Except StreamError BitStream
  | [], _, st => .ok st
  | (sourceBit, bitCount) :: ranges, logicalBit, st =>
    let rangeEnd := logicalBit + bitCount
    if rangeEnd ≤ startBit then
      streamRanges source bytes chunkBytes startBit endBit ranges rangeEnd st
    else if endBit ≤ logicalBit then .ok st
    else
      let overlapStart := max startBit logicalBit
      let overlapEnd := min endBit rangeEnd
      let readBit := sourceBit + (overlapStart - logicalBit)
      readBits source bytes chunkBytes readBit (overlapEnd - overlapStart) st >>=
        streamRanges source bytes chunkBytes startBit endBit ranges rangeEnd

/-- The last byte, if the bits do not fill it. -/
def flush (st : BitStream) : BitStream :=
  if st.carryBits = 0 then st
  else
    { st with
      output := st.output ++ [UInt8.ofNat (st.carry &&& 0xff)]
      written := st.written + 1 }

def pad (st : BitStream) (requested : Nat) : BitStream :=
  if st.written < requested then
    { st with
      output := st.output ++ List.replicate (requested - st.written) 0
      written := requested }
  else st

/-- `_stream_bit_ranges`: what it writes, and how much it says it wrote. -/
def streamBitRanges (source : String) (ranges : List (Nat × Nat)) (bitCount : Nat)
    (bytes : List UInt8) (relativeStart relativeEnd chunkBytes : Nat) :
    Except StreamError (List UInt8 × Nat) :=
  let requested := relativeEnd - relativeStart
  if requested = 0 then .ok ([], 0)
  else do
    let st ← streamRanges source bytes chunkBytes (relativeStart * 8)
      (min (relativeEnd * 8) bitCount) ranges 0 {}
    let st := pad (flush st) requested
    if st.written ≠ requested then
      .error (.runtimeError
        s!"packed-bit materializer wrote {st.written} bytes, expected {requested}")
    else .ok (st.output, st.written)

/-! ### Plans -/

/-- The loop that copies a byte range of a source. -/
def copySource (source : String) (bytes : List UInt8) (chunkBytes position remaining : Nat)
    (output : List UInt8) : Except StreamError (List UInt8) :=
  if remaining = 0 then .ok output
  else
    let value := readAt bytes position (min chunkBytes remaining)
    if value.length = 0 then .error (.valueError s!"truncated {source} source at {position}")
    else
      copySource source bytes chunkBytes (position + value.length) (remaining - value.length)
        (output ++ value)
termination_by remaining
decreasing_by
  rename_i _ hvalue
  change ¬(readAt bytes position (min chunkBytes remaining)).length = 0 at hvalue
  omega

/-- What one segment writes of its bytes, and the number of them. -/
def streamSegment (sources : Sources) (chunkBytes relativeStart relativeEnd : Nat) :
    Segment → Except StreamError (List UInt8 × Nat)
  | .literal data =>
    .ok ((data.drop relativeStart).take (relativeEnd - relativeStart), relativeEnd - relativeStart)
  | .source source offset _ => do
      let bytes ← lookup sources source
      let output ← copySource source bytes chunkBytes (offset + relativeStart)
        (relativeEnd - relativeStart) []
      .ok (output, output.length)
  | .bitRanges source ranges bitCount => do
      let bytes ← lookup sources source
      streamBitRanges source ranges bitCount bytes relativeStart relativeEnd chunkBytes

/-- The loop over the segments. -/
def streamSegments (sources : Sources) (chunkBytes startOffset endOffset : Nat) :
    List Segment → Nat → List UInt8 × Nat → Except StreamError (List UInt8 × Nat)
  | [], _, st => .ok st
  | segment :: segments, logicalOffset, st =>
    let segmentEnd := logicalOffset + segment.nbytes
    if segmentEnd ≤ startOffset then
      streamSegments sources chunkBytes startOffset endOffset segments segmentEnd st
    else if endOffset ≤ logicalOffset then .ok st
    else
      let relativeStart := startOffset - logicalOffset
      let relativeEnd := min segment.nbytes (endOffset - logicalOffset)
      if relativeEnd - relativeStart = 0 then
        streamSegments sources chunkBytes startOffset endOffset segments segmentEnd st
      else
        streamSegment sources chunkBytes relativeStart relativeEnd segment >>= fun part =>
          streamSegments sources chunkBytes startOffset endOffset segments segmentEnd
            (st.1 ++ part.1, st.2 + part.2)

/-- How much of what is left a call writes. -/
def targetBytes (available : Nat) : Option Int → Nat
  | none => available
  | some length => min available length.toNat

/-- `_stream_plan`: what it writes, and how much it says it wrote. -/
def streamPlan (plan : MaterializationPlan) (sources : Sources) (startOffset : Int)
    (length : Option Int) (chunkBytes : Nat) : Except StreamError (List UInt8 × Nat) :=
  if startOffset < 0 ∨ plan.totalBytes < startOffset then
    .error (.valueError s!"start offset {startOffset} outside [0,{plan.totalBytes}]")
  else
    let target := targetBytes (plan.totalBytes - startOffset.toNat) length
    streamSegments sources chunkBytes startOffset.toNat (startOffset.toNat + target)
        plan.segments 0 ([], 0) >>= fun st =>
      if st.2 ≠ target then
        .error (.runtimeError s!"materializer wrote {st.2} bytes, expected {target}")
      else .ok st

end TyloQuant.Materialize
