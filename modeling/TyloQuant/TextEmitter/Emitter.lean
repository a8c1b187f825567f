import TyloQuant.Lib.Incremental
import TyloQuant.Lib.Utf8

/-!
# Text emission

`TextEmitter` turns the byte pieces of a tokenizer into text.  It holds back what may become a
stop string and what may be an incomplete UTF-8 sequence, and stops at the first stop string that
it finds.  Byte strings are lists, and a range `value[i, limit)` is the list of its bytes.
-/

namespace TyloQuant.TextEmitter

open Lib (find find_some find_none find_append heldWidth)
open Lib.Utf8

/-! ### UTF-8 -/

structure Utf8Step where
  width : Nat
  valid : Bool
  truncated : Bool
deriving DecidableEq, Repr

/-- The width of a sequence and the bounds of its second byte, from its lead byte. -/
def leadByte (lead : UInt8) : Option (Nat × UInt8 × UInt8) :=
  if 0xC2 ≤ lead ∧ lead ≤ 0xDF then some (2, 0x80, 0xBF)
  else if 0xE0 ≤ lead ∧ lead ≤ 0xEF then
    some (3, if lead = 0xE0 then 0xA0 else 0x80, if lead = 0xED then 0x9F else 0xBF)
  else if 0xF0 ≤ lead ∧ lead ≤ 0xF4 then
    some (4, if lead = 0xF0 then 0x90 else 0x80, if lead = 0xF4 then 0x8F else 0xBF)
  else none

/-- The loop of `utf8_step` from byte `j` on. -/
def utf8Tail (width : Nat) (low high : UInt8) (j : Nat) : List UInt8 → Utf8Step
  | [] => if j < width then ⟨j, false, true⟩ else ⟨width, true, false⟩
  | next :: rest =>
    if j < width then
      if next < (if j = 1 then low else 0x80) ∨ (if j = 1 then high else 0xBF) < next then
        ⟨j, false, false⟩
      else utf8Tail width low high (j + 1) rest
    else ⟨width, true, false⟩

/-- `utf8_step` on the bytes from `i` to the limit; there is at least one. -/
def utf8Step : List UInt8 → Utf8Step
  | [] => ⟨0, false, true⟩
  | lead :: rest =>
    if lead < 0x80 then ⟨1, true, false⟩
    else match leadByte lead with
      | none => ⟨1, false, false⟩
      | some (width, low, high) => utf8Tail width low high 1 rest

/-- The loop of `append_utf8_prefix` over the bytes up to the limit: what it appends, and how
    much it consumes.  A turn consumes at least one byte. -/
def utf8Loop (atEnd : Bool) : Nat → List UInt8 → List UInt8 × Nat
  | 0, _ => ([], 0)
  | turns + 1, value =>
    if value = [] then ([], 0)
    else
      let step := utf8Step value
      if step.truncated && !atEnd then ([], 0)
      else
        let (out, consumed) := utf8Loop atEnd turns (value.drop step.width)
        ((if step.valid then value.take step.width else replacement) ++ out, step.width + consumed)

def appendUtf8Prefix (value : List UInt8) (limit : Nat) (atEnd : Bool) : List UInt8 × Nat :=
  utf8Loop atEnd (min limit value.length) (value.take limit)

end TextEmitter

/-! ### The emitter -/

structure TextEmitter where
  stops : List (List UInt8)
  output : List UInt8 := []
  pending : List UInt8 := []
  stopped : Bool := false
deriving DecidableEq, Repr

namespace TextEmitter

open Lib (find find_some find_none find_append heldWidth)
open Lib.Utf8

/-- The constructor; empty stop strings are dropped. -/
def make (stops : List (List UInt8)) : TextEmitter :=
  { stops := stops.filter fun stop => stop ≠ [] }

/-- `take`: what was emitted so far. -/
def take (e : TextEmitter) : List UInt8 × TextEmitter := (e.output, { e with output := [] })

def emitPrefix (e : TextEmitter) (limit : Nat) (atEnd : Bool) : TextEmitter :=
  let (out, consumed) := appendUtf8Prefix e.pending limit atEnd
  { e with output := e.output ++ out, pending := e.pending.drop consumed }

/-- The first place at which a stop string stands. -/
def stopPos (stops : List (List UInt8)) (value : List UInt8) : Option Nat :=
  stops.foldl (fun best stop =>
    match find stop value, best with
    | none, _ => best
    | some pos, none => some pos
    | some pos, some best => some (if pos < best then pos else best)) none

def append (e : TextEmitter) (piece : List UInt8) : TextEmitter :=
  if e.stopped then e
  else
    let e := { e with pending := e.pending ++ piece }
    match stopPos e.stops e.pending with
    | some pos => { e.emitPrefix pos true with pending := [], stopped := true }
    | none => e.emitPrefix (e.pending.length - heldWidth e.stops e.pending) false

def flush (e : TextEmitter) : TextEmitter := e.emitPrefix e.pending.length true

/-- The pieces of one output, appended and flushed.  Nothing reads `output`, so it does not
    matter when it is taken. -/
def emitAll (stops : List (List UInt8)) (pieces : List (List UInt8)) : TextEmitter :=
  (pieces.foldl append (make stops)).flush

end TextEmitter

end TyloQuant
