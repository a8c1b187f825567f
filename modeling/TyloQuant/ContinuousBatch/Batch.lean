import Mathlib.Data.List.Sort
import TyloQuant.Lib.Call
import TyloQuant.Lib.Table

/-!
# Continuous batching: the bookkeeping

`ContinuousBatch` groups the device operations of many generations.  Each call of `step` runs one
decode over the active rows or prefills some chunks; rows are retracted when the memory runs out,
and failures are isolated to the rows concerned or end all of them (`recover`).

The backend `Ops` is a template parameter.  Which of its optional operations exist, and which
failures it isolates, is the record `Ops`; what its operations return or throw is read from a
script, one reply for each call.  Requests are objects (`shared_ptr`) on a heap.  Metrics, timings,
token texts and the admission ratio are left out.
-/

namespace TyloQuant.ContinuousBatch

open Lib

/-! ### The data -/

structure PrefillChunk where
  offset : Nat
  count : Nat
deriving DecidableEq, Repr

/-- `BatchRequest`; `replayOffset` is `none` for -1. -/
structure BatchRequest (I : Type) where
  id : I
  promptSize : Nat
  produced : Nat := 0
  eligible : Bool := false
  replayOffset : Option Nat := none
  prefillOffset : Nat := 0
  cacheLength : Nat := 0
deriving DecidableEq, Repr

def BatchRequest.replayLength {I : Type} (r : BatchRequest I) : Nat :=
  r.promptSize + (r.produced - 1)

/-- What may be thrown: an `InferenceInputError`, the errors of this class, and the backend's. -/
inductive Failure where
  | inputError (contextLength : Bool)
  | outOfRange
  | badOptionalAccess
  | invalidArgument
  | runtimeError
  | backend (code : Nat)
deriving DecidableEq, Repr

/-- `Work`; a sample is its token. -/
structure Work where
  request : Nat
  prefill : Option PrefillChunk := none
  completedPrefill : Option PrefillChunk := none
  result : Option Nat := none
  failure : Option Failure := none
  decode : Bool := false
  active : Bool := false
  admitted : Bool := false
deriving DecidableEq, Repr

inductive Reply where
  | returned (n : Nat)
  | threw (e : Failure)
deriving DecidableEq, Repr

/-- The optional operations of the backend and its constants. -/
structure Ops where
  prefillChunkSize : Nat
  prefillTokenBudget : Nat
  admission : Bool := false
  prefillChunk : Bool := false
  prepare : Bool := false
  prefixTokens : Bool := false
  retract : Bool := false
  decodeHasCapacity : Bool := false
  readyDecode : Bool := false
  synchronize : Bool := false
  cacheLength : Bool := false
  prefillBatch : Bool := false
  prefillBatchLimit : Bool := false
  prefillBatchTokenBudget : Bool := false
  replayPrefill : Bool := false
  generateDecode : Bool := false
  isolateContextGrowthFailures : Bool := false
  isolatePrefillFailures : Bool := false
  recoverableFailure : Failure → Bool := fun _ => false

/-- Where the coroutine of a request stands; `offset` is that of `generate_sequence`. -/
inductive Sequence where
  | prefilling (offset prefix_ : Nat) (chunk : PrefillChunk)
  | progress (offset prefix_ : Nat)
  | delta
  | decodeWait
  | drafting
deriving DecidableEq, Repr

/-- A retraction: the row, and the rows that were left (ghost). -/
structure Retraction where
  victim : Nat
  eligible : Bool
  rows : List Nat
  eligibleRows : List Nat
deriving DecidableEq, Repr

/-- The tables of the batch at one moment. -/
structure View (I : Type) [DecidableEq I] where
  heap : Table Nat (BatchRequest I)
  requests : Table I Work
  active : List Nat

/-- The local variables of `step` that its handlers read. -/
structure Frame where
  prefillingOperation : Bool := false
  decodingOperation : Bool := false
deriving DecidableEq, Repr

/-- The private members, the coroutines of the requests, and the backend's replies.  Ghosts:
    `decodes` has the eligible rows at each decode, `retractions` what each retraction left, and
    `views` the tables after each retraction and each recovery. -/
structure Batch (I : Type) [DecidableEq I] where
  heap : Table Nat (BatchRequest I) := ∅
  requests : Table I Work := ∅
  active : List Nat := []
  decodeNext : Bool := true
  sequences : Table I Sequence := ∅
  frame : Frame := {}
  prefillWork : List I := []
  script : List Reply := []
  decodes : List (List Nat) := []
  retractions : List Retraction := []
  views : List (View I) := []

variable {I : Type} [DecidableEq I]

abbrev Run (I : Type) [DecidableEq I] (α : Type) : Type := Call Failure (Batch I) α

/-! ### Primitives -/

/-- One operation of the backend. -/
def ask : Run I Nat := fun s =>
  match s.script with
  | [] => none
  | .returned n :: script => some (.ok n, { s with script })
  | .threw e :: script => some (.error e, { s with script })

/-- An operation that reports a failure of one row in its result. -/
def askRow : Run I (Except Failure Nat) := fun s =>
  match s.script with
  | [] => none
  | .returned n :: script => some (.ok (.ok n), { s with script })
  | .threw e :: script => some (.ok (.error e), { s with script })

def askIf (present : Bool) : Run I PUnit := do
  if present then
    let _ ← ask
    pure PUnit.unit
  else pure PUnit.unit

/-- What the operation returns, where the backend has it. -/
def askOr (present : Bool) (default : Nat) : Run I Nat :=
  if present then ask else pure default

/-- `requests.at(id)`. -/
def workAt (id : I) : Run I Work := do
  let s ← Call.get
  match s.requests.lookup id with
  | none => Call.throw .outOfRange
  | some work => pure work

/-- A dereferenced `shared_ptr`. -/
def requestAt (p : Nat) : Run I (BatchRequest I) := do
  let s ← Call.get
  match s.heap.lookup p with
  | none => Call.blocked
  | some r => pure r

namespace Batch

def setWork (s : Batch I) (id : I) (f : Work → Work) : Batch I :=
  { s with requests := s.requests.adjust id f }

def setRequest (s : Batch I) (p : Nat) (f : BatchRequest I → BatchRequest I) : Batch I :=
  { s with heap := s.heap.adjust p f }

def isEligible (s : Batch I) (p : Nat) : Bool :=
  match s.heap.lookup p with
  | none => false
  | some r => r.eligible

def eligibleRows (s : Batch I) : List Nat := s.active.filter s.isEligible

def view (s : Batch I) : View I := ⟨s.heap, s.requests, s.active⟩

end Batch

def setWork (id : I) (f : Work → Work) : Run I PUnit := Call.modify fun s => s.setWork id f

def setRequest (p : Nat) (f : BatchRequest I → BatchRequest I) : Run I PUnit :=
  Call.modify fun s => s.setRequest p f

/-- A call for each element, in order. -/
def forEach {α : Type} (f : α → Run I PUnit) : List α → Run I PUnit
  | [] => pure PUnit.unit
  | x :: xs => do
      f x
      forEach f xs

/-! ### Admission -/

/-- The loop of `can_admit` over the requests that are admitted; `none` is a deferral. -/
def reserveAll : List Nat → Run I Bool
  | [] => pure true
  | _ :: rest => do
      let fits ← ask
      if fits = 0 then pure false else reserveAll rest

/-- The requests that hold memory: admitted, without a failure. -/
def Batch.occupants (s : Batch I) : List Nat :=
  s.requests.entries.filterMap fun e =>
    if e.2.admitted && e.2.failure.isNone then some e.2.request else none

def canAdmit (ops : Ops) (id : I) : Run I Bool := do
  if !ops.admission then pure true
  else
    let candidate ← workAt id
    if candidate.admitted then pure true
    else if candidate.failure.isSome then pure false
    else
      let s ← Call.get
      let reserved ← reserveAll s.occupants
      if !reserved then pure false
      else
        let fits ← ask
        if fits ≠ 0 then pure true
        else if s.occupants ≠ [] then pure false
        else
          -- a request that is alone must make progress
          let solitary ← ask
          if solitary ≠ 0 then pure true
          else
            let s ← Call.get
            askIf s.active.isEmpty
            askIf true
            let reclaimed ← ask
            if reclaimed ≠ 0 then pure true
            else
              setWork id fun work => { work with
                failure := some (.inputError true)
                prefill := none }
              pure false

/-! ### Retraction and recovery -/

/-- The fewest produced tokens first, then the longest prompts. -/
def Batch.retractsBefore (s : Batch I) (a b : Nat) : Bool :=
  match s.heap.lookup a, s.heap.lookup b with
  | some a, some b => decide (a.produced < b.produced) ||
      (decide (a.produced = b.produced) && decide (b.promptSize ≤ a.promptSize))
  | _, _ => true

/-- `retraction_order`; the sort is stable. -/
def Batch.retractionOrder (s : Batch I) : List Nat :=
  s.active.insertionSort fun a b => s.retractsBefore a b

/-- One retraction, after the backend's part. -/
def Batch.retracted (ops : Ops) (s : Batch I) (p : Nat) (r : BatchRequest I) : Batch I :=
  let s' := ({ s with active := s.active.filter fun q => q ≠ p }.setWork r.id fun work =>
    { work with
      active := false
      admitted := false
      prefill := some ⟨0, min ops.prefillChunkSize r.replayLength⟩ }).setRequest p fun r =>
    { r with eligible := false, replayOffset := some 0, cacheLength := 0 }
  { s' with
    retractions :=
      { victim := p, eligible := r.eligible, rows := s'.active, eligibleRows := s'.eligibleRows }
        :: s'.retractions
    views := s'.view :: s'.views }

def retractLoop (ops : Ops) : List Nat → Run I Bool
  | [] => pure false
  | p :: rest => do
      let r ← requestAt p
      let work ← workAt r.id
      if !work.decode then retractLoop ops rest
      else
        let s ← Call.get
        if r.eligible && s.eligibleRows.length ≤ 1 then retractLoop ops rest
        else
          let _ ← ask
          Call.modify fun s => s.retracted ops p r
          pure true

def retractOne (ops : Ops) : Run I Bool := do
  if !ops.retract then pure false
  else
    let s ← Call.get
    if s.active.length ≤ 1 then pure false
    else retractLoop ops s.retractionOrder

def Work.recovered (error : Failure) (work : Work) : Work :=
  { work with failure := some error, prefill := none, decode := false, active := false }

/-- Every request fails, and no row is left. -/
def Batch.recovered (s : Batch I) (error : Failure) : Batch I :=
  { s with
    requests := Table.mapVal (fun _ work => work.recovered error) s.requests
    active := [] }

def recover (error : Failure) : Run I PUnit := do
  Call.modify fun s => s.recovered error
  Call.modify fun s => { s with views := s.view :: s.views }
  let _ ← ask
  pure PUnit.unit

/-- The backend gives up what the request holds. -/
def withdraw (work : Work) : Run I PUnit := do
  if work.active then
    Call.modify fun s => { s with active := s.active.filter fun q => q ≠ work.request }
    askIf true
  else if work.failure.isNone then
    askIf true
    askIf true
    askIf true
  else pure PUnit.unit

/-- `release`, when the generation of a request ends or is destroyed.  It does not return its
    exception here: the coroutine is over in either case. -/
def release (id : I) : Run I PUnit := do
  let s ← Call.get
  match s.requests.lookup id with
  | none => pure PUnit.unit
  | some work =>
    Call.tryCatch (withdraw work)
      fun error => Call.tryCatch (recover error) fun _ => pure PUnit.unit
    Call.modify fun s => { s with requests := s.requests.erase id }

/-! ### One step -/

/-- The first loop of `step`. -/
def markEligible (eligible : List I) (p : Nat) : Run I PUnit := do
  let r ← requestAt p
  let work ← workAt r.id
  setRequest p fun r => { r with eligible := work.decode && r.id ∈ eligible }

/-- The request whose chunk is prefilled next. -/
def findPrefill (ops : Ops) : List I → Run I (Option I)
  | [] => pure none
  | id :: rest => do
      let s ← Call.get
      match (s.requests.lookup id).bind (·.prefill) with
      | none => findPrefill ops rest
      | some _ =>
        let admitted ← canAdmit ops id
        if admitted then pure (some id) else findPrefill ops rest

/-- `rows_ready`: no eligible row still has a sample to consume. -/
def Batch.rowsReady (s : Batch I) (eligible : List I) : Bool :=
  s.active.all fun p =>
    match s.heap.lookup p with
    | none => true
    | some r => r.id ∉ eligible ∨ (s.requests.lookup r.id).any (·.decode)

/-- The capacity loop in front of a decode; every turn but the last retracts a row. -/
def makeCapacity (ops : Ops) : Nat → Run I PUnit
  | 0 => pure PUnit.unit
  | turns + 1 => do
      let capacity ← ask
      if capacity ≠ 0 then pure PUnit.unit
      else
        let retracted ← retractOne ops
        if retracted then makeCapacity ops turns else pure PUnit.unit

def ensureCapacity (ops : Ops) : Run I PUnit := do
  if ops.decodeHasCapacity then
    let s ← Call.get
    makeCapacity ops (s.active.length + 1)
  else pure PUnit.unit

def advanceCache (ops : Ops) (p : Nat) : Run I PUnit := do
  if ops.cacheLength then
    let length ← ask
    setRequest p fun r => { r with cacheLength := length }
  else setRequest p fun r => { r with cacheLength := r.cacheLength + 1 }

/-- The row loop behind a decode. -/
def sampleRow (ops : Ops) (p : Nat) : Run I PUnit := do
  let r ← requestAt p
  if r.eligible then
    let _ ← workAt r.id
    let token ← ask
    setWork r.id fun work => { work with result := some token }
    advanceCache ops p
    setWork r.id fun work => { work with decode := false }
  else pure PUnit.unit

def decodeRows (ops : Ops) : Run I PUnit := do
  ensureCapacity ops
  Call.modify fun s => { s with
    frame := { s.frame with decodingOperation := true }
    decodes := s.eligibleRows :: s.decodes }
  let _ ← ask
  Call.modify fun s => { s with frame := { s.frame with decodingOperation := false } }
  let s ← Call.get
  forEach (sampleRow ops) s.active

/-- The backend chooses the length of a chunk, when it has the operation. -/
def shorten (present : Bool) (chunk : PrefillChunk) : Run I PrefillChunk := do
  if present then
    let count ← ask
    pure { chunk with count }
  else pure chunk

/-- The other chunks of a packed prefill. -/
def packRows (ops : Ops) (limit : Nat) :
    List I → List (I × PrefillChunk) → Int → Run I (List (I × PrefillChunk))
  | [], items, _ => pure items
  | id :: rest, items, remaining => do
      let s ← Call.get
      match s.requests.lookup id with
      | none => packRows ops limit rest items remaining
      | some work =>
        match work.prefill with
        | none => packRows ops limit rest items remaining
        | some chunk =>
          let r ← requestAt work.request
          if id ∈ s.prefillWork ∨ r.replayOffset.isSome ∨ limit ≤ items.length ∨
              remaining < chunk.count then
            packRows ops limit rest items remaining
          else
            let admitted ← canAdmit ops id
            if !admitted then packRows ops limit rest items remaining
            else
              setWork id fun work => { work with admitted := true }
              let chunk ← shorten ops.admission chunk
              Call.modify fun s => { s with prefillWork := s.prefillWork ++ [id] }
              packRows ops limit rest (items ++ [(id, chunk)]) (remaining - chunk.count)

/-- The packed rows, when the backend can pack and the first row is no replay. -/
def packItems (ops : Ops) (eligible : List I) (id : I) (chunk : PrefillChunk)
    (replaying : Bool) : Run I (List (I × PrefillChunk)) := do
  if !ops.prefillBatch then pure [(id, chunk)]
  else
    let budget : Nat := if ops.prefillBatchLimit then ops.prefillTokenBudget
      else ops.prefillChunkSize
    let budget' ← askOr ops.prefillBatchTokenBudget budget
    let limit ← askOr ops.prefillBatchLimit eligible.length
    if replaying then pure [(id, chunk)]
    else packRows ops limit eligible [(id, chunk)] ((min budget budget' : Nat) - chunk.count)

def askRows : Nat → Run I (List (Except Failure Nat))
  | 0 => pure []
  | n + 1 => do
      let row ← askRow
      let rows ← askRows n
      pure (row :: rows)

def packedSamples (ops : Ops) (items : List (I × PrefillChunk)) (replaying : Bool) :
    Run I (List (Except Failure Nat)) := do
  if ops.prefillBatch && !replaying && (1 < items.length || !ops.prefillBatchLimit) then
    let count ← ask
    askRows count
  else pure []

/-- The device operations of a prefill: a replay, a packed one, or a single one. -/
def prefillOperation (ops : Ops) (items : List (I × PrefillChunk)) (replaying : Bool) :
    Run I (List (Except Failure Nat)) := do
  if replaying && ops.replayPrefill then
    let _ ← ask
    pure [.ok 0]
  else
    let samples ← packedSamples ops items replaying
    if samples.isEmpty then
      let token ← ask
      pure [.ok token]
    else pure samples

/-- A row becomes active; `work` is what is set beside the flag. -/
def Batch.activate (s : Batch I) (id : I) (p : Nat) (f : Work → Work) : Batch I :=
  { s with active := s.active ++ [p] }.setWork id fun work => { f work with
    active := true, prefill := none }

/-- A replayed chunk. -/
def replayRow (ops : Ops) (id : I) (chunk : PrefillChunk) : Run I PUnit := do
  let work ← workAt id
  let p := work.request
  setRequest p fun r => { r with
    replayOffset := some (chunk.offset + chunk.count)
    cacheLength := chunk.offset + chunk.count }
  let r ← requestAt p
  if chunk.offset + chunk.count = r.replayLength then
    setRequest p fun r => { r with replayOffset := none }
    Call.modify fun s => s.activate id p fun work => work
  else setWork id fun work => { work with prefill := some ⟨chunk.offset + chunk.count,
    min ops.prefillChunkSize (r.replayLength - (chunk.offset + chunk.count))⟩ }

/-- One row of a prefill that is no replay. -/
def prefillRow (id : I) (chunk : PrefillChunk) (result : Except Failure Nat) : Run I PUnit := do
  let work ← workAt id
  let p := work.request
  match result with
  | .error e => do
      setWork id fun work => { work with failure := some e }
      askIf true
      setWork id fun work => { work with prefill := none }
  | .ok token => do
      setRequest p fun r => { r with prefillOffset := chunk.offset + chunk.count }
      let r ← requestAt p
      if chunk.offset + chunk.count = r.promptSize then
        setRequest p fun r => { r with cacheLength := r.promptSize }
        askIf true
        Call.modify fun s => s.activate id p fun work => { work with
          completedPrefill := some chunk, result := some token }
      else setWork id fun work => { work with
        completedPrefill := some chunk, result := some token, prefill := none }

def prefillRows (ops : Ops) (replaying : Bool) :
    List ((I × PrefillChunk) × Except Failure Nat) → Run I PUnit
  | [] => pure PUnit.unit
  | ((id, chunk), result) :: rest => do
      if replaying && result.toOption.isSome then replayRow ops id chunk
      else prefillRow id chunk result
      prefillRows ops replaying rest

def prefillChunks (ops : Ops) (eligible : List I) (id : I) : Run I PUnit := do
  askIf true
  Call.modify fun s => { s with
    frame := { s.frame with prefillingOperation := true }
    prefillWork := [id] }
  setWork id fun work => { work with admitted := true }
  let work ← workAt id
  let r ← requestAt work.request
  match work.prefill with
  | none => Call.throw .badOptionalAccess
  | some chunk =>
    let chunk ← shorten (ops.admission && r.replayOffset.isNone) chunk
    setWork id fun work => { work with prefill := some chunk }
    let replaying := r.replayOffset.isSome
    let items ← packItems ops eligible id chunk replaying
    let samples ← prefillOperation ops items replaying
    Call.modify fun s => { s with frame := { s.frame with prefillingOperation := false } }
    if samples.length ≠ items.length then Call.throw .runtimeError
    else
      prefillRows ops replaying (items.zip samples)
      askIf true

/-! ### Failures of a step -/

/-- A row of a prefill that failed as a whole. -/
def discardRow (error : Failure) (id : I) : Run I PUnit := do
  setWork id fun work => { work with failure := some error, prefill := none, decode := false }
  askIf true

/-- The same where rows may already have become active. -/
def discardActiveRow (error : Failure) (id : I) : Run I PUnit := do
  let work ← workAt id
  Call.modify fun s => { s with active := s.active.filter fun q => q ≠ work.request }.setWork id
    fun work => { work with
      failure := some error, prefill := none, decode := false, active := false }
  askIf true

/-- `recover(current_exception()); throw;`. -/
def recoverThrow (error : Failure) : Run I PUnit := do
  recover error
  Call.throw error

/-- A decode ran out of memory: a row is retracted, or the newest eligible one fails. -/
def shedRow (ops : Ops) (error : Failure) (otherwise : Run I PUnit) : Run I PUnit := do
  let retracted ← retractOne ops
  if retracted then pure PUnit.unit
  else
    let s ← Call.get
    match s.active.reverse.find? s.isEligible with
    | none => otherwise
    | some p =>
      let r ← requestAt p
      let _ ← workAt r.id
      Call.tryCatch (do
          Call.modify fun s => { s with active := s.active.filter fun q => q ≠ p }.setWork r.id
            fun work => { work with failure := some error, decode := false }
          askIf true
          setWork r.id fun work => { work with active := false })
        recoverThrow

/-- The last two handlers: failures that the backend calls recoverable, and all others. -/
def recoverStep (ops : Ops) (runDecode : Bool) (prefill : Option I) (error : Failure) :
    Run I PUnit := do
  if ops.recoverableFailure error then
    if !runDecode && prefill.isSome then
      let s ← Call.get
      forEach (discardActiveRow error) s.prefillWork
      askIf true
    else recover error
  else recoverThrow error

def isolatePrefill (ops : Ops) (runDecode : Bool) (prefill : Option I) (error : Failure) :
    Run I PUnit := do
  let s ← Call.get
  if ops.isolatePrefillFailures && s.frame.prefillingOperation && prefill.isSome then
    Call.tryCatch (do
        forEach (discardRow error) s.prefillWork
        askIf true)
      recoverThrow
  else recoverStep ops runDecode prefill error

def handle (ops : Ops) (runDecode : Bool) (prefill : Option I) (error : Failure) : Run I PUnit := do
  let s ← Call.get
  if ops.isolateContextGrowthFailures && s.frame.decodingOperation &&
      (error = .inputError true : Bool) then
    shedRow ops error (isolatePrefill ops runDecode prefill error)
  else isolatePrefill ops runDecode prefill error

/-- The decode or the prefill, whichever has its turn. -/
def operate (ops : Ops) (eligible : List I) (runDecode : Bool) (prefill : Option I) : Run I PUnit :=
  if runDecode then decodeRows ops
  else
    match prefill with
    | none => pure PUnit.unit
    | some id => prefillChunks ops eligible id

def stepBody (ops : Ops) (eligible : List I) (runDecode : Bool) (prefill : Option I) :
    Run I PUnit := do
  askIf ops.synchronize
  operate ops eligible runDecode prefill
  Call.modify fun s => { s with decodeNext := !s.decodeNext }

def readyDecode (ops : Ops) (runDecode : Bool) : Run I Bool := do
  if ops.readyDecode && runDecode then
    let ready ← ask
    pure (decide (ready ≠ 0))
  else pure runDecode

/-- `ContinuousBatch::step`. -/
def step (ops : Ops) (eligible : List I) : Run I PUnit := do
  Call.modify fun s => { s with frame := {}, prefillWork := [] }
  let s ← Call.get
  forEach (markEligible eligible) s.active
  let prefill ← findPrefill ops eligible
  let s ← Call.get
  let hasDecode := s.rowsReady eligible && s.eligibleRows ≠ []
  let runDecode ← readyDecode ops (hasDecode && (prefill.isNone || s.decodeNext))
  Call.tryCatch (stepBody ops eligible runDecode prefill) (handle ops runDecode prefill)

end TyloQuant.ContinuousBatch
