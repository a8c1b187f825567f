import TyloQuant.Lib.Transition
import TyloQuant.ContinuousBatch.Batch

/-!
# The generations of a batch

The coroutine `generate` registers a request, runs `generate_sequence` over the operations of
`SequenceOps`, and releases the request when it ends, throws or is destroyed.  A resumption runs it
up to its next suspension; what its output says (`stopped`) and what the backend's own decode loop
(`generate_decode`) does in between is read from the script and from the action.

`stopped` never goes back to false in the source.  Here each check of it is a reply of its own, so
the runs of the source are among those of the model.
-/

namespace TyloQuant.ContinuousBatch

open Lib

variable {I : Type} [DecidableEq I]

/-! ### The operations of a sequence -/

/-- `output.stopped()`. -/
def stopped : Run I Bool := do
  let n ← ask
  pure (decide (n ≠ 0))

/-- `next_prefill_chunk`. -/
def nextPrefillChunk (total offset size : Nat) : Run I PrefillChunk := do
  if total ≤ offset ∨ size = 0 then Call.throw .invalidArgument
  else pure ⟨offset, min size (total - offset)⟩

def schedulePrefill (id : I) (chunk : PrefillChunk) : Run I PUnit :=
  setWork id fun work => { work with
    result := none, completedPrefill := none, prefill := some chunk }

def scheduleDecode (id : I) : Run I PUnit :=
  setWork id fun work => { work with result := none, decode := true }

def Work.ready (work : Work) : Bool := work.result.isSome || work.failure.isSome

def sample (id : I) : Run I Nat := do
  let work ← workAt id
  match work.failure, work.result with
  | some e, _ => Call.throw e
  | none, some token => pure token
  | none, none => Call.throw .badOptionalAccess

/-- The first sample was counted when the request was activated. -/
def acceptSample (id : I) (r : BatchRequest I) : Run I PUnit := do
  if r.produced ≠ 0 then
    let _ ← sample id
    askIf true
  else pure PUnit.unit

def accept (id : I) : Run I PUnit := do
  let work ← workAt id
  let r ← requestAt work.request
  acceptSample id r
  setRequest work.request fun r => { r with produced := r.produced + 1 }

/-- What the backend's own loop does with the operations it is given. -/
inductive Draft where
  | schedule
  | check
  | accepted (n : Nat)
deriving DecidableEq, Repr

def runDraft (id : I) : Draft → Run I PUnit
  | .schedule => scheduleDecode id
  | .check => do
      let _ ← sample id
      pure PUnit.unit
  | .accepted n => do
      let work ← workAt id
      setRequest work.request fun r => { r with produced := r.produced + n }

/-! ### `generate_sequence`

Each part returns where the coroutine is suspended next; `none` is its end. -/

/-- The backend's loop, up to its next suspension. -/
def draft (id : I) (drafts : List Draft) : Run I (Option Sequence) := do
  forEach (runDraft id) drafts
  let done ← ask
  if done ≠ 0 then pure none else pure (some .drafting)

/-- The head of the token loop. -/
def tokenLoop (id : I) : Run I (Option Sequence) := do
  if ← stopped then pure none
  else
    askIf true
    accept id
    if ← stopped then pure (some .delta)
    else
      scheduleDecode id
      pure (some .delta)

/-- What follows the prefill. -/
def enterDecode (ops : Ops) (id : I) (drafts : List Draft) : Run I (Option Sequence) := do
  let drafting ← askOr ops.generateDecode 0
  if drafting ≠ 0 then draft id drafts
  else
    let _ ← sample id
    tokenLoop id

/-- The head of the prefill loop. -/
def prefillLoop (ops : Ops) (id : I) (drafts : List Draft) (offset prefix_ : Nat) :
    Run I (Option Sequence) := do
  let work ← workAt id
  let r ← requestAt work.request
  if ← stopped then pure none
  else if offset < r.promptSize then
    let stop := if offset < prefix_ then min r.promptSize prefix_ else r.promptSize
    let chunk ← nextPrefillChunk stop offset ops.prefillChunkSize
    let chunk ← shorten (!ops.admission && ops.prefillChunk) chunk
    schedulePrefill id chunk
    pure (some (.prefilling offset prefix_ chunk))
  else enterDecode ops id drafts

/-- A resumption after the token loop has yielded. -/
def awaitToken (id : I) : Run I (Option Sequence) := do
  if ← stopped then pure none
  else
    let work ← workAt id
    if !work.ready then pure (some .decodeWait)
    else
      let _ ← sample id
      tokenLoop id

def awaitPrefill (id : I) (offset prefix_ : Nat) (chunk : PrefillChunk) :
    Run I (Option Sequence) := do
  if ← stopped then pure none
  else
    let work ← workAt id
    if !work.ready then pure (some (.prefilling offset prefix_ chunk))
    else
      let _ ← sample id
      pure (some (.progress (offset + (work.completedPrefill.getD chunk).count) prefix_))

def resumeSequence (ops : Ops) (id : I) (drafts : List Draft) : Sequence → Run I (Option Sequence)
  | .prefilling offset prefix_ chunk => awaitPrefill id offset prefix_ chunk
  | .progress offset prefix_ => prefillLoop ops id drafts offset prefix_
  | .delta => awaitToken id
  | .decodeWait => awaitToken id
  | .drafting => draft id drafts

/-! ### `generate` -/

/-- A coroutine that ended or threw releases its request. -/
def settle (id : I) (body : Run I (Option Sequence)) : Run I PUnit :=
  Call.tryCatch (do
      let next ← body
      match next with
      | none => release id
      | some q => Call.modify fun s => { s with sequences := s.sequences.insert id q })
    fun _ => release id

/-- `generate` up to its first suspension; `p` is the address of the request. -/
def generate (ops : Ops) (id : I) (p promptSize : Nat) (drafts : List Draft) : Run I PUnit := do
  if ← stopped then pure PUnit.unit
  else
    let s ← Call.get
    if (s.heap.lookup p).isSome then Call.blocked
    else if (s.requests.lookup id).isSome then Call.throw .invalidArgument
    else
      Call.modify fun s => { s with
        heap := s.heap.insert p { id, promptSize }
        requests := s.requests.insert id { request := p } }
      settle id do
        let reused ← askOr ops.prepare 0
        setRequest p fun r => { r with prefillOffset := reused }
        let prefix_ ← askOr ops.prefixTokens 0
        prefillLoop ops id drafts reused prefix_

/-- The coroutine of `id` runs up to its next suspension. -/
def resume (ops : Ops) (id : I) (drafts : List Draft) : Run I PUnit := do
  let s ← Call.get
  match s.sequences.lookup id with
  | none => Call.blocked
  | some q => do
      Call.modify fun s => { s with sequences := s.sequences.erase id }
      settle id (resumeSequence ops id drafts q)

/-- A suspended coroutine is destroyed. -/
def destroy (id : I) : Run I PUnit := do
  let s ← Call.get
  match s.sequences.lookup id with
  | none => Call.blocked
  | some _ => do
      Call.modify fun s => { s with sequences := s.sequences.erase id }
      release id

/-! ### Runs -/

/-- What the executor does with the batch; each comes with the replies of the backend. -/
inductive Action (I : Type) where
  | generate (id : I) (p promptSize : Nat) (drafts : List Draft)
  | resume (id : I) (drafts : List Draft)
  | destroy (id : I)
  | step (eligible : List I)
deriving DecidableEq, Repr

def Action.call (ops : Ops) : Action I → Run I PUnit
  | .generate id p promptSize drafts => ContinuousBatch.generate ops id p promptSize drafts
  | .resume id drafts => ContinuousBatch.resume ops id drafts
  | .destroy id => ContinuousBatch.destroy id
  | .step eligible => ContinuousBatch.step ops eligible

/-- An action runs to its end, also when it throws. -/
def Batch.act (ops : Ops) (s : Batch I) (a : Action I × List Reply) : Option (Batch I) :=
  (a.1.call ops { s with script := a.2 }).map Prod.snd

end TyloQuant.ContinuousBatch
