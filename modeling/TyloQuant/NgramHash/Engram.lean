import TyloQuant.Lib.Outcome
import TyloQuant.Lib.Rows

/-!
# N-gram hashes over calls

`EngramHashState` hashes the last tokens of each row of a batch, `n` of them at most, and keeps the
last `n - 1` for the next call.  A speculative window keeps the context it began with and a journal
of the tokens since, and can be taken back to any length.  `ngram_hashes` is the sibling that cuts
at the end-of-sequence token and takes its context as an argument.

Tokens and hash parameters are signed numbers; the mixing is that of 64-bit words.  Sizes that the
code keeps positive are natural numbers.
-/

namespace TyloQuant.NgramHash

open Lib

/-! ### Mixing -/

/-- The words of the last tokens, mixed up to a shift. -/
def rolling (tokens multipliers : Nat → Int) : Nat → BitVec 64
  | 0 => BitVec.ofInt 64 (tokens 0) * BitVec.ofInt 64 (multipliers 0)
  | shift + 1 =>
    rolling tokens multipliers shift ^^^
      BitVec.ofInt 64 (tokens (shift + 1)) * BitVec.ofInt 64 (multipliers (shift + 1))

/-- The signed word, reduced. -/
def reduced (word : BitVec 64) (modulus : Int) : Int :=
  let remainder := word.toInt.tmod modulus
  if remainder < 0 then remainder + modulus else remainder

/-! ### The state -/

def kDeadToken : Int := -1

structure EngramHashSnapshot where
  batch : Int := 0
  position : Int := 0
  context : List Int := []
deriving DecidableEq

structure EngramHashBatch where
  batch : Nat
  tokens : Nat
  layers : Nat
  columns : Nat
  values : List Int
deriving DecidableEq

structure Parameters where
  layerIds : List Int
  tableRows : List Int
  primes : List Int
  offsets : List Int
  multipliers : List Int
  tokenMap : List Int
deriving DecidableEq

structure EngramHashState where
  vocabulary : Int
  maxNgramSize : Nat
  heads : Nat
  padId : Int
  parameters : Parameters
  batch : Nat := 0
  position : Nat := 0
  context : List Int := []
  speculativeContext : Option (List Int) := none
  speculativeTokens : List Int := []
  speculativePosition : Int := -1
deriving DecidableEq

inductive EngramError where
  | invalidArgument (message : String)
  | runtimeError (message : String)
  | outOfRange (message : String)
deriving DecidableEq

namespace EngramHashState

def commitSpeculative (st : EngramHashState) : EngramHashState :=
  { st with speculativeContext := none, speculativePosition := -1, speculativeTokens := [] }

/-- `reset` of a batch that is positive. -/
def restarted (st : EngramHashState) (batch : Nat) : EngramHashState :=
  { st.commitSpeculative with
    batch
    position := 0
    context := List.replicate (batch * (st.maxNgramSize - 1)) st.padId }

def reset (st : EngramHashState) (batch : Int) : Except EngramError EngramHashState :=
  if batch ≤ 0 then .error (.invalidArgument "DeepSeek-V4.1 Engram batch must be positive")
  else .ok (st.restarted batch.toNat)

def snapshot (st : EngramHashState) : Except EngramError EngramHashSnapshot :=
  if st.batch = 0 ∨ st.speculativeContext.isSome then
    .error (.runtimeError "Engram session history is not committed")
  else .ok { batch := st.batch, position := st.position, context := st.context }

def restore (st : EngramHashState) (state : EngramHashSnapshot) :
    Except EngramError EngramHashState :=
  if state.batch ≤ 0 ∨ state.position < 0 ∨
      state.context.length ≠ state.batch.toNat * (st.maxNgramSize - 1) ∨
      ∃ value ∈ state.context, value < kDeadToken ∨ st.vocabulary ≤ value then
    .error (.invalidArgument "Engram session history is incompatible")
  else
    .ok { st.commitSpeculative with
      batch := state.batch.toNat
      position := state.position.toNat
      context := state.context }

def beginSpeculative (st : EngramHashState) : Except EngramError EngramHashState :=
  if st.batch = 0 ∨ st.position = 0 ∨ st.context = [] ∨ st.speculativeContext.isSome then
    .error (.runtimeError "invalid DeepSeek-V4.1 Engram speculative checkpoint")
  else
    .ok { st with
      speculativePosition := st.position
      speculativeContext := some st.context
      speculativeTokens := [] }

/-- One entry of the context that `rollback_speculative` rebuilds. -/
def rebuilt (st : EngramHashState) (saved : List Int) (kept drafted batch column : Nat) : Int :=
  let prefixLength := st.maxNgramSize - 1
  let index := kept + column
  if index < prefixLength then saved.getD (batch * prefixLength + index) 0
  else st.speculativeTokens.getD (batch * drafted + index - prefixLength) 0

def rollbackSpeculative (st : EngramHashState) (position : Int) :
    Except EngramError EngramHashState :=
  match st.speculativeContext with
  | none => .error (.runtimeError "DeepSeek-V4.1 Engram speculative checkpoint is unavailable")
  | some saved =>
    if st.speculativePosition < 0 then
      .error (.runtimeError "DeepSeek-V4.1 Engram speculative checkpoint is unavailable")
    else
      let position := if position < 0 then st.speculativePosition else position
      if position < st.speculativePosition ∨ st.position < position then
        .error (.outOfRange "Engram retained prefix is outside its checkpoint")
      else
        let kept := (position - st.speculativePosition).toNat
        let drafted := (st.position - st.speculativePosition).toNat
        if kept ≠ 0 ∧ st.speculativeTokens.length ≠ st.batch * drafted then
          .error (.runtimeError "Engram speculative token history is incomplete")
        else
          .ok { st.commitSpeculative with
            position := position.toNat
            context := (List.range st.batch).flatMap fun batch =>
              (List.range (st.maxNgramSize - 1)).map (st.rebuilt saved kept drafted batch) }

/-! ### Forward -/

/-- A token of the table, or the dead one for an image. -/
def compress (parameters : Parameters) (ids : List Int) (imageMask : Option (List Bool))
    (index : Nat) : Except EngramError Int :=
  let token := ids.getD index 0
  if token < 0 ∨ (parameters.tokenMap.length : Int) ≤ token then
    .error (.outOfRange "DeepSeek-V4.1 Engram token ID is outside the vocabulary")
  else
    .ok (if (imageMask.getD []).getD index false then kDeadToken
      else parameters.tokenMap.getD token.toNat 0)

/-- The tokens of a window are kept, row after row. -/
def journal (st : EngramHashState) (compressed : List Int) (tokens : Nat) : EngramHashState :=
  if st.speculativeContext.isSome then
    let previous := (st.position - st.speculativePosition).toNat
    { st with
      speculativeTokens := (List.range st.batch).flatMap fun bi =>
        part st.speculativeTokens (bi * previous) previous ++ part compressed (bi * tokens) tokens }
  else st

/-- A row with the tokens before it. -/
def history (st : EngramHashState) (compressed : List Int) (tokens bi : Nat) : List Int :=
  let prefixLength := st.maxNgramSize - 1
  part st.context (bi * prefixLength) prefixLength ++ part compressed (bi * tokens) tokens

/-- From a dead token on, the tokens further back are blocked. -/
def blockedTokens (padId : Int) : Bool → List Int → List Int
  | _, [] => []
  | blocked, source :: sources =>
    let blocked := blocked || source == kDeadToken
    (if blocked then padId else source) :: blockedTokens padId blocked sources

def ngramTokens (st : EngramHashState) (row : List Int) (token : Nat) : List Int :=
  blockedTokens st.padId false ((List.range st.maxNgramSize).map fun shift =>
    row.getD (st.maxNgramSize - 1 + token - shift) 0)

def columns (st : EngramHashState) : Nat := (st.maxNgramSize - 1) * st.heads

/-- The hash of one column of a token. -/
def hash (st : EngramHashState) (row : List Int) (token layer shift head : Nat) : Int :=
  let multipliers := fun k => st.parameters.multipliers.getD (layer * st.maxNgramSize + k) 0
  let tokens := fun k => (st.ngramTokens row token).getD k 0
  let bucket := layer * st.columns + ((shift - 1) * st.heads + head)
  reduced (rolling tokens multipliers shift) (st.parameters.primes.getD bucket 0) +
    st.parameters.offsets.getD bucket 0

/-- The columns of a token: the shifts from one on, and the heads of each. -/
def columnHashes (st : EngramHashState) (row : List Int) (token layer : Nat) : List Int :=
  (List.range (st.maxNgramSize - 1)).flatMap fun s =>
    (List.range st.heads).map fun head => st.hash row token layer (s + 1) head

/-- The hashes at their places. -/
def values (st : EngramHashState) (compressed : List Int) (batch tokens : Nat) : List Int :=
  (List.range st.parameters.layerIds.length).flatMap fun layer =>
    (List.range batch).flatMap fun bi =>
      (List.range tokens).flatMap fun token =>
        st.columnHashes (st.history compressed tokens bi) token layer

/-- A hash outside its table. -/
def Exceeds (st : EngramHashState) (compressed : List Int) (batch tokens : Nat) : Prop :=
  ∃ layer < st.parameters.layerIds.length, ∃ bi < batch, ∃ token < tokens,
    ∃ value ∈ st.columnHashes (st.history compressed tokens bi) token layer,
      value < 0 ∨ st.parameters.tableRows.getD layer 0 ≤ value

instance (st : EngramHashState) (compressed : List Int) (batch tokens : Nat) :
    Decidable (st.Exceeds compressed batch tokens) := by
  unfold Exceeds
  infer_instance

/-- The last tokens of each row stay as context. -/
def advance (st : EngramHashState) (compressed : List Int) (tokens : Nat) : EngramHashState :=
  { st with
    context := (List.range st.batch).flatMap fun bi =>
      part (st.history compressed tokens bi) tokens (st.maxNgramSize - 1)
    position := st.position + tokens }

/-- `forward`, from the tokens on. -/
def forwardTokens (st : EngramHashState) (compressed : List Int) (tokens : Nat) :
    Except EngramError EngramHashBatch × EngramHashState :=
  let st := st.journal compressed tokens
  if 32 < st.maxNgramSize then
    (.error (.runtimeError "DeepSeek-V4.1 Engram ngram size exceeds native bound"), st)
  else if st.Exceeds compressed st.batch tokens then
    (.error (.runtimeError "DeepSeek-V4.1 Engram hash exceeds table rows"), st)
  else
    (.ok
      { batch := st.batch
        tokens
        layers := st.parameters.layerIds.length
        columns := st.columns
        values := st.values compressed st.batch tokens },
      st.advance compressed tokens)

/-- The result of `forward`, and the state it leaves, also where it throws. -/
def forward (st : EngramHashState) (ids : Option (List Int)) (batch tokens pos0 : Int)
    (imageMask : Option (List Bool)) : Except EngramError EngramHashBatch × EngramHashState :=
  if ids.isNone ∨ batch ≤ 0 ∨ tokens ≤ 0 ∨ pos0 < 0 then
    (.error (.invalidArgument "invalid Engram hash input"), st)
  else
    let st := if pos0 = 0 then st.restarted batch.toNat else st
    if st.batch ≠ batch ∨ st.position ≠ pos0 ∨ st.context = [] then
      (.error (.runtimeError "DeepSeek-V4.1 Engram cache position disagrees"), st)
    else
      match (List.range (batch.toNat * tokens.toNat)).mapM
          (compress st.parameters (ids.getD []) imageMask) with
      | .error e => (.error e, st)
      | .ok compressed => st.forwardTokens compressed tokens.toNat

def preview (st : EngramHashState) (ids : Option (List Int)) (batch tokens pos0 : Int) :
    Except EngramError EngramHashBatch :=
  (st.commitSpeculative.forward ids batch tokens pos0 none).1

end EngramHashState

/-! ### `ngram_hashes` -/

structure NgramContext where
  batch : Int := 0
  tokens : List Int := []
deriving DecidableEq

structure NgramHashes where
  ids : List Int
  next : NgramContext
deriving DecidableEq

/-- The sizes and tables of `ngram_hashes`. -/
structure NgramParameters where
  ngram : Int
  heads : Int
  eos : Int
  multipliers : List Int
  offsets : List Int
  vocab : List Int

/-- The columns of one token, with the start of its segment. -/
def segmentHashes (p : NgramParameters) (row : List Int) (segment token : Nat) : List Int :=
  let tokens := fun shift : Nat =>
    if shift = 0 then row.getD token 0
    else if segment + shift ≤ token then row.getD (token - shift) 0 else p.eos
  (List.range (p.ngram.toNat - 1)).flatMap fun s =>
    (List.range p.heads.toNat).map fun head =>
      let h := s * p.heads.toNat + head
      reduced (rolling tokens (fun k => p.multipliers.getD k 0) (s + 1)) (p.vocab.getD h 0) +
        p.offsets.getD h 0

/-- The loop over a row with its context; the tokens of the context have no hashes. -/
def rowHashes (p : NgramParameters) (row : List Int) : List Nat → Nat → List Int
  | [], _ => []
  | token :: rest, segment =>
    (if p.ngram.toNat - 1 ≤ token then segmentHashes p row segment token else []) ++
      rowHashes p row rest (if row.getD token 0 = p.eos then token + 1 else segment)

/-- A row of the history of `ngram_hashes`. -/
def ngramRow (p : NgramParameters) (source : List Int) (b t : Nat) (context : NgramContext)
    (cache : Bool) (bi : Nat) : List Int :=
  let prefixLength := p.ngram.toNat - 1
  (if cache = true ∧ context.batch = b then part context.tokens (bi * prefixLength) prefixLength
    else List.replicate prefixLength p.eos) ++ part source (bi * t) t

def ngramHashes (p : NgramParameters) (source : List Int) (b t : Int) (context : NgramContext)
    (cache : Bool) : Except String NgramHashes :=
  if ¬(0 < b ∧ 0 < t ∧ 1 < p.ngram ∧ 0 < p.heads ∧ p.multipliers.length = p.ngram ∧
      p.offsets.length = (p.ngram - 1) * p.heads ∧ p.vocab.length = p.offsets.length) then
    .error "invalid ngram hash geometry"
  else if ¬∀ size ∈ p.vocab, 0 < size then .error "invalid ngram hash vocabulary"
  else if ¬(cache = false ∨ context.batch ≠ b ∨ context.tokens.length = b * (p.ngram - 1)) then
    .error "invalid ngram history"
  else
    let prefixLength := p.ngram.toNat - 1
    let history := ngramRow p source b.toNat t.toNat context cache
    .ok
      { ids := (List.range b.toNat).flatMap fun bi =>
          rowHashes p (history bi) (List.range (prefixLength + t.toNat)) 0
        next := if cache = true then
            { batch := b
              tokens := (List.range b.toNat).flatMap fun bi => part (history bi) t.toNat prefixLength }
          else context }

end TyloQuant.NgramHash
