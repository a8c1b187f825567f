import TyloQuant.Lib.Table
import TyloQuant.Lib.Transition

/-!
# The cache of session snapshots

`SessionSnapshotCache` keeps, for each session, the states of its last turns.  Three limits bound
it: the number of sessions, the number of snapshots of a session, and the bytes of all snapshots.
What is left out: the metrics, and the backend data of a state, which no operation reads.
-/

namespace TyloQuant.SessionSnapshots

open Lib

/-- What a `State` exposes to the cache, and the data it owns. -/
structure State (D : Type) where
  tokens : List Int
  bytes : Nat
  data : D
deriving DecidableEq, Repr

structure Entry (D : Type) where
  state : State D
  lastUsed : Nat
deriving DecidableEq, Repr

abbrev History (D : Type) := List (Entry D)

/-- `SessionSnapshotCache`, with the fields of its configuration. -/
structure Cache (D : Type) where
  maxSessions : Nat := 4
  maxSnapshotsPerSession : Nat := 4
  maxBytes : Nat := 2 * 1024 * 1024 * 1024
  states : Table String (History D) := ∅
  bytes : Nat := 0
  clock : Nat := 0

/-- How an `unordered_map` of histories is walked: in any order, which may change with the map. -/
structure Iteration (D : Type) where
  order : Table String (History D) → List String
  perm : ∀ t, (order t).Perm t.keys

/-- The walk that `Table` itself suggests. -/
def Iteration.plain (D : Type) : Iteration D := ⟨fun t => t.keys, fun _ => List.Perm.refl _⟩

variable {D : Type}

/-- One step of a scan for a victim. -/
def older {α : Type} (victim : Option (α × Nat)) (candidate : α × Nat) : Option (α × Nat) :=
  match victim with
  | none => some candidate
  | some v => if candidate.2 < v.2 then some candidate else some v

/-- The scans for a victim: the first candidate with the smallest stamp. -/
def oldest {α : Type} (candidates : List (α × Nat)) : Option (α × Nat) :=
  candidates.foldl older none

/-- All snapshots in the order of a walk: session, index and entry. -/
def walk (it : Iteration D) (states : Table String (History D)) : List (String × Nat × Entry D) :=
  (it.order states).flatMap fun session =>
    ((states.lookup session).getD []).zipIdx.map fun x => (session, x.2, x.1)

namespace Cache

def enabled (c : Cache D) : Bool :=
  decide (c.maxSessions > 0) && decide (c.maxSnapshotsPerSession > 0) && decide (c.maxBytes > 0)

/-! ### Removing -/

def eraseSnapshot (c : Cache D) (session : String) (index : Nat) : Cache D :=
  match c.states.lookup session with
  | none => c
  | some history =>
    match history[index]? with
    | none => c
    | some e =>
      let rest := history.eraseIdx index
      { c with
        bytes := c.bytes - e.state.bytes
        states := if rest.isEmpty then c.states.erase session
          else c.states.insert session rest }

structure CloseResult where
  snapshots : Nat := 0
  bytes : Nat := 0
deriving DecidableEq, Repr

/-- Bytes of the snapshots of one session. -/
def historyBytes (history : History D) : Nat := (history.map fun e => e.state.bytes).sum

def close (c : Cache D) (session : String) : Cache D × CloseResult :=
  match c.states.lookup session with
  | none => (c, {})
  | some history =>
    ({ c with
        bytes := c.bytes - historyBytes history
        states := c.states.erase session },
      { snapshots := history.length, bytes := historyBytes history })

def clear (c : Cache D) : Cache D := { c with states := ∅, bytes := 0 }

/-! ### Evicting -/

/-- The least recently used snapshot of a history, other than the protected one. -/
def historyVictim (protectedClock : Nat) (history : History D) : Option (Nat × Nat) :=
  oldest ((history.zipIdx.filter fun x => decide (x.1.lastUsed ≠ protectedClock)).map
    fun x => (x.2, x.1.lastUsed))

/-- The loop of `evict_history_to_limit`. -/
def evictHistoryLoop (session : String) (protectedClock : Nat) : Nat → Cache D → Cache D
  | 0, c => c
  | fuel + 1, c =>
    match c.states.lookup session with
    | none => c
    | some history =>
      if history.length > c.maxSnapshotsPerSession then
        match historyVictim protectedClock history with
        | none => c
        | some victim =>
          evictHistoryLoop session protectedClock fuel (c.eraseSnapshot session victim.1)
      else c

def evictHistoryToLimit (c : Cache D) (session : String) (protectedClock : Nat) : Cache D :=
  evictHistoryLoop session protectedClock ((c.states.lookup session).getD []).length c

/-- When a session was last used: the newest stamp of its snapshots. -/
def sessionLastUsed (history : History D) : Nat :=
  history.foldl (fun newest e => max newest e.lastUsed) 0

/-- The least recently used session, other than the protected one. -/
def sessionVictim (it : Iteration D) (protectedSession : String)
    (states : Table String (History D)) : Option (String × Nat) :=
  oldest (((it.order states).filter fun s => decide (s ≠ protectedSession)).map
    fun s => (s, sessionLastUsed ((states.lookup s).getD [])))

/-- The first loop of `evict_to_budget`. -/
def evictSessions (it : Iteration D) (protectedSession : String) : Nat → Cache D → Cache D
  | 0, c => c
  | fuel + 1, c =>
    if c.states.keys.length > c.maxSessions then
      match sessionVictim it protectedSession c.states with
      | none => c
      | some victim => evictSessions it protectedSession fuel (c.close victim.1).1
    else c

/-- The least recently used snapshot of all, other than the protected one. -/
def snapshotVictim (it : Iteration D) (protectedSession : String) (protectedClock : Nat)
    (states : Table String (History D)) : Option ((String × Nat) × Nat) :=
  oldest (((walk it states).filter fun x =>
    !(decide (x.1 = protectedSession) && decide (x.2.2.lastUsed = protectedClock))).map
      fun x => ((x.1, x.2.1), x.2.2.lastUsed))

/-- The second loop of `evict_to_budget`. -/
def evictBytes (it : Iteration D) (protectedSession : String) (protectedClock : Nat) :
    Nat → Cache D → Cache D
  | 0, c => c
  | fuel + 1, c =>
    if c.bytes > c.maxBytes then
      match snapshotVictim it protectedSession protectedClock c.states with
      | none => c
      | some victim =>
        evictBytes it protectedSession protectedClock fuel
          (c.eraseSnapshot victim.1.1 victim.1.2)
    else c

def evictToBudget (it : Iteration D) (c : Cache D) (protectedSession : String)
    (protectedClock : Nat) : Cache D :=
  let c₁ := evictSessions it protectedSession c.states.keys.length c
  evictBytes it protectedSession protectedClock (Table.flat c₁.states).length c₁

/-- `trim`, with the bytes it released. -/
def trim (it : Iteration D) (c : Cache D) (targetBytes : Nat) : Cache D × Nat :=
  let c₁ := evictToBudget it { c with maxBytes := min c.maxBytes targetBytes } "" 0
  ({ c₁ with maxBytes := c.maxBytes }, c.bytes - c₁.bytes)

def setLimit (it : Iteration D) (c : Cache D) (maxBytes : Nat) : Cache D × Nat :=
  trim it { c with maxBytes := maxBytes } maxBytes

/-! ### Storing -/

structure StoreResult (D : Type) where
  state : State D
  sessionSnapshots : Nat
  totalBytes : Nat
deriving DecidableEq, Repr

/-- Put an entry into the history of its session, over the first snapshot that is the same. -/
def putEntry (c : Cache D) (session : String) (entry : Entry D) (same : State D → Bool) : Cache D :=
  let history := (c.states.lookup session).getD []
  match history.findIdx? fun saved => same saved.state with
  | some index =>
    { c with
      bytes := c.bytes - ((history[index]?).map fun e => e.state.bytes).getD 0
      states := c.states.insert session (history.set index entry) }
  | none => { c with states := c.states.insert session (history ++ [entry]) }

/-- The snapshot of a session that has a stamp. -/
def stamped (c : Cache D) (session : String) (clock : Nat) : Option (Entry D) :=
  ((c.states.lookup session).getD []).find? fun e => decide (e.lastUsed = clock)

/-- `store`; `same` compares a saved state with the new one. -/
def store (it : Iteration D) (c : Cache D) (session : String) (state : State D)
    (same : State D → State D → Bool) : Except String (Cache D × Option (StoreResult D)) :=
  if session = "" ∨ c.enabled = false ∨ state.bytes > c.maxBytes then .ok (c, none)
  else
    let protectedClock := c.clock + 1
    let c₁ := putEntry { c with clock := c.clock + 1 } session ⟨state, protectedClock⟩
      fun saved => same saved state
    match c₁.stamped session protectedClock with
    | none => .error "stored session snapshot is unavailable"
    | some stored =>
      let c₂ := evictHistoryToLimit { c₁ with bytes := c₁.bytes + stored.state.bytes }
        session protectedClock
      let c₃ := evictToBudget it c₂ session protectedClock
      match c₃.states.lookup session with
      | none => .error "unordered_map::at"
      | some history =>
        match c₃.stamped session protectedClock with
        | none => .error "protected session snapshot was evicted"
        | some saved =>
          .ok (c₃, some
            { state := saved.state
              sessionSnapshots := history.length
              totalBytes := c₃.bytes })

/-- Snapshots with new stamps, counted on from a clock. -/
def restamp (clock : Nat) : History D → History D
  | [] => []
  | e :: rest => { e with lastUsed := clock + 1 } :: restamp (clock + 1) rest

/-- `fork`, with the number of snapshots that were copied and stayed. -/
def fork (it : Iteration D) (c : Cache D) (source target : String) : Cache D × Nat :=
  if source = "" ∨ target = "" ∨ source = target ∨ c.enabled = false then (c, 0)
  else match c.states.lookup source with
    | none => (c, 0)
    | some copied =>
      let c₁ := (c.close target).1
      let protectedClock := if copied.isEmpty then 0 else c₁.clock + copied.length
      let c₂ : Cache D := { c₁ with
        clock := c₁.clock + copied.length
        bytes := c₁.bytes + historyBytes copied
        states := c₁.states.insert target (restamp c₁.clock copied) }
      let c₃ := evictToBudget it (evictHistoryToLimit c₂ target protectedClock) target
        protectedClock
      (c₃, ((c₃.states.lookup target).getD []).length)

/-- `record_hit`.  `current` tells whether the match still points at the snapshot with its
    index. -/
def recordHit (c : Cache D) (session : String) (index : Nat) (current : Bool) :
    Except String (Cache D) :=
  match c.states.lookup session with
  | none => .error "session snapshot match is stale"
  | some history =>
    match history[index]? with
    | none => .error "session snapshot match is stale"
    | some e =>
      if current then
        .ok { c with
          clock := c.clock + 1
          states := c.states.insert session
            (history.set index { e with lastUsed := c.clock + 1 }) }
      else .error "session snapshot match is stale"

/-! ### Matching -/

/-- What `find_best` has selected so far. -/
structure Selection where
  session : String := ""
  snapshot : Nat := 0
  tokens : Nat := 0
deriving DecidableEq, Repr

/-- A snapshot that `find_best` may select: a strict prefix within the limit. -/
def matching (prompt : List Int) (maximumPrefixTokens : Nat) (eligible : State D → Bool)
    (state : State D) : Bool :=
  !state.tokens.isEmpty && decide (state.tokens.length < prompt.length) &&
    decide (state.tokens.length ≤ maximumPrefixTokens) && eligible state &&
    decide (prompt.take state.tokens.length = state.tokens)

/-- The body of the loops of `find_best`. -/
def select (requested : String) (prompt : List Int) (maximumPrefixTokens : Nat)
    (eligible : State D → Bool) (best : Selection) (x : String × Nat × Entry D) : Selection :=
  let tokens := x.2.2.state.tokens
  if tokens.length < best.tokens ∨
      matching prompt maximumPrefixTokens eligible x.2.2.state = false then best
  else if tokens.length > best.tokens ∨
      (tokens.length = best.tokens ∧ x.1 = requested ∧ best.session ≠ requested) then
    { session := x.1, snapshot := x.2.1, tokens := tokens.length }
  else best

/-- `find_best`: the session and the index of the match. -/
def findBest (it : Iteration D) (c : Cache D) (requested : String) (prompt : List Int)
    (maximumPrefixTokens : Nat) (eligible : State D → Bool) : Option (String × Nat) :=
  if requested = "" ∨ c.enabled = false then none
  else
    let best := (walk it c.states).foldl (select requested prompt maximumPrefixTokens eligible) {}
    if best.session = "" then none else some (best.session, best.snapshot)

end Cache

end TyloQuant.SessionSnapshots
