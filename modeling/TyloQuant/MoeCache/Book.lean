import Mathlib.Data.Finset.Basic
import TyloQuant.Lib.Table

/-!
# The slot book of the expert cache

`MoeCacheSlotBook` says which expert sits in which slot of a GPU arena.  A slot is free (a stack of
slot numbers) or holds a key (`by_key_`, and a list ordered by recency); it carries a generation,
which a lease repeats, and an in-flight mark, which keeps it from being evicted.

An operation that throws has changed nothing, so it is a function into `Except`, with the source's
text as the error.  The integer arguments stay integers: the range check is part of the operations.
A slot is in the recency list once, so the iterator beside `listed` is left implicit.
-/

namespace TyloQuant.MoeCache

open Lib

/-! ### The data -/

structure MoeCacheKey where
  source : Int
  cohort : Int
  expert : Int
deriving DecidableEq, Repr

structure MoeCacheSlotLease where
  slot : Nat
  generation : Nat
  hit : Bool
  replaced : Option MoeCacheKey
deriving DecidableEq, Repr

structure Slot where
  key : Option MoeCacheKey := none
  generation : Nat := 0
  inflight : Bool := false
  listed : Bool := false
deriving DecidableEq, Repr

/-- `low_priority_sources_` is kept sorted and without repetitions for a binary search; only
    membership is ever asked. -/
structure MoeCacheSlotBook where
  slots : List Slot
  lowPrioritySources : Finset Int := ∅
  free : List Nat
  lru : List Nat := []
  byKey : Table MoeCacheKey Nat := ∅

/-- A prepared replacement.  `incoming` and `original` are the map nodes it carries, empty when
    moved from. -/
structure Replacement where
  slot : Nat
  expected : MoeCacheKey
  replacement : MoeCacheKey
  generation : Nat
  committed : Bool := false
  incoming : Option (MoeCacheKey × Nat) := none
  original : Option (MoeCacheKey × Nat) := none

/-- `++generation` on a 64-bit counter. -/
def bump (generation : Nat) : Nat := (generation + 1) % 2 ^ 64

/-! ### Map nodes -/

/-- `unordered_map::emplace`: an existing entry stays. -/
def emplace (t : Table MoeCacheKey Nat) (key : MoeCacheKey) (slot : Nat) : Table MoeCacheKey Nat :=
  if key ∈ t then t else t.insert key slot

/-- `unordered_map::extract`: the table without the entry, and its node. -/
def extract (t : Table MoeCacheKey Nat) (key : MoeCacheKey) :
    Table MoeCacheKey Nat × Option (MoeCacheKey × Nat) :=
  (t.erase key, (t.lookup key).map fun slot => (key, slot))

/-- `unordered_map::insert` of a node: nothing happens to an empty node, or over an entry. -/
def insertNode (t : Table MoeCacheKey Nat) :
    Option (MoeCacheKey × Nat) → Table MoeCacheKey Nat × Bool
  | none => (t, false)
  | some (key, slot) => if key ∈ t then (t, false) else (t.insert key slot, true)

namespace MoeCacheSlotBook

/-! ### Private helpers -/

def capacity (b : MoeCacheSlotBook) : Nat := b.slots.length

/-- The slot under an index argument, with the index. -/
def checked (b : MoeCacheSlotBook) (slot : Int) : Except String (Nat × Slot) :=
  if slot < 0 then .error "MoE cache slot is out of range"
  else match b.slots[slot.toNat]? with
    | none => .error "MoE cache slot is out of range"
    | some state => .ok (slot.toNat, state)

def setSlot (b : MoeCacheSlotBook) (slot : Nat) (state : Slot) : MoeCacheSlotBook :=
  { b with slots := b.slots.set slot state }

def eraseLru (b : MoeCacheSlotBook) (slot : Nat) (state : Slot) : MoeCacheSlotBook :=
  if state.listed then
    { b.setSlot slot { state with listed := false } with lru := b.lru.erase slot }
  else b

def appendLru (b : MoeCacheSlotBook) (slot : Nat) (state : Slot) : MoeCacheSlotBook :=
  { b.setSlot slot { state with listed := true } with lru := b.lru ++ [slot] }

/-- `if (key) by_key_.erase(*key)`. -/
def eraseKey (b : MoeCacheSlotBook) (key : Option MoeCacheKey) : MoeCacheSlotBook :=
  match key with
  | none => b
  | some key => { b with byKey := b.byKey.erase key }

/-- `lru_.splice(lru_.end(), lru_, state.position)`, when the slot is listed. -/
def spliceLru (b : MoeCacheSlotBook) (slot : Nat) (state : Slot) : MoeCacheSlotBook :=
  if state.listed then { b with lru := b.lru.erase slot ++ [slot] } else b

/-! ### Capacity -/

/-- The constructor. -/
def create (capacity : Int) : Except String MoeCacheSlotBook :=
  if capacity ≤ 0 then .error "MoE cache capacity must be positive"
  else .ok {
    slots := List.replicate capacity.toNat {}
    free := (List.range capacity.toNat).reverse }

def prepareResize (b : MoeCacheSlotBook) (capacity : Int) : Except String Unit :=
  if capacity ≤ 0 then .error "MoE cache capacity must be positive"
  else if b.slots.any Slot.inflight then .error "cannot resize an in-flight MoE cache"
  else .ok ()

/-- One slot of the shrinking loop: its key and its place in the recency list go. -/
def dropSlot (b : MoeCacheSlotBook) (slot : Nat) : MoeCacheSlotBook :=
  match b.slots[slot]? with
  | none => b
  | some state => (b.eraseKey state.key).eraseLru slot state

/-- The part of `resize` for a smaller capacity. -/
def shrink (b : MoeCacheSlotBook) (capacity : Nat) : MoeCacheSlotBook :=
  let b := (List.range' capacity (b.capacity - capacity)).foldl dropSlot b
  { b with free := b.free.filter fun slot => slot < capacity }

def resize (b : MoeCacheSlotBook) (capacity : Int) : Except String MoeCacheSlotBook := do
  b.prepareResize capacity
  let capacity := capacity.toNat
  let previous := b.capacity
  let b := if capacity < previous then b.shrink capacity else b
  return { b with
    slots := b.slots.take capacity ++ List.replicate (capacity - previous) {}
    free := b.free ++ (List.range' previous (capacity - previous)).reverse }

/-! ### Queries -/

def slotFor (b : MoeCacheSlotBook) (key : MoeCacheKey) : Int :=
  match b.byKey.lookup key with
  | none => -1
  | some slot => slot

def keyFor (b : MoeCacheSlotBook) (slot : Int) : Except String (Option MoeCacheKey) := do
  let (_, state) ← b.checked slot
  return state.key

def setLowPrioritySources (b : MoeCacheSlotBook) (sources : List Int) : MoeCacheSlotBook :=
  { b with lowPrioritySources := sources.toFinset }

/-! ### Acquiring a slot -/

def touch (b : MoeCacheSlotBook) (slot : Int) : Except String MoeCacheSlotBook := do
  let (slot, state) ← b.checked slot
  if state.key.isNone then .error "cannot touch an empty MoE cache slot"
  else if state.listed then return b.spliceLru slot state
  else return b.appendLru slot state

/-- The slot is not in flight. -/
def evictable (b : MoeCacheSlotBook) (slot : Nat) : Bool :=
  match b.slots[slot]? with
  | none => false
  | some state => !state.inflight

/-- The slot holds an expert of a low-priority source. -/
def lowPriority (b : MoeCacheSlotBook) (slot : Nat) : Bool :=
  match b.slots[slot]? with
  | none => false
  | some state => state.key.any fun key => decide (key.source ∈ b.lowPrioritySources)

/-- The first slot that may go, one of a low-priority source before any other. -/
def victim (b : MoeCacheSlotBook) : Option Nat :=
  match b.lru.find? fun slot => b.evictable slot && b.lowPriority slot with
  | some slot => some slot
  | none => b.lru.find? b.evictable

/-- The slot a key that is not cached gets: the top of the free stack, or the victim. -/
def nextSlot (b : MoeCacheSlotBook) : Option Nat :=
  match b.free.getLast? with
  | some slot => some slot
  | none => b.victim

/-- Make the next slot available: the book without it, the slot, and the key evicted for it. -/
def vacate (b : MoeCacheSlotBook) : Except String (MoeCacheSlotBook × Nat × Option MoeCacheKey) :=
  match b.free.getLast? with
  | some slot => .ok ({ b with free := b.free.dropLast }, slot, none)
  | none =>
    match b.victim with
    | none => .error "all MoE cache slots are in-flight"
    | some slot => do
        let (slot, state) ← b.checked slot
        return ((b.eraseKey state.key).eraseLru slot state, slot, state.key)

def acquire (b : MoeCacheSlotBook) (key : MoeCacheKey) :
    Except String (MoeCacheSlotBook × MoeCacheSlotLease) :=
  match b.byKey.lookup key with
  | some found => do
      let (slot, state) ← b.checked found
      let b ← b.touch found
      return (b, { slot, generation := state.generation, hit := true, replaced := none })
  | none => do
      let (b, slot, replaced) ← b.vacate
      let (slot, state) ← b.checked slot
      let generation := bump state.generation
      let state := { state with generation, key := some key, inflight := false }
      let b := { b with byKey := emplace b.byKey key slot }
      return (b.appendLru slot state, { slot, generation, hit := false, replaced })

/-! ### In-flight marks and discarding -/

def markInflight (b : MoeCacheSlotBook) (slot : Int) : Except String MoeCacheSlotBook := do
  let (slot, state) ← b.checked slot
  if state.key.isNone then .error "cannot mark an empty MoE cache slot in-flight"
  else return b.setSlot slot { state with inflight := true }

def clearInflight (b : MoeCacheSlotBook) (slot : Int) : Except String MoeCacheSlotBook := do
  let (slot, state) ← b.checked slot
  return b.setSlot slot { state with inflight := false }

def discard (b : MoeCacheSlotBook) (key : MoeCacheKey) (slot : Int) (generation : Nat) :
    Except String (MoeCacheSlotBook × Bool) := do
  let (slot, state) ← b.checked slot
  if state.key ≠ some key ∨ state.generation ≠ generation then return (b, false)
  else
    let state := { state with key := none, inflight := false }
    let b := { b.setSlot slot state with byKey := b.byKey.erase key }
    let b := b.eraseLru slot state
    return ({ b with free := b.free ++ [slot] }, true)

def inflight (b : MoeCacheSlotBook) (slot : Int) : Except String Bool := do
  let (_, state) ← b.checked slot
  return state.inflight

/-! ### Replacing the key of a slot -/

def replace (b : MoeCacheSlotBook) (slot : Int) (expected replacement : MoeCacheKey) :
    Except String (MoeCacheSlotBook × Bool) := do
  let (slot, state) ← b.checked slot
  if state.key ≠ some expected ∨ replacement ∈ b.byKey then return (b, false)
  else
    let byKey := (emplace b.byKey replacement slot).erase expected
    let state := { state with
      key := some replacement, generation := bump state.generation, inflight := false }
    return (({ b with byKey }.setSlot slot state).spliceLru slot state, true)

def prepareReplace (b : MoeCacheSlotBook) (slot : Int) (expected replacement : MoeCacheKey) :
    Except String Replacement := do
  let (slot, state) ← b.checked slot
  if state.key ≠ some expected ∨ replacement ∈ b.byKey then
    .error "MoE replacement no longer owns its slot"
  else return {
    slot, expected, replacement, generation := state.generation
    incoming := some (replacement, slot) }

def replacementValid (b : MoeCacheSlotBook) (change : Replacement) : Except String Bool := do
  let (_, state) ← b.checked change.slot
  return !change.committed && decide (state.key = some change.expected) &&
    decide (state.generation = change.generation) && decide (change.replacement ∉ b.byKey)

def commitReplace (b : MoeCacheSlotBook) (change : Replacement) :
    Except String (MoeCacheSlotBook × Replacement × Bool) := do
  let valid ← b.replacementValid change
  if !valid then return (b, change, false)
  else
    let (byKey, inserted) := insertNode b.byKey change.incoming
    if !inserted then return (b, change, false)
    else
      let (byKey, original) := extract byKey change.expected
      let (slot, state) ← b.checked change.slot
      let state := { state with
        key := some change.replacement, generation := bump state.generation, inflight := false }
      return (({ b with byKey }.setSlot slot state).spliceLru slot state,
        { change with incoming := none, original, committed := true }, true)

def rollbackReplace (b : MoeCacheSlotBook) (change : Replacement) :
    Except String (MoeCacheSlotBook × Replacement) := do
  let (slot, state) ← b.checked change.slot
  if change.committed then
    if state.key ≠ some change.replacement ∨ state.generation ≠ bump change.generation then
      .error "MoE replacement changed during rollback"
    else
      let (byKey, incoming) := extract b.byKey change.replacement
      -- The node of the old key is dropped when that key is cached again meanwhile.
      let (byKey, _) := insertNode byKey change.original
      let state := { state with
        key := some change.expected, generation := change.generation, inflight := false }
      return ({ b with byKey }.setSlot slot state,
        { change with incoming, original := none, committed := false })
  else if state.key ≠ some change.expected ∨ state.generation ≠ change.generation then
    return (b, change)
  else return (b.setSlot slot { state with inflight := false }, change)

end MoeCacheSlotBook

end TyloQuant.MoeCache
