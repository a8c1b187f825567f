import TyloQuant.Lib.Transition
import TyloQuant.MoeCache.Book

/-!
# Runs of the slot book

The operations in any order, and any number of replacement transactions among them.  A call
that throws leaves the book as it was.

Beside the book the state keeps what the code does not store: the residencies that have begun
(one for each time a slot is given a key that was not in it), which one sits in each slot, and
which slots have had their generation turned back.  These fields steer nothing.
-/

namespace TyloQuant.MoeCache

open Lib

/-! ### State -/

/-- A residency: `key` in `slot` under `generation`.  Its index in `issued` tells it from any
    other. -/
structure Residency where
  key : MoeCacheKey
  slot : Nat
  generation : Nat
deriving DecidableEq, Repr

/-- A transaction in some caller's hands: the residency it was prepared on, and the one its
    commit began. -/
structure Change where
  record : Replacement
  owner : Nat
  seated : Option Nat := none

structure System where
  book : MoeCacheSlotBook
  changes : Table Nat Change := ∅
  issued : List Residency := []
  current : Nat → Option Nat := fun _ => none
  rewound : Nat → Bool := fun _ => false

/-- A residency begins in `slot`. -/
def System.begin (s : System) (book : MoeCacheSlotBook) (r : Residency) : System :=
  { s with
    book
    issued := s.issued ++ [r]
    current := Function.update s.current r.slot (some s.issued.length) }

/-! ### Actions -/

inductive Action where
  | resize (capacity : Int)
  | setLowPrioritySources (sources : List Int)
  | acquire (key : MoeCacheKey)
  | touch (slot : Int)
  | markInflight (slot : Int)
  | clearInflight (slot : Int)
  | discard (key : MoeCacheKey) (slot : Int) (generation : Nat)
  | replace (slot : Int) (expected replacement : MoeCacheKey)
  | prepare (change : Nat) (slot : Int) (expected replacement : MoeCacheKey)
  | commit (change : Nat)
  | rollback (change : Nat)
deriving DecidableEq, Repr

/-- The book an operation without a result leaves behind. -/
def System.outcome (s : System) : Except String MoeCacheSlotBook → System
  | .error _ => s
  | .ok book => { s with book }

/-- A new capacity.  Slots that come back after having been used start over at generation
    zero. -/
def System.resized (s : System) (capacity : Int) : System :=
  match s.book.resize capacity with
  | .error _ => s
  | .ok book =>
    { s with
      book
      current := fun slot => if slot < book.capacity then s.current slot else none
      rewound := fun slot => s.rewound slot ||
        (decide (s.book.capacity ≤ slot ∧ slot < book.capacity) &&
          s.issued.any fun r => r.slot == slot) }

def System.acquired (s : System) (key : MoeCacheKey) : System :=
  match s.book.acquire key with
  | .error _ => s
  | .ok (book, lease) =>
    if lease.hit then { s with book }
    else s.begin book { key, slot := lease.slot, generation := lease.generation }

def System.discarded (s : System) (key : MoeCacheKey) (slot : Int) (generation : Nat) : System :=
  match s.book.discard key slot generation with
  | .error _ => s
  | .ok (book, done) =>
    { s with
      book
      current := if done then Function.update s.current slot.toNat none else s.current }

def System.replaced (s : System) (slot : Int) (expected replacement : MoeCacheKey) : System :=
  match s.book.replace slot expected replacement with
  | .error _ => s
  | .ok (book, done) =>
    if done then
      s.begin book {
        key := replacement
        slot := slot.toNat
        generation := bump ((s.book.slots[slot.toNat]?.getD {}).generation) }
    else { s with book }

def System.prepared (s : System) (id : Nat) (slot : Int)
    (expected replacement : MoeCacheKey) : System :=
  match s.book.prepareReplace slot expected replacement with
  | .error _ => s
  | .ok record =>
    let change : Change := { record, owner := (s.current record.slot).getD s.issued.length }
    { s with changes := s.changes.insert id change }

def System.committed (s : System) (id : Nat) (change : Change) : System :=
  match s.book.commitReplace change.record with
  | .error _ => s
  | .ok (book, record, done) =>
    if done then
      let residency : Residency := {
        key := record.replacement
        slot := record.slot
        generation := bump record.generation }
      let change : Change := { change with record, seated := some s.issued.length }
      { s.begin book residency with changes := s.changes.insert id change }
    else { s with book, changes := s.changes.insert id { change with record } }

/-- A rollback of a committed change gives the slot back to the residency the change was
    prepared on, and turns its generation back. -/
def System.rolledBack (s : System) (id : Nat) (change : Change) : System :=
  match s.book.rollbackReplace change.record with
  | .error _ => s
  | .ok (book, record) =>
    let changes := s.changes.insert id { change with record }
    if change.record.committed then
      { s with
        book, changes
        current := Function.update s.current record.slot (some change.owner)
        rewound := Function.update s.rewound record.slot true }
    else { s with book, changes }

def step (s : System) : Action → Option System
  | .resize capacity => some (s.resized capacity)
  | .setLowPrioritySources sources =>
    some { s with book := s.book.setLowPrioritySources sources }
  | .acquire key => some (s.acquired key)
  | .touch slot => some (s.outcome (s.book.touch slot))
  | .markInflight slot => some (s.outcome (s.book.markInflight slot))
  | .clearInflight slot => some (s.outcome (s.book.clearInflight slot))
  | .discard key slot generation => some (s.discarded key slot generation)
  | .replace slot expected replacement => some (s.replaced slot expected replacement)
  | .prepare id slot expected replacement => some (s.prepared id slot expected replacement)
  | .commit id => (s.changes.lookup id).map (s.committed id)
  | .rollback id => (s.changes.lookup id).map (s.rolledBack id)

/-- A new book, with nothing in it. -/
def initial (book : MoeCacheSlotBook) : System := { book }

end TyloQuant.MoeCache
