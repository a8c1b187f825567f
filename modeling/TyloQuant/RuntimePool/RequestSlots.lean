import Mathlib.Logic.Function.Basic
import TyloQuant.Lib.Transition

/-!
# Request slots

`_RequestSlotGate` of the runtime pool: the slots of one runtime, with waiters in the order of
their priorities.  A waiter awaits a future of its own; the gate grants a slot by the future's
result and rejects with its exception.  Everything between two awaits is one step.
-/

namespace TyloQuant.RuntimePool

/-- The state of an `asyncio` future. -/
inductive Future where
  | pending
  | result
  | exception
  | cancelled
deriving DecidableEq, Repr

def Future.done (f : Future) : Bool := f ≠ .pending

/-- `_SlotWaiter`.  Its future is named by a number; futures are numbered as they are created. -/
structure SlotWaiter where
  priority : Int
  granted : Nat
deriving DecidableEq, Repr

/-- `_RequestSlotGate`. -/
structure RequestSlotGate (E : Type) where
  capacity : Nat
  granted : Nat := 0
  waiters : List SlotWaiter := []
  error : Option E := none

/-- Where a task stands.  A task that awaits a done future resumes with its outcome, or with
    `CancelledError` when it must. -/
inductive Task where
  | idle
  | waiting (waiter : SlotWaiter) (mustCancel : Bool)
  | holding
deriving DecidableEq, Repr

/-- A gate with the tasks that use it and their futures. -/
structure Slots (τ E : Type) where
  gate : RequestSlotGate E
  futures : Nat → Future := fun _ => .pending
  /-- How many futures there are. -/
  created : Nat := 0
  tasks : τ → Task := fun _ => .idle

inductive SlotEvent (τ E : Type) where
  | acquire (t : τ) (priority : Int)
  | resume (t : τ)
  | cancel (t : τ)
  | release (t : τ)
  | close (error : E)

namespace RequestSlotGate

variable {E : Type}

/-- Insert behind everything of equal or higher priority. -/
def enqueue (waiter : SlotWaiter) (waiters : List SlotWaiter) : List SlotWaiter :=
  let behind := (waiters.reverse.takeWhile fun other => other.priority < waiter.priority).length
  waiters.take (waiters.length - behind) ++ waiter :: waiters.drop (waiters.length - behind)

/-- The loop of `release`, on `_granted`, `_waiters` and the futures. -/
def handOut (capacity granted : Nat) (futures : Nat → Future) :
    List SlotWaiter → Nat × List SlotWaiter × (Nat → Future)
  | [] => (granted, [], futures)
  | waiter :: waiters =>
    if granted < capacity then
      if (futures waiter.granted).done then handOut capacity granted futures waiters
      else handOut capacity (granted + 1) (Function.update futures waiter.granted .result) waiters
    else (granted, waiter :: waiters, futures)

/-- `release`, which raises when no slot is granted. -/
def release (gate : RequestSlotGate E) (futures : Nat → Future) :
    Option (RequestSlotGate E × (Nat → Future)) :=
  if gate.granted = 0 then none
  else
    let (granted, waiters, futures) := handOut gate.capacity (gate.granted - 1) futures gate.waiters
    some ({ gate with granted, waiters }, futures)

/-- What `close` does to the futures of the queued waiters. -/
def reject (futures : Nat → Future) (waiters : List SlotWaiter) : Nat → Future :=
  waiters.foldl (fun futures waiter =>
    if (futures waiter.granted).done then futures
    else Function.update futures waiter.granted .exception) futures

end RequestSlotGate

namespace Slots

open RequestSlotGate

variable {τ E : Type} [DecidableEq τ]

/-- The task leaves `acquire` or gives its slot back. -/
def setTask (s : Slots τ E) (t : τ) (task : Task) : Slots τ E :=
  { s with tasks := Function.update s.tasks t task }

/-- `release`, and the task is done; when it raises, the gate stays as it is. -/
def releaseSlot (s : Slots τ E) (t : τ) : Slots τ E :=
  match s.gate.release s.futures with
  | none => s.setTask t .idle
  | some (gate, futures) => setTask { s with gate, futures } t .idle

def acquire (s : Slots τ E) (t : τ) (priority : Int) : Slots τ E :=
  if s.gate.error.isSome then s
  else if s.gate.granted < s.gate.capacity ∧ s.gate.waiters = [] then
    setTask { s with gate := { s.gate with granted := s.gate.granted + 1 } } t .holding
  else
    let waiter := { priority, granted := s.created }
    setTask { s with
      gate := { s.gate with waiters := enqueue waiter s.gate.waiters }
      futures := Function.update s.futures s.created .pending
      created := s.created + 1 } t (.waiting waiter false)

/-- `CancelledError` at the await of `acquire`. -/
def abandon (s : Slots τ E) (t : τ) (waiter : SlotWaiter) : Slots τ E :=
  if (s.futures waiter.granted).done ∧ s.futures waiter.granted ≠ .cancelled then s.releaseSlot t
  else
    setTask { s with gate := { s.gate with waiters := s.gate.waiters.erase waiter } } t .idle

/-- The task goes on behind its await. -/
def resume (s : Slots τ E) (t : τ) (waiter : SlotWaiter) (mustCancel : Bool) : Option (Slots τ E) :=
  match s.futures waiter.granted with
  | .pending => none
  | .cancelled => some (s.abandon t waiter)
  | .result => some (if mustCancel then s.abandon t waiter else s.setTask t .holding)
  | .exception => some (if mustCancel then s.abandon t waiter else s.setTask t .idle)

/-- `task.cancel()`. -/
def cancel (s : Slots τ E) (t : τ) (waiter : SlotWaiter) : Slots τ E :=
  if s.futures waiter.granted = .pending then
    { s with futures := Function.update s.futures waiter.granted .cancelled }
  else s.setTask t (.waiting waiter true)

def close (s : Slots τ E) (error : E) : Slots τ E :=
  { s with
    gate := { s.gate with waiters := [], error := some error }
    futures := reject s.futures s.gate.waiters }

def step (s : Slots τ E) : SlotEvent τ E → Option (Slots τ E)
  | .acquire t priority =>
    match s.tasks t with
    | .idle => some (s.acquire t priority)
    | _ => none
  | .resume t =>
    match s.tasks t with
    | .waiting waiter mustCancel => s.resume t waiter mustCancel
    | _ => none
  | .cancel t =>
    match s.tasks t with
    | .waiting waiter _ => some (s.cancel t waiter)
    | _ => some s
  | .release t =>
    match s.tasks t with
    | .holding => some (s.releaseSlot t)
    | _ => none
  | .close error => some (s.close error)

/-- A fresh gate; its constructor refuses the capacity zero. -/
def init (capacity : Nat) : Slots τ E := { gate := { capacity } }

end Slots

end TyloQuant.RuntimePool
