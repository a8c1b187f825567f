import TyloQuant.Lib.Outcome
import TyloQuant.Lib.Table

/-!
# Slots for the MoE cache arenas

`plan_moe_arena_slots` divides a byte budget between arenas: every arena gets its minimum, then
its share of the budget by registered bytes as far as it fits, and what is left goes slot by slot
to the arena that lacks the largest part of its experts.

The `long double` arithmetic is read as rational.  The integers of the code have 64 and 32 bits;
a value that does not fit has no defined result, which the model keeps apart from the exceptions.
Each arena's minimum is guarded against that, their sum and the cast of a share are not.
-/

namespace TyloQuant.MoeCache

open Lib

structure MoeArenaDemand where
  signature : String
  slotBytes : Int
  minimumSlots : Int
  registeredExperts : Int
deriving DecidableEq, Repr

inductive ArenaPlanError where
  | invalidArgument (message : String)
  | overflowError (message : String)
  | runtimeError (message : String)
  | undefined
  | unfinished
deriving DecidableEq, Repr

/-! ### The code -/

def int64Max : Int := 2 ^ 63 - 1

def int32Max : Int := 2 ^ 31 - 1

/-- A value of the type `int64_t`. -/
def int64 (x : Int) : Except ArenaPlanError Int :=
  if -int64Max - 1 ≤ x ∧ x ≤ int64Max then .ok x else .error .undefined

/-- A value of the type `int`. -/
def int32 (x : Int) : Except ArenaPlanError Int :=
  if -int32Max - 1 ≤ x ∧ x ≤ int32Max then .ok x else .error .undefined

/-- The slots by signature. -/
abbrev ArenaSlots := Table String Int

namespace ArenaSlots

/-- `at`, for a signature that is there. -/
def count (slots : ArenaSlots) (d : MoeArenaDemand) : Int := (slots.lookup d.signature).getD 0

def set (slots : ArenaSlots) (d : MoeArenaDemand) (n : Int) : ArenaSlots :=
  slots.insert d.signature n

end ArenaSlots

/-- What the first loop has added up. -/
structure ArenaTotals where
  minimumBytes : Int := 0
  registeredBytes : ℚ := 0
  slots : ArenaSlots := ∅

/-- The first loop: check the demands, with the signatures seen so far. -/
def checkDemands : List MoeArenaDemand → List String → ArenaTotals →
    Except ArenaPlanError ArenaTotals
  | [], _, totals => .ok totals
  | d :: rest, seen, totals =>
    if d.signature = "" ∨ d.signature ∈ seen then
      .error (.invalidArgument "MoE cache arena signatures must be unique and non-empty")
    else if d.slotBytes ≤ 0 ∨ d.minimumSlots ≤ 0 ∨ d.registeredExperts < d.minimumSlots then
      .error (.invalidArgument "invalid MoE cache arena demand")
    else if d.slotBytes > int64Max / d.minimumSlots then
      .error (.overflowError "MoE cache minimum byte count overflows int64")
    else do
      let bytes ← int64 (d.slotBytes * d.minimumSlots)
      let minimumBytes ← int64 (totals.minimumBytes + bytes)
      checkDemands rest (d.signature :: seen) {
        minimumBytes
        registeredBytes := totals.registeredBytes + d.slotBytes * d.registeredExperts
        slots := totals.slots.set d d.minimumSlots }

/-- The bytes in use and the slots they are used for. -/
structure ArenaUsage where
  usedBytes : Int
  slots : ArenaSlots

/-- The second loop: each arena gets its share if that fits. -/
def planTargets (budget : Int) (total : ℚ) : List MoeArenaDemand → ArenaUsage →
    Except ArenaPlanError ArenaUsage
  | [], usage => .ok usage
  | d :: rest, usage => do
      let share ← int32 ⌊(budget : ℚ) * (d.slotBytes * d.registeredExperts) / total / d.slotBytes⌋
      let target := min d.registeredExperts (max d.minimumSlots share)
      let difference ← int32 (target - usage.slots.count d)
      let additional ← int64 (difference * d.slotBytes)
      let left ← int64 (budget - usage.usedBytes)
      if additional ≤ left then do
        let usedBytes ← int64 (usage.usedBytes + additional)
        planTargets budget total rest { usedBytes, slots := usage.slots.set d target }
      else planTargets budget total rest usage

/-- One pass of the last loop: the arena that lacks the largest part of its experts, the first
    of them where several do. -/
def bestArena (budget : Int) (usage : ArenaUsage) :
    List MoeArenaDemand → Option (MoeArenaDemand × ℚ) →
      Except ArenaPlanError (Option (MoeArenaDemand × ℚ))
  | [], best => .ok best
  | d :: rest, best =>
    if usage.slots.count d ≥ d.registeredExperts then bestArena budget usage rest best
    else do
      let left ← int64 (budget - usage.usedBytes)
      if d.slotBytes > left then bestArena budget usage rest best
      else do
        let missing ← int32 (d.registeredExperts - usage.slots.count d)
        let deficit : ℚ := missing / d.registeredExperts
        if deficit > (best.map Prod.snd).getD (-1) then
          bestArena budget usage rest (some (d, deficit))
        else bestArena budget usage rest best

/-- One more slot for the arena. -/
def addSlot (usage : ArenaUsage) (d : MoeArenaDemand) : Except ArenaPlanError ArenaUsage := do
  let slots ← int32 (usage.slots.count d + 1)
  let usedBytes ← int64 (usage.usedBytes + d.slotBytes)
  pure { usedBytes, slots := usage.slots.set d slots }

/-- The last loop, at most so many times. -/
def topUp (budget : Int) (demands : List MoeArenaDemand) : Nat → ArenaUsage →
    Except ArenaPlanError ArenaSlots
  | 0, _ => .error .unfinished
  | fuel + 1, usage => do
      let best ← bestArena budget usage demands none
      match best with
      | none => pure usage.slots
      | some (d, _) => do
          let usage ← addSlot usage d
          topUp budget demands fuel usage

/-- More passes than there are slots to add. -/
def enoughPasses (demands : List MoeArenaDemand) : Nat :=
  (demands.map fun d => (d.registeredExperts - d.minimumSlots).toNat).sum + 1

/-- `plan_moe_arena_slots`. -/
def planMoeArenaSlots (budget : Int) (demands : List MoeArenaDemand) :
    Except ArenaPlanError ArenaSlots :=
  if budget ≤ 0 then .error (.invalidArgument "MoE cache budget must be positive")
  else if demands = [] then
    .error (.invalidArgument "MoE cache planner requires at least one arena")
  else do
    let totals ← checkDemands demands [] {}
    if totals.minimumBytes > budget then
      .error (.runtimeError "MoE cache budget is below the minimum decode working set")
    else do
      let usage ← planTargets budget totals.registeredBytes demands
        { usedBytes := totals.minimumBytes, slots := totals.slots }
      topUp budget demands (enoughPasses demands) usage

end TyloQuant.MoeCache
