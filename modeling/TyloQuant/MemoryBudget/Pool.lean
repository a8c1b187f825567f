import TyloQuant.MemoryBudget.Policy

/-!
# The runtimes of a pool

What the two rebalancing passes read: the instances with their usage and limits, the loads under
way, and what the host and the devices report.
-/

namespace TyloQuant.MemoryBudget

open Lib

inductive RuntimeInstanceState where
  | loading
  | ready
  | busy
  | unloading
  | failed
deriving DecidableEq

structure RuntimeMemoryResources where
  prefixCacheBytes : Option Int := none
  prefixCacheLimitBytes : Option Int := none
  prefixCacheRamBytes : Option Int := none
  prefixCacheRamLimitBytes : Option Int := none
deriving DecidableEq

/-- `lastUsed` is `last_used_at or started_at`. -/
structure Runtime where
  id : Nat
  name : String
  state : RuntimeInstanceState := .ready
  activeRequests : Nat := 0
  queuedRequests : Nat := 0
  controlLeases : Nat := 0
  readControlLeases : Nat := 0
  lastUsed : Nat := 0
  totalBytes : Int := 0
  reservedBytes : Option Int := none
  residentBytes : Option Int := none
  memory : Option RuntimeMemoryResources := none
  deviceIds : List String := []
  canSetPrefixBudget : Bool := true
  prefixDynamicBudget : Bool := false
  prefixDiskCapacity : Option Int := none
  prefixPressureBytes : Int := 0
  prefixRamPressureBytes : Int := 0
  residentDynamicBudget : Bool := false
  residentBudgetLimit : Int := 0
  residentWeightDynamicBudget : Bool := false
  residentWeightBudgetLimit : Int := 0
  residentMemoryUsed : Int := 0
  reclaimableWeightBytes : Int := 0
deriving DecidableEq

structure Device where
  id : String
  memoryAvailableBytes : Option Int

structure ModelLoadRequest where
  prefixCacheMaxBytes : Option Int := none
  prefixCacheEnabled : Bool := true
  prefixCacheDiskBytes : Option Int := none
  prefixCacheHotBytes : Option Int := none
  prefixCacheRamBytes : Option Int := none

/-- A pool under its lock.  `effective` is `_effective_runtime_memory_budget_locked()`, and
`availableRam` what `host_memory_capacity()` leaves. -/
structure Pool where
  maxRuntimeMemoryBytes : Option Int := none
  memoryPolicy : RuntimeMemoryPolicy := {}
  instances : List Runtime := []
  loadingModelNames : List String := []
  residentLoadLimits : List (String × Int) := []
  policyModelLimits : Table String Int := ∅
  policyPrefixLimits : Table String Int := ∅
  loadRequests : Table String ModelLoadRequest := ∅
  prefixDiskMax : Option Int := none
  discreteCuda : Bool := false
  devices : List Device := []
  effective : Option Int := none
  availableRam : Option Int := none

def gib : Int := 2 ^ 30

def committedRuntimeBytes (item : Runtime) : Int :=
  if item.residentDynamicBudget then
    if item.activeRequests ≠ 0 ∨ item.queuedRequests ≠ 0 then
      if item.residentBudgetLimit ≠ 0 then item.residentBudgetLimit else item.residentMemoryUsed
    else item.residentMemoryUsed + min (256 * 2 ^ 20) (item.residentBudgetLimit / 20)
  else
    match item.residentBytes.filter (0 < ·), item.reservedBytes.filter (0 < ·) with
    | some resident, some reserved => max resident reserved
    | some resident, none => resident
    | none, some reserved => reserved
    | none, none => item.totalBytes

end TyloQuant.MemoryBudget
