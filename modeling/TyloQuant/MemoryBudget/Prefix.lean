import TyloQuant.MemoryBudget.Resident

/-!
# The prefix cache budgets

`_rebalance_prefix_cache_budget` shares what the reserved caches leave, first by what each runtime
wants and then up to its cap, once for the caches on the device and once for those in RAM.  The
limits are applied one runtime after another, and stay applied when one fails.
-/

namespace TyloQuant.MemoryBudget

open Lib List

/-! ### Limits and caps -/

def prefixTotalLimit (pool : Pool) : Int := pool.memoryPolicy.prefixLimitBytes.getD (2 * gib)

def prefixRamTotalLimit (pool : Pool) : Int :=
  if pool.discreteCuda then pool.memoryPolicy.prefixRamLimitBytes.getD (2 * gib) else 0

def prefixReservedCapacity (pool : Pool) (excludedIds : List Nat) : Int :=
  let current := pool.instances.filter fun item => item.state ≠ .failed ∧ item.id ∉ excludedIds
  let used := (current.map fun item =>
    ((item.memory.bind RuntimeMemoryResources.prefixCacheLimitBytes).getD
      ((pool.policyPrefixLimits.lookup item.name).getD (2 * gib)))).sum
  let names := current.map Runtime.name
  used + ((pool.loadingModelNames.filter fun name => name ∉ names).map fun name =>
    (pool.policyPrefixLimits.lookup name).getD 0).sum

def prefixHotCap (pool : Pool) (request : Option ModelLoadRequest) : Int :=
  match request with
  | none => prefixTotalLimit pool
  | some request =>
    if request.prefixCacheEnabled = false then 0
    else
      match request.prefixCacheHotBytes.or request.prefixCacheMaxBytes with
      | some explicit => min (prefixTotalLimit pool) explicit
      | none => prefixTotalLimit pool

/-! ### The plan -/

def grantWanted (wanted cap : Runtime → Int) (state : (Nat → Int) × Int) (item : Runtime) :
    (Nat → Int) × Int :=
  let target := min state.2 (min (wanted item) (cap item))
  (Function.update state.1 item.id target, state.2 - target)

def grantExtra (cap : Runtime → Int) (state : (Nat → Int) × Int) (item : Runtime) :
    (Nat → Int) × Int :=
  let extra := min state.2 (cap item - state.1 item.id)
  (Function.update state.1 item.id (state.1 item.id + extra), state.2 - extra)

/-- What each wants, and then the rest up to the caps. -/
def grant (wanted cap : Runtime → Int) (items : List Runtime) (remaining : Int) : Nat → Int :=
  (items.foldl (grantExtra cap) (items.foldl (grantWanted wanted cap) (fun _ => 0, remaining))).1

/-- The candidates with their targets, beside what is reserved elsewhere. -/
structure PrefixPlan where
  candidates : List Runtime
  fixed : Int
  ramReserved : Int
  targets : Nat → Int
  ramTargets : Nat → Int
  diskTargets : Runtime → Int

def prefixCandidate (item : Runtime) : Bool :=
  item.prefixDynamicBudget ∧ item.activeRequests = 0 ∧ item.queuedRequests = 0 ∧
    item.controlLeases = item.readControlLeases ∧ item.memory.isSome ∧ item.canSetPrefixBudget

/-- A field of the usage of a runtime. -/
def usage (field : RuntimeMemoryResources → Option Int) (item : Runtime) : Option Int :=
  item.memory.bind field

def hasRam (item : Runtime) : Bool :=
  (usage RuntimeMemoryResources.prefixCacheRamLimitBytes item).isSome

def ramRemaining (pool : Pool) (reclaimRam : Bool) (ramCandidates : List Runtime)
    (ramReserved : Int) : Int :=
  let remaining := max 0 (prefixRamTotalLimit pool - ramReserved)
  let remaining :=
    match pool.availableRam with
    | none => remaining
    | some available =>
      let used := (ramCandidates.map fun item =>
        (usage RuntimeMemoryResources.prefixCacheRamBytes item).getD 0).sum
      min remaining (max 0 (available + used - 512 * 2 ^ 20))
  if reclaimRam ∨ pool.loadingModelNames ≠ [] then 0 else remaining

/-- The targets of the candidates, in their order. -/
def sharePrefix (pool : Pool) (reclaimRam : Bool) (current candidates : List Runtime) : PrefixPlan :=
  let candidateIds := candidates.map Runtime.id
  let request := fun item : Runtime => pool.loadRequests.lookup item.name
  let fixed := prefixReservedCapacity pool candidateIds
  let hotWanted := fun item : Runtime =>
    max ((usage RuntimeMemoryResources.prefixCacheBytes item).getD 0) item.prefixPressureBytes
  let ramCandidates := candidates.filter hasRam
  let ramReserved := ((current.filter fun item => item.id ∉ candidateIds).map fun item =>
    (usage RuntimeMemoryResources.prefixCacheRamLimitBytes item).getD 0).sum
  let ramWanted := fun item : Runtime =>
    max ((usage RuntimeMemoryResources.prefixCacheRamBytes item).getD 0) item.prefixRamPressureBytes
  let ramCap := fun item : Runtime =>
    ((request item).bind ModelLoadRequest.prefixCacheRamBytes).getD (prefixRamTotalLimit pool)
  let diskLimit :=
    match pool.memoryPolicy.prefixDiskLimitBytes with
    | none => pool.prefixDiskMax.getD (100 * gib)
    | some limit => min limit (pool.prefixDiskMax.getD limit)
  { candidates
    fixed
    ramReserved
    targets := grant hotWanted (fun item => prefixHotCap pool (request item)) candidates
      (max 0 (prefixTotalLimit pool - fixed))
    ramTargets := grant ramWanted ramCap ramCandidates
      (ramRemaining pool reclaimRam ramCandidates ramReserved)
    diskTargets := fun item =>
      match (request item).bind ModelLoadRequest.prefixCacheDiskBytes with
      | some perModel => min diskLimit perModel
      | none => diskLimit }

/-- `_rebalance_prefix_cache_budget`, up to the targets. -/
def planPrefix (pool : Pool) (preferred : Option Nat) (reclaimRam : Bool) : PrefixPlan :=
  let current := pool.instances.filter fun item => item.state = .ready ∨ item.state = .busy
  sharePrefix pool reclaimRam current
    ((current.filter prefixCandidate).mergeSort fun a b => precedes preferred b a)

/-! ### The calls -/

namespace PrefixPlan

def ramCandidates (plan : PrefixPlan) : List Runtime := plan.candidates.filter hasRam

def hotLimit (item : Runtime) : Int :=
  (usage RuntimeMemoryResources.prefixCacheLimitBytes item).getD 0

def ramLimit (item : Runtime) : Int :=
  (usage RuntimeMemoryResources.prefixCacheRamLimitBytes item).getD 0

def ramGrows (plan : PrefixPlan) (item : Runtime) : Bool :=
  ramLimit item < if hasRam item then plan.ramTargets item.id else 0

def hotGrows (plan : PrefixPlan) (item : Runtime) : Bool := hotLimit item < plan.targets item.id

def changed (plan : PrefixPlan) (item : Runtime) : Bool :=
  usage RuntimeMemoryResources.prefixCacheLimitBytes item ≠ some (plan.targets item.id) ∨
    (item.prefixDiskCapacity.isSome ∧ item.prefixDiskCapacity ≠ some (plan.diskTargets item)) ∨
    (hasRam item ∧ usage RuntimeMemoryResources.prefixCacheRamLimitBytes item ≠
      some (plan.ramTargets item.id))

/-- The runtimes to call: those whose RAM does not grow first, and of each kind those whose share of
the device does not grow. -/
def changes (plan : PrefixPlan) : List Runtime :=
  (plan.candidates.filter plan.changed).mergeSort (flaggedLe plan.ramGrows plan.hotGrows)

end PrefixPlan

/-- The applied limits of the runtimes. -/
structure PrefixLimits where
  hot : Nat → Int
  ram : Nat → Int

/-- The limits of some runtimes before any call. -/
def limitsOf (field : Runtime → Int) (items : List Runtime) : Nat → Int := fun id =>
  ((items.find? fun item => item.id = id).map field).getD 0

def PrefixPlan.before (plan : PrefixPlan) : PrefixLimits where
  hot := limitsOf PrefixPlan.hotLimit plan.candidates
  ram := limitsOf PrefixPlan.ramLimit plan.candidates

/-- A call that succeeds. -/
def PrefixPlan.call (plan : PrefixPlan) (limits : PrefixLimits) (item : Runtime) : PrefixLimits where
  hot := changeShare Runtime.id (fun item => plan.targets item.id) limits.hot item
  ram := if hasRam item then
      changeShare Runtime.id (fun item => plan.ramTargets item.id) limits.ram item
    else limits.ram

/-- The applied limits after each call, up to the first that fails. -/
def PrefixPlan.states (plan : PrefixPlan) (ok : Runtime → Bool) : List PrefixLimits :=
  oneByOne ok plan.call plan.changes plan.before

/-! ### What the plan adds up to -/

variable {wanted cap : Runtime → Int} {items rest : List Runtime} {state : (Nat → Int) × Int}

theorem foldl_grantWanted (hids : (items.map Runtime.id).Nodup) (hrest : ∀ item ∈ rest, item ∈ items)
    (hnodup : (rest.map Runtime.id).Nodup) (hzero : ∀ item ∈ rest, state.1 item.id = 0) :
    targetSum (rest.foldl (grantWanted wanted cap) state).1 items +
        (rest.foldl (grantWanted wanted cap) state).2 = targetSum state.1 items + state.2 ∧
      (0 ≤ state.2 → 0 ≤ (rest.foldl (grantWanted wanted cap) state).2) := by
  induction rest generalizing state with
  | nil => exact ⟨rfl, id⟩
  | cons item rest ih =>
    rw [map_cons, nodup_cons] at hnodup
    have hlater : ∀ other ∈ rest, (grantWanted wanted cap state item).1 other.id = 0 := by
      intro other hother
      have hne : other.id ≠ item.id := fun heq => hnodup.1 (mem_map.mpr ⟨other, hother, heq⟩)
      have hsame : (grantWanted wanted cap state item).1 other.id = state.1 other.id :=
        Function.update_of_ne hne _ _
      exact hsame.trans (hzero other (mem_cons_of_mem _ hother))
    obtain ⟨hsum, hnonneg⟩ := ih (fun other hother => hrest other (mem_cons_of_mem _ hother))
      hnodup.2 hlater
    have hstep : targetSum (grantWanted wanted cap state item).1 items =
        targetSum state.1 items - state.1 item.id + min state.2 (min (wanted item) (cap item)) :=
      targetSum_update hids (hrest item mem_cons_self) _
    have hheld := hzero item mem_cons_self
    have hleft : (grantWanted wanted cap state item).2 =
        state.2 - min state.2 (min (wanted item) (cap item)) := rfl
    rw [foldl_cons, hsum, hstep, hleft]
    refine ⟨by omega, fun hpos => hnonneg ?_⟩
    rw [hleft]
    exact Int.sub_nonneg_of_le (min_le_left _ _)

theorem foldl_grantExtra (hids : (items.map Runtime.id).Nodup) (hrest : ∀ item ∈ rest, item ∈ items) :
    targetSum (rest.foldl (grantExtra cap) state).1 items + (rest.foldl (grantExtra cap) state).2 =
        targetSum state.1 items + state.2 ∧
      (0 ≤ state.2 → 0 ≤ (rest.foldl (grantExtra cap) state).2) := by
  induction rest generalizing state with
  | nil => exact ⟨rfl, id⟩
  | cons item rest ih =>
    obtain ⟨hsum, hnonneg⟩ := @ih (grantExtra cap state item)
      fun other hother => hrest other (mem_cons_of_mem _ hother)
    have hstep : targetSum (grantExtra cap state item).1 items =
        targetSum state.1 items - state.1 item.id +
          (state.1 item.id + min state.2 (cap item - state.1 item.id)) :=
      targetSum_update hids (hrest item mem_cons_self) _
    have hleft : (grantExtra cap state item).2 =
        state.2 - min state.2 (cap item - state.1 item.id) := rfl
    rw [foldl_cons, hsum, hstep, hleft]
    refine ⟨by omega, fun hpos => hnonneg ?_⟩
    rw [hleft]
    exact Int.sub_nonneg_of_le (min_le_left _ _)

theorem grant_sum_le (hids : (items.map Runtime.id).Nodup) {remaining : Int} (h : 0 ≤ remaining) :
    targetSum (grant wanted cap items remaining) items ≤ remaining := by
  obtain ⟨hwanted, hwantedNonneg⟩ := @foldl_grantWanted wanted cap items items (fun _ => 0, remaining)
    hids (fun _ hitem => hitem) hids fun _ _ => rfl
  obtain ⟨hextra, hextraNonneg⟩ := @foldl_grantExtra cap items items
    (items.foldl (grantWanted wanted cap) (fun _ => 0, remaining)) hids fun _ hitem => hitem
  have hzero : targetSum (fun _ => 0) items = 0 := by
    simp [targetSum, shareSum]
  have hnonneg := hextraNonneg (hwantedNonneg h)
  rw [grant]
  simp only at hwanted
  omega

/-- The targets and what is reserved elsewhere stay within the larger of the limit and the latter. -/
structure PrefixPlan.Fits (plan : PrefixPlan) (pool : Pool) : Prop where
  hot : targetSum plan.targets plan.candidates + plan.fixed ≤ max (prefixTotalLimit pool) plan.fixed
  ram : targetSum plan.ramTargets plan.ramCandidates + plan.ramReserved ≤
    max (prefixRamTotalLimit pool) plan.ramReserved

variable {pool : Pool} {preferred : Option Nat} {reclaimRam : Bool}

theorem candidates_nodup (hids : (pool.instances.map Runtime.id).Nodup) :
    ((planPrefix pool preferred reclaimRam).candidates.map Runtime.id).Nodup := by
  have hperm := mergeSort_perm ((pool.instances.filter fun item =>
    item.state = .ready ∨ item.state = .busy).filter prefixCandidate)
    fun a b => precedes preferred b a
  refine (hperm.map Runtime.id).nodup_iff.mpr ?_
  exact hids.sublist ((filter_sublist.trans filter_sublist).map _)

theorem ramRemaining_bounds {ramCandidates : List Runtime} {ramReserved : Int} :
    0 ≤ ramRemaining pool reclaimRam ramCandidates ramReserved ∧
      ramRemaining pool reclaimRam ramCandidates ramReserved ≤
        max 0 (prefixRamTotalLimit pool - ramReserved) := by
  unfold ramRemaining
  simp only
  split
  · exact ⟨Int.le_refl 0, le_max_left _ _⟩
  · split
    · exact ⟨le_max_left _ _, Int.le_refl _⟩
    · exact ⟨le_min (le_max_left _ _) (le_max_left _ _), min_le_left _ _⟩

theorem planPrefix_fits (hids : (pool.instances.map Runtime.id).Nodup) :
    (planPrefix pool preferred reclaimRam).Fits pool := by
  have hcandidates := @candidates_nodup pool preferred reclaimRam hids
  set plan := planPrefix pool preferred reclaimRam with hplan
  have hram : (plan.ramCandidates.map Runtime.id).Nodup :=
    hcandidates.sublist (filter_sublist.map _)
  constructor
  · have hsum : targetSum plan.targets plan.candidates ≤ max 0 (prefixTotalLimit pool - plan.fixed) :=
      grant_sum_le hcandidates (le_max_left _ _)
    omega
  · obtain ⟨hnonneg, hle⟩ :=
      @ramRemaining_bounds pool reclaimRam plan.ramCandidates plan.ramReserved
    have hsum : targetSum plan.ramTargets plan.ramCandidates ≤
        ramRemaining pool reclaimRam plan.ramCandidates plan.ramReserved :=
      grant_sum_le hram hnonneg
    omega

end TyloQuant.MemoryBudget
