import TyloQuant.Lib.Shares
import TyloQuant.MemoryBudget.Pool

/-!
# The resident budget

`_rebalance_resident_budget` gives each idle runtime what it uses and a reserve, takes back prefix
caches and then weights until the sum fits, hands what is left to the last one, and keeps each
within its device.  The limits are applied one runtime after another, and taken back when one fails.
-/

namespace TyloQuant.MemoryBudget

open Lib List

/-! ### The plan -/

/-- The sum of the targets of some runtimes. -/
def targetSum (targets : Nat → Int) (items : List Runtime) : Int :=
  shareSum Runtime.id targets items

/-- The targets while they are cut back. -/
structure Draft where
  targets : Nat → Int
  excess : Int
  trims : List (Nat × Int)

/-- A prefix cache yields. -/
def trimPrefix (draft : Draft) (item : Runtime) : Draft :=
  let hot := (item.memory.bind RuntimeMemoryResources.prefixCacheBytes).getD 0
  let released := min draft.excess hot
  if released ≠ 0 then
    { targets := Function.update draft.targets item.id (draft.targets item.id - released)
      excess := draft.excess - released
      trims := draft.trims ++ [(item.id, hot - released)] }
  else draft

/-- Weights yield. -/
def releaseWeights (draft : Draft) (item : Runtime) : Draft :=
  let released := min draft.excess item.reclaimableWeightBytes
  { draft with
    targets := Function.update draft.targets item.id (draft.targets item.id - released)
    excess := draft.excess - released }

/-- A runtime of one device stays within what the device has left. -/
def clampItem (device : Device) (state : (Nat → Int) × Int) (item : Runtime) :
    Except BudgetError ((Nat → Int) × Int) :=
  if item.deviceIds = [device.id] then
    let target := min (state.1 item.id) (max 0 state.2)
    if target ≤ 0 then
      .error (.backend "resident_budget_exhausted" "selected GPU has no free resident capacity" 413)
    else .ok (Function.update state.1 item.id target, state.2 - target)
  else .ok state

def clampDevice (current idle ordered : List Runtime) (targets : Nat → Int) (device : Device) :
    Except BudgetError (Nat → Int) :=
  match device.memoryAvailableBytes with
  | none => .ok targets
  | some free =>
    let assigned := idle.filter fun item => item.deviceIds = [device.id]
    let occupied := current.filter fun item => item ∉ idle ∧ item.deviceIds = [device.id]
    let room := free + (assigned.map Runtime.residentMemoryUsed).sum -
      (occupied.map fun item => max 0 (item.residentBudgetLimit - item.residentMemoryUsed)).sum
    match ordered.foldlM (clampItem device) (targets, room) with
    | .error e => .error e
    | .ok state => .ok state.1

/-- The arguments of a rebalance. -/
structure Request where
  preferred : Option Nat := none
  additionalBytes : Int := 0
  prospectiveModel : Option String := none
  activating : Option Nat := none

/-- What a rebalance has decided: the idle runtimes with their targets, beside what is fixed. -/
structure ResidentPlan where
  total : Int
  fixed : Int
  additionalBytes : Int
  idle : List Runtime
  targets : Nat → Int
  trims : List (Nat × Int)

def isIdle (request : Request) (item : Runtime) : Bool :=
  (item.state = .ready ∨ request.activating = some item.id ∧ item.state = .loading) ∧
    item.activeRequests = 0 ∧ item.queuedRequests = 0 ∧
    item.controlLeases =
      item.readControlLeases + (if request.activating = some item.id then 1 else 0) ∧
    item.residentDynamicBudget = true

def unsupported (request : Request) (item : Runtime) : Bool :=
  (item.state ≠ .loading ∨ request.activating = some item.id) ∧ item.residentDynamicBudget = false

/-- From the last used on, and the preferred runtime at the end. -/
def precedes (preferred : Option Nat) : Runtime → Runtime → Bool :=
  flaggedLe (fun item => preferred == some item.id) Runtime.lastUsed

/-- The targets of the idle runtimes within what is available, and the bytes for the load. -/
def shareResident (request : Request) (idle ordered : List Runtime) (total available : Int) :
    Except BudgetError (Draft × Int) :=
  let reserve := min (256 * 2 ^ 20) (total / 20)
  let used : Nat → Int := fun id =>
    ((idle.find? fun item => item.id = id).map fun item => item.residentMemoryUsed + reserve).getD 0
  let excess := max 0 (targetSum used idle - available)
  let draft := ordered.foldl trimPrefix { targets := used, excess, trims := [] }
  let draft := ordered.foldl releaseWeights draft
  if draft.excess ≠ 0 ∨ available < 0 then
    .error (.backend "resident_budget_exhausted" ("non-offloadable weights, live KV and " ++
      "execution headroom exceed the shared resident budget") 413)
  else
    let spare := max 0 (available - targetSum draft.targets idle)
    if request.additionalBytes = 0 then
      match ordered.getLast? with
      | none => .ok (draft, 0)
      | some last => .ok ({ draft with
          targets := Function.update draft.targets last.id (draft.targets last.id + spare) }, 0)
    else
      .ok (draft, request.additionalBytes + if request.prospectiveModel.isSome then spare else 0)

/-- `_rebalance_resident_budget`, up to the targets. -/
def planResident (pool : Pool) (request : Request) : Except BudgetError (Option ResidentPlan) :=
  match residentTotalLimit pool.maxRuntimeMemoryBytes pool.memoryPolicy with
  | none => .ok none
  | some total =>
    let current := pool.instances.filter fun item => item.state ≠ .failed
    if ∃ model ∈ request.prospectiveModel,
        model ∈ pool.loadingModelNames ∨ model ∈ current.map Runtime.name then .ok none
    else if pool.memoryPolicy.totalLimitBytes.isSome ∧ current.any (unsupported request) then
      .error (.backend "resident_budget_unsupported"
        "this runtime does not support online shared resident budgets" 501)
    else
      let idle := current.filter (isIdle request)
      if idle = [] ∧ request.additionalBytes = 0 then .ok none
      else if pool.memoryPolicy.totalLimitBytes = none ∧ current.any (unsupported request) then
        .ok none
      else
        let total := (pool.effective.map (min total)).getD total
        let fixed := ((current.filter fun item => item ∉ idle).map fun item =>
            if item.residentBudgetLimit ≠ 0 then item.residentBudgetLimit
            else committedRuntimeBytes item).sum +
          ((pool.residentLoadLimits.filter fun load => load.1 ∉ current.map Runtime.name).map
            Prod.snd).sum
        let available := total - fixed - request.additionalBytes
        if idle = [] then
          if available < 0 ∧ request.additionalBytes ≠ 0 then
            .error (.backend "resident_budget_exhausted"
              "the shared resident budget has no capacity for this load" 413)
          else
            let additionalBytes := request.additionalBytes +
              if request.prospectiveModel.isSome then max 0 available else 0
            .ok (some { total, fixed, additionalBytes, idle, targets := fun _ => 0, trims := [] })
        else
          let ordered := idle.mergeSort (precedes request.preferred)
          match shareResident request idle ordered total available with
          | .error e => .error e
          | .ok (draft, additionalBytes) =>
            match pool.devices.foldlM (clampDevice current idle ordered) draft.targets with
            | .error e => .error e
            | .ok targets => .ok (some
                { total, fixed, additionalBytes, idle, targets, trims := draft.trims })

/-! ### What the plan adds up to -/

variable {idle ordered current : List Runtime} {draft : Draft} {request : Request}
  {total available : Int}

variable {item : Runtime} {targets : Nat → Int}

theorem targetSum_update (hids : (idle.map Runtime.id).Nodup) (hitem : item ∈ idle) (value : Int) :
    targetSum (Function.update targets item.id value) idle =
      targetSum targets idle - targets item.id + value :=
  shareSum_update hids hitem value

theorem trimPrefix_gap (hids : (idle.map Runtime.id).Nodup) (hitem : item ∈ idle) :
    targetSum (trimPrefix draft item).targets idle - (trimPrefix draft item).excess =
      targetSum draft.targets idle - draft.excess := by
  unfold trimPrefix
  simp only
  split
  · rw [targetSum_update hids hitem]
    simp only
    omega
  · rfl

theorem releaseWeights_gap (hids : (idle.map Runtime.id).Nodup) (hitem : item ∈ idle) :
    targetSum (releaseWeights draft item).targets idle - (releaseWeights draft item).excess =
      targetSum draft.targets idle - draft.excess := by
  unfold releaseWeights
  simp only
  rw [targetSum_update hids hitem]
  omega

/-- What is taken back from the targets is taken off the excess. -/
theorem foldl_gap {pass : Draft → Runtime → Draft}
    (hpass : ∀ draft, ∀ item ∈ idle,
      targetSum (pass draft item).targets idle - (pass draft item).excess =
      targetSum draft.targets idle - draft.excess)
    (hordered : ∀ item ∈ ordered, item ∈ idle) :
    targetSum (ordered.foldl pass draft).targets idle - (ordered.foldl pass draft).excess =
      targetSum draft.targets idle - draft.excess := by
  induction ordered generalizing draft with
  | nil => rfl
  | cons item items ih =>
    rw [foldl_cons, ih fun item hitem => hordered item (mem_cons_of_mem _ hitem)]
    exact hpass draft item (hordered item mem_cons_self)

theorem shareResident_sum_le (hids : (idle.map Runtime.id).Nodup)
    (hordered : ∀ item ∈ ordered, item ∈ idle) {additionalBytes : Int}
    (hshare : shareResident request idle ordered total available = .ok (draft, additionalBytes)) :
    targetSum draft.targets idle + (additionalBytes - request.additionalBytes) ≤ available := by
  unfold shareResident at hshare
  simp only at hshare
  obtain ⟨hfits, hshare⟩ := guard_eq_ok.mp hshare
  rw [not_or, not_not] at hfits
  obtain ⟨hexcess, hroom⟩ := hfits
  set used : Nat → Int := fun id => ((idle.find? fun item => item.id = id).map fun item =>
    item.residentMemoryUsed + min (256 * 2 ^ 20) (total / 20)).getD 0
  set trimmed := ordered.foldl trimPrefix
    { targets := used, excess := max 0 (targetSum used idle - available), trims := [] }
    with htrimmed
  have hweights := @foldl_gap idle ordered trimmed releaseWeights
    (fun _ _ hitem => releaseWeights_gap hids hitem) hordered
  have htrims : targetSum trimmed.targets idle - trimmed.excess =
      targetSum used idle - max 0 (targetSum used idle - available) :=
    foldl_gap (fun _ _ hitem => trimPrefix_gap hids hitem) hordered
  set released := ordered.foldl releaseWeights trimmed
  have hsum : targetSum released.targets idle ≤ available := by
    omega
  split at hshare
  next hnone =>
    split at hshare
    next =>
      have hpair := Except.ok.inj hshare
      rw [Prod.mk.injEq] at hpair
      obtain ⟨rfl, rfl⟩ := hpair
      omega
    next last hlast =>
      have hpair := Except.ok.inj hshare
      rw [Prod.mk.injEq] at hpair
      obtain ⟨rfl, rfl⟩ := hpair
      have hmem : last ∈ idle := hordered last (mem_of_getLast? hlast)
      rw [targetSum_update hids hmem]
      omega
  next hadditional =>
    have hpair := Except.ok.inj hshare
    rw [Prod.mk.injEq] at hpair
    obtain ⟨rfl, rfl⟩ := hpair
    split <;> omega

variable {device : Device}

theorem clampItem_sum_le (hids : (idle.map Runtime.id).Nodup) {state state' : (Nat → Int) × Int}
    (hitem : item ∈ idle) (hclamp : clampItem device state item = .ok state') :
    targetSum state'.1 idle ≤ targetSum state.1 idle := by
  unfold clampItem at hclamp
  split at hclamp
  · obtain ⟨-, hok⟩ := guard_eq_ok.mp hclamp
    obtain rfl := Except.ok.inj hok
    have hmin : min (state.1 item.id) (max 0 state.2) ≤ state.1 item.id := min_le_left _ _
    rw [targetSum_update hids hitem]
    omega
  · obtain rfl := Except.ok.inj hclamp
    exact Int.le_refl _

/-- A pass that never raises a measure does not raise it over a list. -/
theorem foldlM_le {σ α ε : Type} {pass : σ → α → Except ε σ} {measure : σ → Int} {xs : List α}
    (hpass : ∀ x ∈ xs, ∀ s s', pass s x = .ok s' → measure s' ≤ measure s) {s s' : σ}
    (hrun : xs.foldlM pass s = .ok s') : measure s' ≤ measure s := by
  induction xs generalizing s with
  | nil =>
    obtain rfl := pure_eq_ok.mp hrun
    exact Int.le_refl _
  | cons x xs ih =>
    rw [foldlM_cons] at hrun
    obtain ⟨next, hnext, hrest⟩ := bind_eq_ok.mp hrun
    exact Int.le_trans (ih (fun x hx => hpass x (mem_cons_of_mem _ hx)) hrest)
      (hpass x mem_cons_self s next hnext)

theorem clampDevice_sum_le (hids : (idle.map Runtime.id).Nodup)
    (hordered : ∀ item ∈ ordered, item ∈ idle) {targets' : Nat → Int}
    (hclamp : clampDevice current idle ordered targets device = .ok targets') :
    targetSum targets' idle ≤ targetSum targets idle := by
  unfold clampDevice at hclamp
  split at hclamp
  · obtain rfl := Except.ok.inj hclamp
    exact Int.le_refl _
  · simp only at hclamp
    split at hclamp
    · cases hclamp
    next state hrun =>
      obtain rfl := Except.ok.inj hclamp
      exact @foldlM_le _ _ _ _ (fun state => targetSum state.1 idle) _
        (fun item hitem _ _ hstep => clampItem_sum_le hids (hordered item hitem) hstep) _ _ hrun

/-- The targets, what is fixed and the bytes for the load stay within the total. -/
def ResidentPlan.Fits (plan : ResidentPlan) : Prop :=
  targetSum plan.targets plan.idle + plan.fixed + plan.additionalBytes ≤ plan.total

theorem planResident_fits {pool : Pool} (hids : (pool.instances.map Runtime.id).Nodup)
    {plan : ResidentPlan} (hplan : planResident pool request = .ok (some plan)) :
    plan.Fits ∧ (plan.idle.map Runtime.id).Nodup := by
  unfold planResident at hplan
  split at hplan
  · cases hplan
  next limit =>
    simp only at hplan
    set current := pool.instances.filter fun item => item.state ≠ .failed
    split at hplan
    · cases hplan
    · obtain ⟨-, hplan⟩ := guard_eq_ok.mp hplan
      split at hplan
      · cases hplan
      next hwanted =>
        split at hplan
        · cases hplan
        · have hidle : ((current.filter (isIdle request)).map Runtime.id).Nodup :=
            hids.sublist ((filter_sublist.trans filter_sublist).map Runtime.id)
          split at hplan
          next hnone =>
            obtain ⟨hroom, hok⟩ := guard_eq_ok.mp hplan
            obtain rfl := Option.some.inj (Except.ok.inj hok)
            refine ⟨?_, hidle⟩
            have hzero : targetSum (fun _ => 0) (current.filter (isIdle request)) = 0 := by
              rw [hnone]
              rfl
            rw [ResidentPlan.Fits]
            simp only [hzero]
            have hneeded : request.additionalBytes ≠ 0 := fun hzero => hwanted ⟨hnone, hzero⟩
            split <;> omega
          next hsome =>
            split at hplan
            · cases hplan
            next draft additionalBytes hshare =>
              split at hplan
              · cases hplan
              next targets hclamp =>
                obtain rfl := Option.some.inj (Except.ok.inj hplan)
                refine ⟨?_, hidle⟩
                have hordered : ∀ item ∈ (current.filter (isIdle request)).mergeSort
                    (precedes request.preferred), item ∈ current.filter (isIdle request) :=
                  fun item hitem => (mergeSort_perm _ _).mem_iff.mp hitem
                have hsum := shareResident_sum_le hidle hordered hshare
                have hdevices := @foldlM_le _ _ _ _
                  (fun targets => targetSum targets (current.filter (isIdle request))) _
                  (fun device _ _ _ hstep => clampDevice_sum_le hidle hordered hstep) _ _ hclamp
                rw [ResidentPlan.Fits]
                simp only at hdevices ⊢
                omega

/-! ### The calls -/

def weightTarget (pool : Pool) (item : Runtime) : Int :=
  if pool.memoryPolicy.modelLimitBytes.isSome then
    (pool.policyModelLimits.lookup item.name).getD 0
  else 0

def weightChanges (pool : Pool) (item : Runtime) : Bool :=
  item.residentWeightDynamicBudget ∧ weightTarget pool item ≠ item.residentWeightBudgetLimit

/-- The runtimes to call, those that shrink first. -/
def residentChanges (pool : Pool) (plan : ResidentPlan) : List Runtime :=
  let changed := plan.idle.filter fun item =>
    plan.targets item.id ≠ item.residentBudgetLimit ∨ item.id ∈ plan.trims.map Prod.fst ∨
      weightChanges pool item
  changed.mergeSort (flaggedLe
    (fun item => item.residentBudgetLimit < plan.targets item.id ∧ item.residentBudgetLimit ≠ 0)
    fun item => plan.targets item.id)

def residentCalls (pool : Pool) (plan : ResidentPlan) : List Runtime :=
  (residentChanges pool plan).filter fun item =>
    plan.targets item.id ≠ item.residentBudgetLimit ∨ weightChanges pool item

/-- The limits before the calls. -/
def residentLimits (items : List Runtime) : Nat → Int := fun id =>
  ((items.find? fun item => item.id = id).map Runtime.residentBudgetLimit).getD 0

/-- The applied limits after each call, when the trims and the calls succeed or fail as given. -/
def residentStates (pool : Pool) (plan : ResidentPlan) (trimmed ok : Runtime → Bool) :
    List (Nat → Int) :=
  if ∀ item ∈ plan.idle, item.id ∈ plan.trims.map Prod.fst → trimmed item then
    allOrBack ok (changeShare Runtime.id fun item => plan.targets item.id)
      (changeShare Runtime.id Runtime.residentBudgetLimit) [] (residentCalls pool plan)
      (residentLimits plan.idle)
  else [residentLimits plan.idle]

variable {pool : Pool} {plan : ResidentPlan} {items : List Runtime}

theorem find_id (hids : (items.map Runtime.id).Nodup) (hitem : item ∈ items) :
    items.find? (fun other => other.id = item.id) = some item := by
  induction items with
  | nil => cases hitem
  | cons other items ih =>
    rw [map_cons, nodup_cons] at hids
    rcases mem_cons.mp hitem with rfl | hitem
    · rw [find?_cons_of_pos (by simp)]
    · have hne : other.id ≠ item.id := fun heq =>
        hids.1 (mem_map.mpr ⟨item, hitem, heq.symm⟩)
      rw [find?_cons_of_neg (by simpa using hne)]
      exact ih hids.2 hitem

theorem residentLimits_eq (hids : (items.map Runtime.id).Nodup) (hitem : item ∈ items) :
    residentLimits items item.id = item.residentBudgetLimit := by
  rw [residentLimits, find_id hids hitem]
  rfl

theorem residentCalls_subperm :
    ∃ kept, (residentCalls pool plan).Perm kept ∧ kept.Sublist plan.idle := by
  set changed := plan.idle.filter fun item =>
    plan.targets item.id ≠ item.residentBudgetLimit ∨ item.id ∈ plan.trims.map Prod.fst ∨
      weightChanges pool item
  exact ⟨_, (mergeSort_perm changed _).filter _, filter_sublist.trans filter_sublist⟩

/-- What is not called has its target already. -/
theorem residentCalls_complete (hitem : item ∈ plan.idle) (hskip : item ∉ residentCalls pool plan) :
    plan.targets item.id = item.residentBudgetLimit := by
  by_contra hne
  refine hskip (mem_filter.mpr ⟨?_, by simp [hne]⟩)
  exact (mergeSort_perm _ _).mem_iff.mpr (mem_filter.mpr ⟨hitem, by simp [hne]⟩)

/-- While the limits are applied and taken back, their sum stays between its ends. -/
theorem residentStates_bounded (hids : (plan.idle.map Runtime.id).Nodup)
    (hlimits : ∀ item ∈ plan.idle, item.residentBudgetLimit ≠ 0) {trimmed ok : Runtime → Bool}
    {limits : Nat → Int} (h : limits ∈ residentStates pool plan trimmed ok) :
    targetSum limits plan.idle ≤
      max (targetSum (residentLimits plan.idle) plan.idle) (targetSum plan.targets plan.idle) := by
  obtain ⟨kept, hperm, hsub⟩ := @residentCalls_subperm pool plan
  have hcalls : ∀ item ∈ residentCalls pool plan, item ∈ plan.idle :=
    fun item hitem => hsub.subset (hperm.mem_iff.mp hitem)
  have hnodup : ((residentCalls pool plan).map Runtime.id).Nodup :=
    (hperm.map _).nodup_iff.mpr (hids.sublist (hsub.map _))
  have hbefore : ∀ item ∈ plan.idle, residentLimits plan.idle item.id = item.residentBudgetLimit :=
    fun item hitem => residentLimits_eq hids hitem
  rw [residentStates] at h
  split at h
  · obtain ⟨k, rfl⟩ := @mem_allOrBack _ _ _ ok _ _ _ _ [] (fun before item after heq =>
      changeShare_back hnodup (fun item hitem => hbefore item (hcalls item hitem)) heq) h
    rw [reverse_nil, List.nil_append]
    have hplanned : targetSum plan.targets plan.idle =
        targetSum (residentLimits plan.idle) plan.idle +
          ((residentCalls pool plan).map fun item =>
            plan.targets item.id - residentLimits plan.idle item.id).sum :=
      (shareSum_foldl_all hids hcalls hnodup fun item hitem hskip =>
        (residentCalls_complete hitem hskip).trans (hbefore item hitem).symm).symm.trans
        (shareSum_foldl hids hcalls hnodup)
    have hsorted : (residentCalls pool plan).Pairwise fun a b => flaggedLe
        (fun item => item.residentBudgetLimit < plan.targets item.id ∧ item.residentBudgetLimit ≠ 0)
        (fun item => plan.targets item.id) a b = true := (flaggedLe_sorted _).filter _
    obtain ⟨hparts, -, -⟩ := flaggedLe_parts hsorted
    have hbound : PrefixBound ((residentCalls pool plan).map fun item =>
        plan.targets item.id - residentLimits plan.idle item.id)
        (max 0 ((residentCalls pool plan).map fun item =>
          plan.targets item.id - residentLimits plan.idle item.id).sum) := by
      rw [hparts, map_append]
      refine prefixBound_valley (fun delta hdelta => ?_) (fun delta hdelta => ?_)
      · obtain ⟨item, hitem, rfl⟩ := mem_map.mp hdelta
        obtain ⟨hcall, hflag⟩ := mem_filter.mp hitem
        have hlimit := hlimits item (hcalls item hcall)
        rw [hbefore item (hcalls item hcall)]
        simp only [Bool.not_eq_true', decide_eq_false_iff_not, not_and, not_not] at hflag
        by_contra hgrows
        exact hlimit (hflag (by omega))
      · obtain ⟨item, hitem, rfl⟩ := mem_map.mp hdelta
        obtain ⟨hcall, hflag⟩ := mem_filter.mp hitem
        rw [hbefore item (hcalls item hcall)]
        have hgrows := (decide_eq_true_iff.mp hflag).1
        omega
    have hall := (shareSum_le_iff hids hcalls hnodup).mpr
      (show PrefixBound _ (max (targetSum (residentLimits plan.idle) plan.idle)
        (targetSum plan.targets plan.idle) - targetSum (residentLimits plan.idle) plan.idle) by
          rw [hplanned]
          convert hbound using 1
          omega) k
    exact hall
  · rw [mem_singleton.mp h]
    exact le_max_left _ _

end TyloQuant.MemoryBudget
