import TyloQuant.MemoryBudget.Prefix

/-!
# Over-committed budgets

While the prefix limits are applied one by one, the sum of the RAM limits stays between its ends.
That of the limits on the device does too, unless the runtimes whose RAM does not grow, which are
called first, gain on the device what those whose RAM grows then give up.
-/

namespace TyloQuant.MemoryBudget

open Lib List

namespace PrefixPlan

variable {plan : PrefixPlan} {ok : Runtime → Bool} {limits : PrefixLimits}

/-! ### The limits along the way -/

/-- The sum of the applied limits on the device. -/
def hotSum (plan : PrefixPlan) (limits : PrefixLimits) : Int := targetSum limits.hot plan.candidates

def ramSum (plan : PrefixPlan) (limits : PrefixLimits) : Int :=
  targetSum limits.ram plan.ramCandidates

variable {item : Runtime}

theorem limitsOf_eq {field : Runtime → Int} {items : List Runtime}
    (hids : (items.map Runtime.id).Nodup) (hitem : item ∈ items) :
    limitsOf field items item.id = field item := by
  rw [limitsOf, find_id hids hitem]
  rfl

theorem foldl_call_hot (cs : List Runtime) :
    (cs.foldl plan.call limits).hot =
      cs.foldl (changeShare Runtime.id fun item => plan.targets item.id) limits.hot := by
  induction cs generalizing limits with
  | nil => rfl
  | cons c cs ih => exact ih

theorem foldl_call_ram (cs : List Runtime) :
    (cs.foldl plan.call limits).ram =
      (cs.filter hasRam).foldl (changeShare Runtime.id fun item => plan.ramTargets item.id)
        limits.ram := by
  induction cs generalizing limits with
  | nil => rfl
  | cons c cs ih =>
    rw [foldl_cons, ih, call]
    by_cases hram : hasRam c
    · rw [filter_cons_of_pos hram, if_pos hram, foldl_cons]
    · rw [filter_cons_of_neg hram, if_neg hram]

theorem mem_changes : item ∈ plan.changes ↔ item ∈ plan.candidates ∧ plan.changed item = true :=
  (mergeSort_perm _ _).mem_iff.trans mem_filter

theorem changes_nodup (hids : (plan.candidates.map Runtime.id).Nodup) :
    (plan.changes.map Runtime.id).Nodup :=
  ((mergeSort_perm _ _).map _).nodup_iff.mpr (hids.sublist (filter_sublist.map _))

/-- What is not called has its share already. -/
theorem target_of_unchanged (h : plan.changed item = false) :
    plan.targets item.id = hotLimit item ∧
      (hasRam item = true → plan.ramTargets item.id = ramLimit item) := by
  simp only [changed, decide_eq_false_iff_not, not_or, not_and, not_not] at h
  refine ⟨by rw [hotLimit, h.1]; rfl, fun hram => ?_⟩
  rw [ramLimit, h.2.2 hram]
  rfl

theorem hot_shrinks (h : plan.hotGrows item = false) :
    plan.targets item.id - hotLimit item ≤ 0 := by
  simp only [hotGrows, decide_eq_false_iff_not] at h
  omega

theorem hot_grows (h : plan.hotGrows item = true) : 0 ≤ plan.targets item.id - hotLimit item := by
  simp only [hotGrows, decide_eq_true_eq] at h
  omega

/-- How much the limits on the device of some runtimes change. -/
def hotShift (plan : PrefixPlan) (items : List Runtime) : Int :=
  (items.map fun item => plan.targets item.id - hotLimit item).sum

theorem hotShift_changes (p : Runtime → Bool) :
    plan.hotShift (plan.changes.filter p) = plan.hotShift (plan.candidates.filter p) := by
  have hperm := (mergeSort_perm (plan.candidates.filter plan.changed)
    (flaggedLe plan.ramGrows plan.hotGrows)).filter p
  refine ((hperm.map _).sum_eq).trans ?_
  induction plan.candidates with
  | nil => rfl
  | cons item items ih =>
    by_cases hchanged : plan.changed item = true
    · rw [filter_cons_of_pos hchanged]
      by_cases hp : p item = true
      · rw [filter_cons_of_pos hp, map_cons, sum_cons, ih,
          filter_cons_of_pos hp, hotShift, hotShift, map_cons, sum_cons]
      · rw [filter_cons_of_neg hp, ih, filter_cons_of_neg hp]
    · rw [filter_cons_of_neg hchanged, ih]
      by_cases hp : p item = true
      · have hsame := (target_of_unchanged (Bool.not_eq_true _ ▸ hchanged)).1
        rw [filter_cons_of_pos hp, hotShift, hotShift, map_cons, sum_cons]
        omega
      · rw [filter_cons_of_neg hp]

/-! ### The order of the calls -/

/-- The calls shrink and grow the limits on the device twice over. -/
theorem hotPrefixBound_iff :
    PrefixBound (plan.changes.map fun item => plan.targets item.id - hotLimit item)
        (max 0 (plan.hotShift plan.changes)) ↔
      plan.hotShift (plan.changes.filter fun item => !plan.ramGrows item) ≤ 0 ∨
        0 ≤ plan.hotShift (plan.changes.filter plan.ramGrows) := by
  have hsorted : plan.changes.Pairwise fun a b => flaggedLe plan.ramGrows plan.hotGrows a b = true :=
    flaggedLe_sorted _
  obtain ⟨hparts, hfirst, hsecond⟩ := flaggedLe_parts hsorted
  have hfirstParts := filter_of_pairwise hfirst
  have hsecondParts := filter_of_pairwise hsecond
  set first := plan.changes.filter fun item => !plan.ramGrows item
  set second := plan.changes.filter plan.ramGrows
  set delta : Runtime → Int := fun item => plan.targets item.id - hotLimit item
  have hshrinks : ∀ items : List Runtime,
      ∀ d ∈ (items.filter fun item => !plan.hotGrows item).map delta,
      d ≤ 0 := by
    intro items d hd
    obtain ⟨item, hitem, rfl⟩ := mem_map.mp hd
    exact hot_shrinks (by simpa using (mem_filter.mp hitem).2)
  have hgrows : ∀ items : List Runtime, ∀ d ∈ (items.filter plan.hotGrows).map delta, 0 ≤ d := by
    intro items d hd
    obtain ⟨item, hitem, rfl⟩ := mem_map.mp hd
    exact hot_grows (mem_filter.mp hitem).2
  have hmap : plan.changes.map delta = ((first.filter fun item => !plan.hotGrows item).map delta ++
        (first.filter plan.hotGrows).map delta) ++
      ((second.filter fun item => !plan.hotGrows item).map delta ++
        (second.filter plan.hotGrows).map delta) := by
    rw [← map_append, ← map_append, ← hfirstParts, ← hsecondParts, ← map_append,
      ← hparts]
  have htwo := prefixBound_two_valleys (hshrinks first) (hgrows first) (hshrinks second)
    (hgrows second)
  rw [← hmap, ← sum_append, ← sum_append, ← map_append, ← map_append,
    ← hfirstParts, ← hsecondParts] at htwo
  exact htwo

theorem ramPrefixBound :
    PrefixBound ((plan.changes.filter hasRam).map fun item => plan.ramTargets item.id - ramLimit item)
      (max 0 ((plan.changes.filter hasRam).map fun item =>
        plan.ramTargets item.id - ramLimit item).sum) := by
  have hsorted : (plan.changes.filter hasRam).Pairwise
      fun a b => flaggedLe plan.ramGrows plan.hotGrows a b = true := (flaggedLe_sorted _).filter _
  obtain ⟨hparts, -, -⟩ := flaggedLe_parts hsorted
  rw [hparts, map_append]
  refine prefixBound_valley (fun d hd => ?_) (fun d hd => ?_)
  · obtain ⟨item, hitem, rfl⟩ := mem_map.mp hd
    obtain ⟨hmem, hflag⟩ := mem_filter.mp hitem
    have hram := (mem_filter.mp hmem).2
    simp only [ramGrows, hram, if_true, Bool.not_eq_true', decide_eq_false_iff_not] at hflag
    omega
  · obtain ⟨item, hitem, rfl⟩ := mem_map.mp hd
    obtain ⟨hmem, hflag⟩ := mem_filter.mp hitem
    have hram := (mem_filter.mp hmem).2
    simp only [ramGrows, hram, if_true, decide_eq_true_eq] at hflag
    omega

/-- The sums of the applied limits after any calls are between those before and those planned. -/
def HotKept (plan : PrefixPlan) : Prop :=
  ∀ (ok : Runtime → Bool), ∀ limits ∈ plan.states ok,
    plan.hotSum limits ≤ max (plan.hotSum plan.before) (targetSum plan.targets plan.candidates)

def RamKept (plan : PrefixPlan) : Prop :=
  ∀ (ok : Runtime → Bool), ∀ limits ∈ plan.states ok,
    plan.ramSum limits ≤ max (plan.ramSum plan.before) (targetSum plan.ramTargets plan.ramCandidates)

/-- The runtimes whose RAM does not grow do not gain on the device, or the others do not lose. -/
def ShrinksFirst (plan : PrefixPlan) : Prop :=
  plan.hotShift (plan.candidates.filter fun item => !plan.ramGrows item) ≤ 0 ∨
    0 ≤ plan.hotShift (plan.candidates.filter plan.ramGrows)

theorem hotKept_iff (hids : (plan.candidates.map Runtime.id).Nodup) :
    plan.HotKept ↔ plan.ShrinksFirst := by
  have hmem : ∀ item ∈ plan.changes, item ∈ plan.candidates := fun item hitem =>
    (mem_changes.mp hitem).1
  have hnodup := @changes_nodup plan hids
  have hbefore : ∀ item ∈ plan.candidates, plan.before.hot item.id = hotLimit item :=
    fun item hitem => limitsOf_eq hids hitem
  have hdeltas : (plan.changes.map fun item => plan.targets item.id - plan.before.hot item.id) =
      plan.changes.map fun item => plan.targets item.id - hotLimit item :=
    map_congr_left fun item hitem => by rw [hbefore item (hmem item hitem)]
  have hskipped : ∀ item ∈ plan.candidates, item ∉ plan.changes →
      plan.targets item.id = plan.before.hot item.id := fun item hitem hskip => by
    have hsame : plan.changed item = false := by
      by_contra hne
      exact hskip (mem_changes.mpr ⟨hitem, by simpa using hne⟩)
    rw [hbefore item hitem]
    exact (target_of_unchanged hsame).1
  have hplanned : targetSum plan.targets plan.candidates =
      plan.hotSum plan.before + plan.hotShift plan.changes := by
    have hall := (shareSum_foldl_all hids hmem hnodup hskipped).symm.trans
      (shareSum_foldl hids hmem hnodup)
    rw [hdeltas] at hall
    exact hall
  have hruns : plan.HotKept ↔ ∀ k, shareSum Runtime.id ((plan.changes.take k).foldl
      (changeShare Runtime.id fun item => plan.targets item.id) plan.before.hot) plan.candidates ≤
        max (plan.hotSum plan.before) (targetSum plan.targets plan.candidates) := by
    constructor
    · intro h k
      have hk := h (fun _ => true) _ (foldl_mem_oneByOne k)
      rw [hotSum, foldl_call_hot] at hk
      exact hk
    · intro h ok limits hlimits
      obtain ⟨k, rfl⟩ := mem_oneByOne hlimits
      rw [hotSum, foldl_call_hot]
      exact h k
  have hbound : max (plan.hotSum plan.before) (targetSum plan.targets plan.candidates) -
      shareSum Runtime.id plan.before.hot plan.candidates = max 0 (plan.hotShift plan.changes) := by
    have hsame : shareSum Runtime.id plan.before.hot plan.candidates = plan.hotSum plan.before := rfl
    omega
  rw [hruns, shareSum_le_iff hids hmem hnodup, hdeltas, hbound, hotPrefixBound_iff, hotShift_changes,
    hotShift_changes, ShrinksFirst]

theorem ramKept (hids : (plan.candidates.map Runtime.id).Nodup) : plan.RamKept := by
  have hram : (plan.ramCandidates.map Runtime.id).Nodup := hids.sublist (filter_sublist.map _)
  have hmem : ∀ item ∈ plan.changes.filter hasRam, item ∈ plan.ramCandidates := fun item hitem => by
    obtain ⟨hitem, hflag⟩ := mem_filter.mp hitem
    exact mem_filter.mpr ⟨(mem_changes.mp hitem).1, hflag⟩
  have hnodup : ((plan.changes.filter hasRam).map Runtime.id).Nodup :=
    (changes_nodup hids).sublist (filter_sublist.map _)
  have hbefore : ∀ item ∈ plan.ramCandidates, plan.before.ram item.id = ramLimit item :=
    fun item hitem => limitsOf_eq hids (mem_filter.mp hitem).1
  have hdeltas : ((plan.changes.filter hasRam).map fun item =>
      plan.ramTargets item.id - plan.before.ram item.id) =
        (plan.changes.filter hasRam).map fun item => plan.ramTargets item.id - ramLimit item :=
    map_congr_left fun item hitem => by rw [hbefore item (hmem item hitem)]
  set shift := ((plan.changes.filter hasRam).map fun item =>
    plan.ramTargets item.id - ramLimit item).sum with hshift
  have hskipped : ∀ item ∈ plan.ramCandidates, item ∉ plan.changes.filter hasRam →
      plan.ramTargets item.id = plan.before.ram item.id := fun item hitem hskip => by
    obtain ⟨hcandidate, hflag⟩ := mem_filter.mp hitem
    have hsame : plan.changed item = false := by
      by_contra hne
      exact hskip (mem_filter.mpr ⟨mem_changes.mpr ⟨hcandidate, by simpa using hne⟩, hflag⟩)
    rw [hbefore item hitem]
    exact (target_of_unchanged hsame).2 hflag
  have hplanned : targetSum plan.ramTargets plan.ramCandidates = plan.ramSum plan.before + shift := by
    have hall := (shareSum_foldl_all hram hmem hnodup hskipped).symm.trans
      (shareSum_foldl hram hmem hnodup)
    rw [hdeltas] at hall
    exact hall
  intro ok limits hlimits
  obtain ⟨k, rfl⟩ := mem_oneByOne hlimits
  have htake : ∃ j, (plan.changes.take k).filter hasRam = (plan.changes.filter hasRam).take j := by
    refine ⟨((plan.changes.take k).filter hasRam).length, ?_⟩
    have hsplit : plan.changes.filter hasRam =
        (plan.changes.take k).filter hasRam ++ (plan.changes.drop k).filter hasRam := by
      rw [← filter_append, take_append_drop]
    rw [hsplit, take_append_of_le_length (Nat.le_refl _), take_length]
  obtain ⟨j, hj⟩ := htake
  rw [ramSum, foldl_call_ram, hj]
  refine (shareSum_le_iff hram hmem hnodup).mpr ?_ j
  rw [hdeltas, hplanned]
  have hsame : shareSum Runtime.id plan.before.ram plan.ramCandidates = plan.ramSum plan.before := rfl
  have hbound : max (plan.ramSum plan.before) (plan.ramSum plan.before + shift) -
      shareSum Runtime.id plan.before.ram plan.ramCandidates = max 0 shift := by
    omega
  rw [hbound]
  exact ramPrefixBound

end PrefixPlan

/-! ### The budgets of a pool -/

/-- A resident plan fits, and so does every sum while it is applied or taken back. -/
def ResidentKept (pool : Pool) : Prop :=
  ∀ request plan, planResident pool request = .ok (some plan) → plan.Fits ∧
    ((∀ item ∈ plan.idle, item.residentBudgetLimit ≠ 0) →
      ∀ (trimmed ok : Runtime → Bool), ∀ limits ∈ residentStates pool plan trimmed ok,
        targetSum limits plan.idle ≤ max (targetSum (residentLimits plan.idle) plan.idle)
          (targetSum plan.targets plan.idle))

/-- Weight plans, resident plans and prefix plans fit, and the sums stay between their ends while
the plans are applied. -/
structure NeverOverCommitted (pool : Pool) (preferred : Option Nat) (reclaimRam : Bool) : Prop where
  weights : ∀ policy artifacts limits hot, (artifacts.map DiscoveredModel.name).Nodup →
    (∀ item ∈ artifacts, 0 ≤ item.routedExpertBytes) → artifacts ≠ [] →
    planMemoryPolicy pool.maxRuntimeMemoryBytes policy artifacts = .ok (limits, hot) →
    PlanFits pool.maxRuntimeMemoryBytes policy artifacts limits hot
  resident : ResidentKept pool
  fits : (planPrefix pool preferred reclaimRam).Fits pool
  hot : (planPrefix pool preferred reclaimRam).HotKept
  ram : (planPrefix pool preferred reclaimRam).RamKept

/-- Only the limits on the device can pass both ends, and just when the calls that come first gain
there what the later ones give up. -/
theorem neverOverCommitted_iff (pool : Pool) (preferred : Option Nat) (reclaimRam : Bool)
    (hids : (pool.instances.map Runtime.id).Nodup) :
    NeverOverCommitted pool preferred reclaimRam ↔
      (planPrefix pool preferred reclaimRam).ShrinksFirst := by
  have hcandidates := @candidates_nodup pool preferred reclaimRam hids
  constructor
  · exact fun h => (PrefixPlan.hotKept_iff hcandidates).mp h.hot
  · intro h
    exact
      { weights := fun _ _ _ _ hnames hrouted hsome hplan =>
          planMemoryPolicy_fits hnames hrouted hsome hplan
        resident := fun _ _ hplan => by
          obtain ⟨hfits, hidle⟩ := planResident_fits hids hplan
          exact ⟨hfits, fun hlimits _ _ _ hstate => residentStates_bounded hidle hlimits hstate⟩
        fits := planPrefix_fits hids
        hot := (PrefixPlan.hotKept_iff hcandidates).mpr h
        ram := PrefixPlan.ramKept hcandidates }

/-- One runtime is under pressure on the device, and the other in RAM. -/
def pressedPool : Pool where
  memoryPolicy := { prefixLimitBytes := some 100, prefixRamLimitBytes := some 20 }
  discreteCuda := true
  instances :=
    [{ id := 0
       name := "a"
       lastUsed := 1
       prefixDynamicBudget := true
       prefixPressureBytes := 80
       memory := some
        { prefixCacheBytes := some 50
          prefixCacheLimitBytes := some 50
          prefixCacheRamBytes := some 10
          prefixCacheRamLimitBytes := some 10 } },
     { id := 1
       name := "b"
       prefixDynamicBudget := true
       prefixRamPressureBytes := 10
       memory := some
        { prefixCacheBytes := some 20
          prefixCacheLimitBytes := some 50
          prefixCacheRamBytes := some 0
          prefixCacheRamLimitBytes := some 0 } }]

/-- The plan of a pool whose runtimes all run, in the order that they are called in. -/
theorem planPrefix_eq_sharePrefix {pool : Pool}
    (hready : (pool.instances.filter fun item => item.state = .ready ∨ item.state = .busy) =
      pool.instances)
    (hcandidates : pool.instances.filter prefixCandidate = pool.instances)
    (hsorted : pool.instances.Pairwise fun a b => precedes none b a = true) :
    planPrefix pool none false = sharePrefix pool false pool.instances pool.instances := by
  rw [planPrefix]
  simp only [hready, hcandidates]
  rw [mergeSort_of_pairwise hsorted]

/-- The first call raises the sum from 100 to 130, and the second takes it back to 100. -/
theorem pressedPool_over_committed : ¬NeverOverCommitted pressedPool none false := by
  intro h
  have hids : (pressedPool.instances.map Runtime.id).Nodup := by decide
  have hfirst := (PrefixPlan.hotKept_iff (@candidates_nodup pressedPool none false hids)).mp h.hot
  rw [planPrefix_eq_sharePrefix (by decide) (by decide) (by decide),
    PrefixPlan.ShrinksFirst] at hfirst
  revert hfirst
  decide

/-- The same runtimes when nothing presses on their RAM: `b` shrinks before `a` grows. -/
def devicePressedPool : Pool :=
  { pressedPool with
    instances := pressedPool.instances.map fun item => { item with prefixRamPressureBytes := 0 } }

theorem neverOverCommitted_iff_devicePressedPool :
    NeverOverCommitted devicePressedPool none false := by
  refine (neverOverCommitted_iff devicePressedPool none false (by decide)).mpr ?_
  rw [planPrefix_eq_sharePrefix (by decide) (by decide) (by decide), PrefixPlan.ShrinksFirst]
  decide

end TyloQuant.MemoryBudget
