import TyloQuant.Lib.Outcome
import TyloQuant.Lib.Table

/-!
# The memory policy

A policy has limits for all resident memory, for the weights and for the prefix caches; what it
leaves open is resolved from the detected capacity.  `_plan_memory_policy` shares the resolved
weight limit among the models: each keeps its dense weights and a floor of its experts, and the rest
goes to the experts in proportion.
-/

namespace TyloQuant.MemoryBudget

open Lib List

structure RuntimeMemoryPolicy where
  totalLimitBytes : Option Int := none
  modelLimitBytes : Option Int := none
  prefixLimitBytes : Option Int := none
  prefixDiskLimitBytes : Option Int := none
  prefixRamLimitBytes : Option Int := none

structure DiscoveredModel where
  name : String
  totalBytes : Int
  alwaysStreamedBytes : Int
  routedExpertBytes : Int

inductive BudgetError where
  | job (code message : String)
  | backend (code message : String) (statusCode : Nat)
deriving DecidableEq

/-- `_resident_total_limit`. -/
def residentTotalLimit (maxRuntimeMemoryBytes : Option Int) (policy : RuntimeMemoryPolicy) :
    Option Int :=
  match policy.totalLimitBytes with
  | none => maxRuntimeMemoryBytes
  | some requested =>
    match maxRuntimeMemoryBytes with
    | some capacity => some (min requested capacity)
    | none => some requested

/-! ### The plan -/

def total (item : DiscoveredModel) : Int := max 0 (item.totalBytes - item.alwaysStreamedBytes)

def expert (item : DiscoveredModel) : Int := min (total item) item.routedExpertBytes

def dense (item : DiscoveredModel) : Int := total item - expert item

/-- The bytes of the experts that a model keeps under any limit. -/
def floor (policy : RuntimeMemoryPolicy) (item : DiscoveredModel) : Int :=
  min (expert item)
    (if policy.totalLimitBytes.isSome ∨ policy.modelLimitBytes.isSome then 64 * 2 ^ 20 else 5 * 2 ^ 30)

/-- The weight limit before it is resolved, and the budget of the prefix caches. -/
def resolved (maxRuntimeMemoryBytes : Option Int) (policy : RuntimeMemoryPolicy)
    (artifacts : List DiscoveredModel) : Option Int × Int :=
  let prefixes := policy.prefixLimitBytes.getD (2 * 2 ^ 30)
  match residentTotalLimit maxRuntimeMemoryBytes policy with
  | none => (policy.modelLimitBytes, prefixes)
  | some ceiling =>
    let available := max 0 (ceiling - prefixes - 2 * 2 ^ 30)
    let (prefixes, available) :=
      if policy.totalLimitBytes.isSome then
        (min prefixes (max 0 (ceiling - (artifacts.map dense).sum)),
          max 0 (ceiling - min (2 * 2 ^ 30) (ceiling / 20)))
      else (prefixes, available)
    (some (match policy.modelLimitBytes with
      | some limit => min limit available
      | none => available), prefixes)

def weightLimit (maxRuntimeMemoryBytes : Option Int) (policy : RuntimeMemoryPolicy)
    (artifacts : List DiscoveredModel) : Int :=
  (resolved maxRuntimeMemoryBytes policy artifacts).1.getD (artifacts.map total).sum

def prefixBudget (maxRuntimeMemoryBytes : Option Int) (policy : RuntimeMemoryPolicy)
    (artifacts : List DiscoveredModel) : Int :=
  (resolved maxRuntimeMemoryBytes policy artifacts).2

/-- A dictionary that a comprehension builds. -/
def dict (entries : List (String × Int)) : Table String Int :=
  entries.foldl (fun table entry => table.insert entry.1 entry.2) ∅

/-- What is left for the experts above their floors. -/
def expertRemainder (policy : RuntimeMemoryPolicy) (artifacts : List DiscoveredModel) (limit : Int) :
    Int :=
  let excess := max 0 ((artifacts.map total).sum - limit)
  let allowedExperts := max 0 ((artifacts.map expert).sum - excess)
  max 0 (allowedExperts - (artifacts.map (floor policy)).sum)

def weightShare (policy : RuntimeMemoryPolicy) (artifacts : List DiscoveredModel) (limit : Int)
    (item : DiscoveredModel) : Int :=
  let extraTotal := (artifacts.map fun item => expert item - floor policy item).sum
  dense item + floor policy item +
    expertRemainder policy artifacts limit * (expert item - floor policy item) / max 1 extraTotal

/-- `_plan_memory_policy`: the weight limits and the prefix shares. -/
def planMemoryPolicy (maxRuntimeMemoryBytes : Option Int) (policy : RuntimeMemoryPolicy)
    (artifacts : List DiscoveredModel) : Except BudgetError (Table String Int × Table String Int) :=
  if ∃ capacity ∈ maxRuntimeMemoryBytes,
      ∃ requested ∈ [policy.totalLimitBytes, policy.modelLimitBytes, policy.prefixLimitBytes],
        ∃ value ∈ requested, capacity < value then
    .error (.job "memory_budget_exceeds_capacity"
      "a manual budget cannot exceed detected inference memory")
  else if artifacts = [] then .ok (∅, ∅)
  else
    let limit := weightLimit maxRuntimeMemoryBytes policy artifacts
    let minimum := (artifacts.map dense).sum + (artifacts.map (floor policy)).sum
    if limit < minimum then
      .error (.job "memory_budget_too_small" (s!"these models require at least {minimum} " ++
        "weight bytes plus prefix and live KV headroom"))
    else
      let limits := dict (artifacts.map fun item =>
        (item.name, weightShare policy artifacts limit item))
      let limits := if policy.modelLimitBytes = none ∧ policy.prefixLimitBytes = none ∧
        policy.totalLimitBytes = none then ∅ else limits
      let prefixes := prefixBudget maxRuntimeMemoryBytes policy artifacts
      let share := prefixes / artifacts.length
      let remainder := prefixes % artifacts.length
      .ok (limits, dict (artifacts.mapIdx fun index item =>
        (item.name, share + if (index : Int) < remainder then 1 else 0)))

/-! ### Dictionaries -/

/-- The sum of the values of a dictionary. -/
def valueSum (table : Table String Int) : Int := (table.entries.map fun entry => entry.2).sum

theorem valueSum_insert {table : Table String Int} {name : String} (h : table.lookup name = none)
    (value : Int) : valueSum (table.insert name value) = valueSum table + value := by
  have hfresh : name ∉ table := fun hmem => by
    obtain ⟨held, hheld⟩ := (Table.mem_iff table name).mp hmem
    rw [h] at hheld
    cases hheld
  rw [valueSum, AList.entries_insert_of_notMem hfresh, map_cons, sum_cons, valueSum]
  exact Int.add_comm _ _

theorem foldl_insert {entries : List (String × Int)} {table : Table String Int}
    (hnames : (entries.map Prod.fst).Nodup) (hfresh : ∀ entry ∈ entries, table.lookup entry.1 = none) :
    valueSum (entries.foldl (fun table entry => table.insert entry.1 entry.2) table) =
        valueSum table + (entries.map Prod.snd).sum ∧
      (∀ entry ∈ entries, (entries.foldl (fun table entry => table.insert entry.1 entry.2)
        table).lookup entry.1 = some entry.2) ∧
      ∀ name, name ∉ entries.map Prod.fst → (entries.foldl (fun table entry =>
        table.insert entry.1 entry.2) table).lookup name = table.lookup name := by
  induction entries generalizing table with
  | nil => simp
  | cons entry entries ih =>
    rw [map_cons, nodup_cons] at hnames
    have hother : ∀ other ∈ entries, (table.insert entry.1 entry.2).lookup other.1 = none := by
      intro other hmem
      have hne : other.1 ≠ entry.1 := fun heq =>
        hnames.1 (heq ▸ mem_map_of_mem hmem)
      rw [AList.lookup_insert_ne hne]
      exact hfresh other (mem_cons_of_mem _ hmem)
    obtain ⟨hsum, hheld, hrest⟩ := ih hnames.2 hother
    rw [foldl_cons]
    refine ⟨?_, fun other hmem => ?_, fun name hname => ?_⟩
    · rw [hsum, valueSum_insert (hfresh entry mem_cons_self), map_cons, sum_cons]
      omega
    · rcases mem_cons.mp hmem with rfl | hmem
      · rw [hrest _ hnames.1, AList.lookup_insert]
      · exact hheld other hmem
    · rw [map_cons, mem_cons, not_or] at hname
      rw [hrest name hname.2, AList.lookup_insert_ne hname.1]

theorem dict_spec {entries : List (String × Int)} (hnames : (entries.map Prod.fst).Nodup) :
    valueSum (dict entries) = (entries.map Prod.snd).sum ∧
      ∀ entry ∈ entries, (dict entries).lookup entry.1 = some entry.2 := by
  obtain ⟨hsum, hheld, -⟩ := @foldl_insert entries ∅ hnames fun _ _ => AList.lookup_empty _
  refine ⟨hsum.trans ?_, hheld⟩
  simp [valueSum]

/-! ### Shares of the limit -/

variable {policy : RuntimeMemoryPolicy} {artifacts : List DiscoveredModel} {limit : Int}
  {item : DiscoveredModel}

theorem floor_le_expert : floor policy item ≤ expert item := min_le_left _ _

theorem floor_nonneg (h : 0 ≤ item.routedExpertBytes) : 0 ≤ floor policy item := by
  have htotal : 0 ≤ total item := le_max_left _ _
  have hexpert : 0 ≤ expert item := le_min htotal h
  refine le_min hexpert ?_
  split <;> decide

theorem sum_total :
    (artifacts.map total).sum = (artifacts.map dense).sum + (artifacts.map expert).sum := by
  induction artifacts with
  | nil => rfl
  | cons item items ih =>
    rw [map_cons, sum_cons, ih, map_cons, map_cons, sum_cons,
      sum_cons, dense]
    omega

theorem sum_extra :
    (artifacts.map fun item => expert item - floor policy item).sum =
      (artifacts.map expert).sum - (artifacts.map (floor policy)).sum := by
  induction artifacts with
  | nil => rfl
  | cons item items ih =>
    rw [map_cons, sum_cons, ih, map_cons, map_cons, sum_cons,
      sum_cons]
    omega

theorem sum_nonneg_floor (h : ∀ item ∈ artifacts, 0 ≤ item.routedExpertBytes) :
    0 ≤ (artifacts.map (floor policy)).sum := by
  refine sum_nonneg fun value hvalue => ?_
  obtain ⟨item, hitem, rfl⟩ := mem_map.mp hvalue
  exact floor_nonneg (h item hitem)

/-- Shares in proportion, each rounded down, do not add up to more than the whole. -/
theorem sum_proportion_le {whole : Int} (parts : List Int) (hwhole : 0 ≤ whole) :
    (parts.map fun part => whole * part / max 1 parts.sum).sum ≤ whole := by
  have hpositive : 0 < max 1 parts.sum := lt_max_of_lt_left Int.one_pos
  have hscaled : ∀ (divisor : Int) (parts : List Int), 0 < divisor →
      divisor * (parts.map fun part => whole * part / divisor).sum ≤ whole * parts.sum := by
    intro divisor parts hdivisor
    induction parts with
    | nil => simp
    | cons part parts ih =>
      rw [map_cons, sum_cons, sum_cons, Int.mul_add, Int.mul_add]
      exact Int.add_le_add (Int.mul_ediv_self_le hdivisor.ne') ih
  refine Int.le_of_mul_le_mul_left ?_ hpositive
  calc
    max 1 parts.sum * (parts.map fun part => whole * part / max 1 parts.sum).sum
        ≤ whole * parts.sum := hscaled _ parts hpositive
    _ ≤ whole * max 1 parts.sum := Int.mul_le_mul_of_nonneg_left (le_max_right _ _) hwhole
    _ = max 1 parts.sum * whole := Int.mul_comm _ _

theorem expertRemainder_le (hfloors : 0 ≤ (artifacts.map (floor policy)).sum)
    (hle : (artifacts.map (floor policy)).sum ≤ (artifacts.map expert).sum)
    (hlimit : (artifacts.map dense).sum + (artifacts.map (floor policy)).sum ≤ limit) :
    expertRemainder policy artifacts limit ≤
        (artifacts.map expert).sum - (artifacts.map (floor policy)).sum ∧
      (artifacts.map dense).sum + (artifacts.map (floor policy)).sum +
        expertRemainder policy artifacts limit ≤ limit := by
  have htotal := @sum_total artifacts
  unfold expertRemainder
  simp only
  omega

theorem sum_floor_le : (artifacts.map (floor policy)).sum ≤ (artifacts.map expert).sum :=
  sum_le_sum fun _ _ => floor_le_expert

/-- A model keeps its dense weights and its floor, and gets no more than all of it. -/
theorem weightShare_mem (h : ∀ item ∈ artifacts, 0 ≤ item.routedExpertBytes)
    (hlimit : (artifacts.map dense).sum + (artifacts.map (floor policy)).sum ≤ limit) :
    dense item + floor policy item ≤ weightShare policy artifacts limit item ∧
      weightShare policy artifacts limit item ≤ total item := by
  obtain ⟨hremainder, -⟩ := expertRemainder_le (sum_nonneg_floor h) sum_floor_le hlimit
  have hnonneg : 0 ≤ expertRemainder policy artifacts limit := le_max_left _ _
  have hextra : 0 ≤ expert item - floor policy item := Int.sub_nonneg_of_le floor_le_expert
  set extraTotal := (artifacts.map fun item => expert item - floor policy item).sum with hsum
  have hpositive : 0 < max 1 extraTotal := lt_max_of_lt_left Int.one_pos
  have hshareNonneg : 0 ≤ expertRemainder policy artifacts limit *
      (expert item - floor policy item) / max 1 extraTotal :=
    Int.ediv_nonneg (Int.mul_nonneg hnonneg hextra) hpositive.le
  have hle : expertRemainder policy artifacts limit ≤ max 1 extraTotal := by
    rw [hsum, sum_extra]
    exact le_max_of_le_right hremainder
  have hshare : expertRemainder policy artifacts limit * (expert item - floor policy item) /
      max 1 extraTotal ≤ expert item - floor policy item := by
    refine Int.ediv_le_of_le_mul hpositive ?_
    rw [Int.mul_comm]
    exact Int.mul_le_mul_of_nonneg_left hle hextra
  have hdense : dense item = total item - expert item := rfl
  have hvalue : weightShare policy artifacts limit item = dense item + floor policy item +
      expertRemainder policy artifacts limit * (expert item - floor policy item) /
        max 1 extraTotal := rfl
  rw [hvalue]
  constructor <;> omega

theorem sum_weightShare_le (h : ∀ item ∈ artifacts, 0 ≤ item.routedExpertBytes)
    (hlimit : (artifacts.map dense).sum + (artifacts.map (floor policy)).sum ≤ limit) :
    (artifacts.map (weightShare policy artifacts limit)).sum ≤ limit := by
  obtain ⟨-, hroom⟩ := expertRemainder_le (sum_nonneg_floor h) sum_floor_le hlimit
  have hshares := @sum_proportion_le (expertRemainder policy artifacts limit)
    (artifacts.map fun item => expert item - floor policy item) (le_max_left _ _)
  rw [map_map] at hshares
  have hsplit : (artifacts.map (weightShare policy artifacts limit)).sum =
      (artifacts.map dense).sum + (artifacts.map (floor policy)).sum +
        (artifacts.map ((fun part => expertRemainder policy artifacts limit * part / max 1
          (artifacts.map fun item => expert item - floor policy item).sum) ∘
            fun item => expert item - floor policy item)).sum := by
    rw [← sum_map_add, ← sum_map_add]
    rfl
  omega

/-- The remainder of the division goes to the first models, a byte each. -/
theorem sum_prefixShares {count : Nat} (hcount : 0 < count) (prefixes : Int) :
    ((List.range count).map fun index : Nat =>
      prefixes / count + if (index : Int) < prefixes % count then 1 else 0).sum = prefixes := by
  have hfirst : ∀ bound : Int, 0 ≤ bound → ∀ count : Nat,
      ((List.range count).map fun index : Nat => if (index : Int) < bound then (1 : Int) else 0).sum =
        min bound count := by
    intro bound hbound count
    induction count with
    | zero => simp [hbound]
    | succ count ih =>
      rw [range_succ, map_append, sum_append, ih, map_singleton,
        sum_singleton]
      split <;> omega
  have hpositive : (0 : Int) < count := Int.natCast_pos.mpr hcount
  have hremainder := Int.emod_nonneg prefixes hpositive.ne'
  have hlt := Int.emod_lt_of_pos prefixes hpositive
  rw [sum_map_add, hfirst _ hremainder, map_const', sum_replicate, List.length_range,
    min_eq_left hlt.le, nsmul_eq_mul]
  exact Int.mul_ediv_add_emod prefixes count

/-! ### What a plan promises -/

/-- Weight limits within the resolved limit, each within its model, and the whole prefix budget. -/
structure PlanFits (maxRuntimeMemoryBytes : Option Int) (policy : RuntimeMemoryPolicy)
    (artifacts : List DiscoveredModel) (limits hot : Table String Int) : Prop where
  weights : valueSum limits ≤ weightLimit maxRuntimeMemoryBytes policy artifacts
  bounds : ∀ item ∈ artifacts, ∀ limit, limits.lookup item.name = some limit →
    dense item + floor policy item ≤ limit ∧ limit ≤ total item
  prefixes : valueSum hot = prefixBudget maxRuntimeMemoryBytes policy artifacts

theorem planMemoryPolicy_fits {maxRuntimeMemoryBytes : Option Int} {limits hot : Table String Int}
    (hnames : (artifacts.map DiscoveredModel.name).Nodup)
    (hrouted : ∀ item ∈ artifacts, 0 ≤ item.routedExpertBytes) (hsome : artifacts ≠ [])
    (hplan : planMemoryPolicy maxRuntimeMemoryBytes policy artifacts = .ok (limits, hot)) :
    PlanFits maxRuntimeMemoryBytes policy artifacts limits hot := by
  obtain ⟨-, hplan⟩ := guard_eq_ok.mp hplan
  rw [if_neg hsome] at hplan
  obtain ⟨hminimum, hplan⟩ := guard_eq_ok.mp hplan
  have hpair := Except.ok.inj hplan
  rw [Prod.mk.injEq] at hpair
  obtain ⟨rfl, rfl⟩ := hpair
  set limit := weightLimit maxRuntimeMemoryBytes policy artifacts
  have hlimit : (artifacts.map dense).sum + (artifacts.map (floor policy)).sum ≤ limit :=
    not_lt.mp hminimum
  have hweightNames : ((artifacts.map fun item =>
      (item.name, weightShare policy artifacts limit item)).map Prod.fst).Nodup := by
    rwa [map_map]
  obtain ⟨hsum, hheld⟩ := dict_spec hweightNames
  rw [map_map] at hsum
  have hle : (artifacts.map (weightShare policy artifacts limit)).sum ≤ limit :=
    sum_weightShare_le hrouted hlimit
  refine ⟨?_, fun item hitem held hlookup => ?_, ?_⟩
  · split
    · have hdense : 0 ≤ (artifacts.map dense).sum := sum_nonneg fun value hvalue => by
        obtain ⟨item, -, rfl⟩ := mem_map.mp hvalue
        exact Int.sub_nonneg_of_le (min_le_left _ _)
      have hfloors := @sum_nonneg_floor policy artifacts hrouted
      have hempty : valueSum ∅ = 0 := rfl
      omega
    · exact (hsum.trans_le hle)
  · split at hlookup
    · cases hlookup
    · have hvalue := hheld _ (mem_map_of_mem hitem)
      obtain rfl := Option.some.inj (hvalue.symm.trans hlookup)
      exact weightShare_mem hrouted hlimit
  · have hpositive : 0 < artifacts.length := length_pos_iff.mpr hsome
    set prefixes := prefixBudget maxRuntimeMemoryBytes policy artifacts
    have hfst : (artifacts.mapIdx fun index item => (item.name,
        prefixes / artifacts.length + if (index : Int) < prefixes % artifacts.length then 1
          else 0)).map Prod.fst = artifacts.map DiscoveredModel.name := by
      refine ext_getElem (by simp) fun i hi hi' => ?_
      simp
    have hsnd : (artifacts.mapIdx fun index item => (item.name,
        prefixes / artifacts.length + if (index : Int) < prefixes % artifacts.length then 1
          else 0)).map Prod.snd = (List.range artifacts.length).map fun index : Nat =>
            prefixes / artifacts.length + if (index : Int) < prefixes % artifacts.length then 1
              else 0 := by
      refine ext_getElem (by simp) fun i hi hi' => ?_
      simp
    rw [(dict_spec (hfst ▸ hnames)).1, hsnd]
    exact sum_prefixShares hpositive prefixes

end TyloQuant.MemoryBudget
