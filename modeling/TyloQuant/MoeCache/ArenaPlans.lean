import TyloQuant.MoeCache.ArenaSlots

/-!
# What the arena planner promises

A plan is sound when every arena has between its minimum and its registered experts, the slots fit
the budget, and no arena could have one more.  The last two loops keep `Fits`, the bounds together
with the byte count that goes with the slots, and the last loop ends because every pass adds one
slot.

The planner leaves this only where a value does not fit its type: when the minimum demands
overflow together, though each is guarded, and when a share of the budget is no `int`.
-/

namespace TyloQuant.MoeCache

open Lib List

/-! ### Values that fit -/

variable {x : Int}

theorem int64_of_fits (hlow : -int64Max - 1 ≤ x) (hhigh : x ≤ int64Max) :
    int64 x = .ok x := if_pos ⟨hlow, hhigh⟩

theorem int64_of_exceeds (h : int64Max < x) : int64 x = .error .undefined := by
  apply if_neg
  intro hfits
  omega

theorem int32_of_fits (hlow : -int32Max - 1 ≤ x) (hhigh : x ≤ int32Max) :
    int32 x = .ok x := if_pos ⟨hlow, hhigh⟩

theorem int32_of_exceeds (h : int32Max < x) : int32 x = .error .undefined := by
  apply if_neg
  intro hfits
  omega

theorem int32Max_lt_int64Max : int32Max < int64Max := by decide

/-- The exceptions of the planner. -/
def ArenaPlanError.Thrown : ArenaPlanError → Prop
  | .undefined | .unfinished => False
  | _ => True

/-! ### Slots -/

namespace ArenaSlots

variable {slots : ArenaSlots} {d e : MoeArenaDemand} {n : Int}

@[simp] theorem count_set_self : (slots.set d n).count d = n := by
  simp [count, set]

theorem count_set_of_ne (h : e.signature ≠ d.signature) :
    (slots.set d n).count e = slots.count e := by
  unfold count set
  rw [AList.lookup_insert_ne h]

/-- A sum over arenas of different names changes with one arena's slots. -/
theorem sum_set (f : MoeArenaDemand → Int → Int) {demands : List MoeArenaDemand}
    (hnodup : (demands.map MoeArenaDemand.signature).Nodup) (hd : d ∈ demands) :
    (demands.map fun e => f e ((slots.set d n).count e)).sum
      = (demands.map fun e => f e (slots.count e)).sum + (f d n - f d (slots.count d)) := by
  induction demands with
  | nil => cases hd
  | cons e rest ih =>
    rw [map_cons, nodup_cons] at hnodup
    simp only [map_cons, sum_cons]
    rcases mem_cons.mp hd with rfl | hd
    · have hrest : ∀ e ∈ rest, f e ((slots.set d n).count e) = f e (slots.count e) := by
        intro e he
        rw [count_set_of_ne]
        intro hsame
        exact hnodup.1 (hsame ▸ mem_map_of_mem he)
      rw [map_congr_left hrest, count_set_self]
      omega
    · have hne : e.signature ≠ d.signature := by
        intro hsame
        exact hnodup.1 (hsame ▸ mem_map_of_mem hd)
      rw [ih hnodup.2 hd, count_set_of_ne hne]
      omega

/-- The bytes of the slots. -/
def bytes (slots : ArenaSlots) (demands : List MoeArenaDemand) : Int :=
  (demands.map fun d => slots.count d * d.slotBytes).sum

/-- The experts that have no slot. -/
def missing (slots : ArenaSlots) (demands : List MoeArenaDemand) : Int :=
  (demands.map fun d => d.registeredExperts - slots.count d).sum

end ArenaSlots

/-! ### Demands -/

/-- What the first loop asks of an arena, after arenas of these names. -/
structure DemandOk (seen : List String) (d : MoeArenaDemand) : Prop where
  named : d.signature ≠ ""
  fresh : d.signature ∉ seen
  slotBytes_pos : 0 < d.slotBytes
  minimumSlots_pos : 0 < d.minimumSlots
  minimumSlots_le : d.minimumSlots ≤ d.registeredExperts
  guarded : d.slotBytes ≤ int64Max / d.minimumSlots

def AllOk : List String → List MoeArenaDemand → Prop
  | _, [] => True
  | seen, d :: rest => DemandOk seen d ∧ AllOk (d.signature :: seen) rest

/-- As long as the arenas pass the checks, the minimum bytes of them together are an `int64_t`. -/
def MinimumFits : List String → Int → List MoeArenaDemand → Prop
  | _, _, [] => True
  | seen, sum, d :: rest =>
    DemandOk seen d → sum + d.slotBytes * d.minimumSlots ≤ int64Max ∧
        MinimumFits (d.signature :: seen) (sum + d.slotBytes * d.minimumSlots) rest

def minimumBytes (demands : List MoeArenaDemand) : Int :=
  (demands.map fun d => d.slotBytes * d.minimumSlots).sum

def registeredBytes (demands : List MoeArenaDemand) : Int :=
  (demands.map fun d => d.slotBytes * d.registeredExperts).sum

/-- The values of an arena are no larger than their types allow. -/
structure MoeArenaDemand.InRange (d : MoeArenaDemand) : Prop where
  slotBytes_le : d.slotBytes ≤ int64Max
  registeredExperts_le : d.registeredExperts ≤ int32Max

theorem DemandOk.minimum_le {seen : List String} {d : MoeArenaDemand} (h : DemandOk seen d) :
    d.slotBytes * d.minimumSlots ≤ int64Max :=
  (Int.le_ediv_iff_mul_le h.minimumSlots_pos).mp h.guarded

theorem DemandOk.minimum_pos {seen : List String} {d : MoeArenaDemand} (h : DemandOk seen d) :
    0 < d.slotBytes * d.minimumSlots := Int.mul_pos h.slotBytes_pos h.minimumSlots_pos

/-! ### The first loop -/

/-- The totals with one more arena. -/
def ArenaTotals.add (totals : ArenaTotals) (d : MoeArenaDemand) : ArenaTotals where
  minimumBytes := totals.minimumBytes + d.slotBytes * d.minimumSlots
  registeredBytes := totals.registeredBytes + d.slotBytes * d.registeredExperts
  slots := totals.slots.set d d.minimumSlots

section First

variable {d : MoeArenaDemand} {rest : List MoeArenaDemand} {seen : List String}
  {totals : ArenaTotals}

theorem checkDemands_of_not (h : ¬DemandOk seen d) :
    ∃ e, checkDemands (d :: rest) seen totals = .error e ∧ e.Thrown := by
  rw [checkDemands]
  by_cases hname : d.signature = "" ∨ d.signature ∈ seen
  · exact ⟨_, if_pos hname, trivial⟩
  rw [if_neg hname]
  by_cases hvalues : d.slotBytes ≤ 0 ∨ d.minimumSlots ≤ 0 ∨ d.registeredExperts < d.minimumSlots
  · exact ⟨_, if_pos hvalues, trivial⟩
  rw [if_neg hvalues]
  by_cases hguard : d.slotBytes > int64Max / d.minimumSlots
  · exact ⟨_, if_pos hguard, trivial⟩
  exfalso
  apply h
  rw [not_or] at hname
  exact {
    named := hname.1
    fresh := hname.2
    slotBytes_pos := by omega
    minimumSlots_pos := by omega
    minimumSlots_le := by omega
    guarded := by omega }

theorem checkDemands_of_ok (h : DemandOk seen d) (hsum : 0 ≤ totals.minimumBytes) :
    checkDemands (d :: rest) seen totals
      = (int64 (totals.minimumBytes + d.slotBytes * d.minimumSlots) >>= fun _ =>
          checkDemands rest (d.signature :: seen) (totals.add d)) := by
  have hname : ¬(d.signature = "" ∨ d.signature ∈ seen) := by
    rintro (hempty | hseen)
    · exact h.named hempty
    · exact h.fresh hseen
  have hpos := h.slotBytes_pos
  have hmin := h.minimumSlots_pos
  have hle := h.minimumSlots_le
  have hguard := h.guarded
  have hbytes := int64_of_fits (x := d.slotBytes * d.minimumSlots)
    (by have := h.minimum_pos; unfold int64Max; omega) h.minimum_le
  rw [checkDemands, if_neg hname, if_neg (by omega), if_neg (by omega), hbytes]
  change (int64 (totals.minimumBytes + d.slotBytes * d.minimumSlots) >>= fun minimumBytes => _) = _
  by_cases hfits : totals.minimumBytes + d.slotBytes * d.minimumSlots ≤ int64Max
  · rw [int64_of_fits (by have := h.minimum_pos; unfold int64Max; omega) hfits]
    rfl
  · rw [int64_of_exceeds (by omega)]
    rfl

/-- The first loop has no defined result, throws, or adds the arenas up. -/
theorem checkDemands_spec (hsum : 0 ≤ totals.minimumBytes) {demands : List MoeArenaDemand} :
    (¬MinimumFits seen totals.minimumBytes demands →
      checkDemands demands seen totals = .error .undefined) ∧
    (MinimumFits seen totals.minimumBytes demands → ¬AllOk seen demands →
      ∃ e, checkDemands demands seen totals = .error e ∧ e.Thrown) ∧
    (MinimumFits seen totals.minimumBytes demands → AllOk seen demands →
      checkDemands demands seen totals = .ok (demands.foldl ArenaTotals.add totals)) := by
  induction demands generalizing seen totals with
  | nil =>
    refine ⟨fun h => absurd trivial h, fun _ h => absurd trivial h, fun _ _ => rfl⟩
  | cons d rest ih =>
    by_cases hd : DemandOk seen d
    · rw [checkDemands_of_ok hd hsum]
      have hpos := hd.minimum_pos
      by_cases hfits : totals.minimumBytes + d.slotBytes * d.minimumSlots ≤ int64Max
      · rw [int64_of_fits (by unfold int64Max; omega) hfits]
        have hadd : 0 ≤ (totals.add d).minimumBytes := by
          change 0 ≤ totals.minimumBytes + d.slotBytes * d.minimumSlots
          omega
        obtain ⟨hundefined, hthrown, hok⟩ := @ih (d.signature :: seen) _ hadd
        refine ⟨fun h => hundefined fun hrest => h fun _ => ⟨hfits, hrest⟩, ?_, ?_⟩
        · intro h hall
          exact hthrown (h hd).2 fun hrest => hall ⟨hd, hrest⟩
        · intro h hall
          exact hok (h hd).2 hall.2
      · rw [int64_of_exceeds (by omega)]
        exact ⟨fun _ => rfl, fun h => absurd (h hd).1 hfits, fun h => absurd (h hd).1 hfits⟩
    · refine ⟨fun h => absurd (fun hok => absurd hok hd) h, ?_, fun _ h => absurd h.1 hd⟩
      intro _ _
      exact checkDemands_of_not hd

end First

/-- What holds of demands that passed the first loop. -/
structure Checked (demands : List MoeArenaDemand) : Prop where
  nodup : (demands.map MoeArenaDemand.signature).Nodup
  slotBytes_pos : ∀ d ∈ demands, 0 < d.slotBytes
  minimumSlots_pos : ∀ d ∈ demands, 0 < d.minimumSlots
  minimumSlots_le : ∀ d ∈ demands, d.minimumSlots ≤ d.registeredExperts
  registeredExperts_le : ∀ d ∈ demands, d.registeredExperts ≤ int32Max

theorem AllOk.demandOk {demands : List MoeArenaDemand} {seen : List String}
    (h : AllOk seen demands) : ∀ d ∈ demands, ∃ names, (∀ s ∈ seen, s ∈ names) ∧ DemandOk names d := by
  induction demands generalizing seen with
  | nil =>
    intro d hd
    cases hd
  | cons e rest ih =>
    intro d hd
    rcases mem_cons.mp hd with rfl | hd
    · exact ⟨seen, fun _ hs => hs, h.1⟩
    · obtain ⟨names, hsub, hok⟩ := ih h.2 d hd
      exact ⟨names, fun s hs => hsub s (mem_cons_of_mem _ hs), hok⟩

theorem AllOk.nodup {demands : List MoeArenaDemand} {seen : List String}
    (h : AllOk seen demands) : (demands.map MoeArenaDemand.signature).Nodup := by
  induction demands generalizing seen with
  | nil => exact nodup_nil
  | cons e rest ih =>
    rw [map_cons, nodup_cons]
    refine ⟨fun hmem => ?_, ih h.2⟩
    obtain ⟨d, hd, hsame⟩ := mem_map.mp hmem
    obtain ⟨names, hsub, hok⟩ := h.2.demandOk d hd
    apply hok.fresh
    rw [hsame]
    exact hsub _ mem_cons_self

theorem AllOk.checked {demands : List MoeArenaDemand} (h : AllOk [] demands)
    (hrange : ∀ d ∈ demands, d.InRange) : Checked demands where
  nodup := h.nodup
  slotBytes_pos d hd := by
    obtain ⟨_, -, hok⟩ := h.demandOk d hd
    exact hok.slotBytes_pos
  minimumSlots_pos d hd := by
    obtain ⟨_, -, hok⟩ := h.demandOk d hd
    exact hok.minimumSlots_pos
  minimumSlots_le d hd := by
    obtain ⟨_, -, hok⟩ := h.demandOk d hd
    exact hok.minimumSlots_le
  registeredExperts_le d hd := (hrange d hd).registeredExperts_le

theorem minimumBytes_foldl (demands : List MoeArenaDemand) (totals : ArenaTotals) :
    (demands.foldl ArenaTotals.add totals).minimumBytes
      = totals.minimumBytes + minimumBytes demands := by
  induction demands generalizing totals with
  | nil => simp [minimumBytes]
  | cons d rest ih =>
    rw [foldl_cons, ih]
    simp only [ArenaTotals.add, minimumBytes, map_cons, sum_cons]
    omega

theorem registeredBytes_foldl (demands : List MoeArenaDemand) (totals : ArenaTotals) :
    (demands.foldl ArenaTotals.add totals).registeredBytes
      = totals.registeredBytes + registeredBytes demands := by
  induction demands generalizing totals with
  | nil => simp [registeredBytes]
  | cons d rest ih =>
    rw [foldl_cons, ih]
    simp only [ArenaTotals.add, registeredBytes, map_cons, sum_cons, Int.cast_add,
      Int.cast_mul]
    exact add_assoc _ _ _

theorem count_foldl_of_notMem {demands : List MoeArenaDemand} {d : MoeArenaDemand}
    (hd : d.signature ∉ demands.map MoeArenaDemand.signature) (totals : ArenaTotals) :
    (demands.foldl ArenaTotals.add totals).slots.count d = totals.slots.count d := by
  induction demands generalizing totals with
  | nil => rfl
  | cons e rest ih =>
    rw [map_cons, mem_cons, not_or] at hd
    rw [foldl_cons, ih hd.2]
    exact ArenaSlots.count_set_of_ne hd.1

/-- After the first loop every arena has its minimum. -/
theorem count_foldl {demands : List MoeArenaDemand}
    (hnodup : (demands.map MoeArenaDemand.signature).Nodup) (totals : ArenaTotals) :
    ∀ d ∈ demands, (demands.foldl ArenaTotals.add totals).slots.count d = d.minimumSlots := by
  induction demands generalizing totals with
  | nil =>
    intro d hd
    cases hd
  | cons e rest ih =>
    intro d hd
    rw [map_cons, nodup_cons] at hnodup
    rw [foldl_cons]
    rcases mem_cons.mp hd with rfl | hd
    · rw [count_foldl_of_notMem hnodup.1]
      exact ArenaSlots.count_set_self
    · exact ih hnodup.2 _ d hd

/-! ### The budget -/

/-- The slots are within their bounds, the byte count is theirs, and it is within the budget. -/
structure Fits (budget : Int) (demands : List MoeArenaDemand) (usage : ArenaUsage) : Prop where
  minimumSlots_le : ∀ d ∈ demands, d.minimumSlots ≤ usage.slots.count d
  le_registeredExperts : ∀ d ∈ demands, usage.slots.count d ≤ d.registeredExperts
  usedBytes_eq : usage.usedBytes = usage.slots.bytes demands
  usedBytes_le : usage.usedBytes ≤ budget

namespace Fits

variable {budget : Int} {demands : List MoeArenaDemand} {usage : ArenaUsage} {d : MoeArenaDemand}

theorem bytes_nonneg (h : Fits budget demands usage) (hc : Checked demands)
    (hd : d ∈ demands) : 0 ≤ usage.slots.count d * d.slotBytes := by
  apply Int.mul_nonneg
  · have := h.minimumSlots_le d hd
    have := hc.minimumSlots_pos d hd
    omega
  · exact (hc.slotBytes_pos d hd).le

theorem bytes_le (h : Fits budget demands usage) (hc : Checked demands) (hd : d ∈ demands) :
    usage.slots.count d * d.slotBytes ≤ usage.usedBytes := by
  rw [h.usedBytes_eq]
  apply single_le_sum
  · intro x hx
    obtain ⟨e, he, rfl⟩ := mem_map.mp hx
    exact h.bytes_nonneg hc he
  · exact mem_map_of_mem hd

theorem usedBytes_nonneg (h : Fits budget demands usage) (hc : Checked demands) :
    0 ≤ usage.usedBytes := by
  rw [h.usedBytes_eq]
  apply sum_nonneg
  intro x hx
  obtain ⟨e, he, rfl⟩ := mem_map.mp hx
  exact h.bytes_nonneg hc he

theorem set (h : Fits budget demands usage) (hc : Checked demands) (hd : d ∈ demands) {n : Int}
    (hmin : d.minimumSlots ≤ n) (hmax : n ≤ d.registeredExperts)
    (hbytes : usage.usedBytes + (n - usage.slots.count d) * d.slotBytes ≤ budget) :
    Fits budget demands {
      usedBytes := usage.usedBytes + (n - usage.slots.count d) * d.slotBytes
      slots := usage.slots.set d n } where
  minimumSlots_le e he := by
    by_cases hsame : e.signature = d.signature
    · obtain rfl : e = d := inj_on_of_nodup_map hc.nodup he hd hsame
      change _ ≤ (usage.slots.set e n).count e
      rwa [ArenaSlots.count_set_self]
    · change _ ≤ (usage.slots.set d n).count e
      rw [ArenaSlots.count_set_of_ne hsame]
      exact h.minimumSlots_le e he
  le_registeredExperts e he := by
    by_cases hsame : e.signature = d.signature
    · obtain rfl : e = d := inj_on_of_nodup_map hc.nodup he hd hsame
      change (usage.slots.set e n).count e ≤ _
      rwa [ArenaSlots.count_set_self]
    · change (usage.slots.set d n).count e ≤ _
      rw [ArenaSlots.count_set_of_ne hsame]
      exact h.le_registeredExperts e he
  usedBytes_eq := by
    change _ = (usage.slots.set d n).bytes demands
    unfold ArenaSlots.bytes
    rw [ArenaSlots.sum_set (fun e k => k * e.slotBytes) hc.nodup hd, h.usedBytes_eq, Int.sub_mul]
    rfl
  usedBytes_le := hbytes

end Fits

/-! ### The second loop -/

/-- The slots that an arena's part of the budget pays for. -/
def shareOf (budget : Int) (total : ℚ) (d : MoeArenaDemand) : Int :=
  ⌊(budget : ℚ) * (d.slotBytes * d.registeredExperts) / total / d.slotBytes⌋

section Second

variable {budget : Int} {demands : List MoeArenaDemand} {usage : ArenaUsage} {d : MoeArenaDemand}

theorem Checked.registered_pos (hc : Checked demands) (hd : d ∈ demands) :
    0 < d.registeredExperts := by
  have := hc.minimumSlots_pos d hd
  have := hc.minimumSlots_le d hd
  omega

theorem Checked.le_registeredBytes (hc : Checked demands) (hd : d ∈ demands) :
    d.slotBytes * d.registeredExperts ≤ registeredBytes demands := by
  apply single_le_sum
  · intro x hx
    obtain ⟨e, he, rfl⟩ := mem_map.mp hx
    exact Int.mul_nonneg (hc.slotBytes_pos e he).le (hc.registered_pos he).le
  · exact mem_map_of_mem hd

theorem Checked.registeredBytes_pos (hc : Checked demands) (hd : d ∈ demands) :
    0 < registeredBytes demands :=
  lt_of_lt_of_le (Int.mul_pos (hc.slotBytes_pos d hd) (hc.registered_pos hd))
    (hc.le_registeredBytes hd)

theorem Checked.share_eq (hc : Checked demands) (hd : d ∈ demands) :
    shareOf budget (registeredBytes demands) d
      = ⌊(budget * d.registeredExperts : ℚ) / registeredBytes demands⌋ := by
  have hslot : (d.slotBytes : ℚ) ≠ 0 := Int.cast_ne_zero.mpr (hc.slotBytes_pos d hd).ne'
  unfold shareOf
  congr 1
  rw [div_right_comm, mul_left_comm, mul_div_cancel_left₀ _ hslot]

theorem Checked.share_nonneg (hc : Checked demands) (hd : d ∈ demands) (hbudget : 0 ≤ budget) :
    0 ≤ shareOf budget (registeredBytes demands) d := by
  rw [hc.share_eq hd, Int.floor_nonneg]
  have hreg : (0 : ℚ) ≤ d.registeredExperts := Int.cast_nonneg (hc.registered_pos hd).le
  have htotal : (0 : ℚ) < registeredBytes demands := Int.cast_pos.mpr (hc.registeredBytes_pos hd)
  have hbudget : (0 : ℚ) ≤ budget := Int.cast_nonneg hbudget
  positivity

/-- A share is an `int` when the budget, over the registered bytes, leaves it small. -/
theorem Checked.share_le_iff (hc : Checked demands) (hd : d ∈ demands) :
    shareOf budget (registeredBytes demands) d ≤ int32Max
      ↔ budget * d.registeredExperts < 2 ^ 31 * registeredBytes demands := by
  have htotal : (0 : ℚ) < registeredBytes demands := Int.cast_pos.mpr (hc.registeredBytes_pos hd)
  have hmax : int32Max = 2 ^ 31 - 1 := rfl
  rw [hc.share_eq hd, hmax, Int.le_sub_one_iff, Int.floor_lt, div_lt_iff₀ htotal]
  exact_mod_cast Iff.rfl

theorem Checked.share_bytes_le (hc : Checked demands) (hd : d ∈ demands) (hbudget : 0 ≤ budget) :
    shareOf budget (registeredBytes demands) d * d.slotBytes ≤ budget := by
  have hslot : (0 : ℚ) < d.slotBytes := Int.cast_pos.mpr (hc.slotBytes_pos d hd)
  have htotal : (0 : ℚ) < registeredBytes demands := Int.cast_pos.mpr (hc.registeredBytes_pos hd)
  have hle : (d.slotBytes * d.registeredExperts : ℚ) ≤ registeredBytes demands := by
    exact_mod_cast hc.le_registeredBytes hd
  have hbudget : (0 : ℚ) ≤ budget := Int.cast_nonneg hbudget
  have hfloor := Int.floor_le
    ((budget : ℚ) * (d.slotBytes * d.registeredExperts) / registeredBytes demands / d.slotBytes)
  rw [le_div_iff₀ hslot, le_div_iff₀ htotal] at hfloor
  have hshare : ((shareOf budget (registeredBytes demands) d * d.slotBytes : Int) : ℚ)
      * registeredBytes demands ≤ budget * registeredBytes demands := by
    rw [Int.cast_mul]
    exact hfloor.trans (mul_le_mul_of_nonneg_left hle hbudget)
  exact_mod_cast le_of_mul_le_mul_right hshare htotal

/-- The slots an arena is to have. -/
def targetOf (budget : Int) (total : ℚ) (d : MoeArenaDemand) : Int :=
  min d.registeredExperts (max d.minimumSlots (shareOf budget total d))

theorem Checked.target_bounds (hc : Checked demands) (hd : d ∈ demands) (total : ℚ) :
    d.minimumSlots ≤ targetOf budget total d ∧ targetOf budget total d ≤ d.registeredExperts := by
  have := hc.minimumSlots_le d hd
  unfold targetOf
  omega

/-- The target takes no more than the slots there are or the budget. -/
theorem target_bytes_le (h : Fits budget demands usage) (hc : Checked demands) (hd : d ∈ demands) :
    targetOf budget (registeredBytes demands) d * d.slotBytes ≤ budget := by
  have hbudget := (h.usedBytes_nonneg hc).trans h.usedBytes_le
  have hpos := hc.slotBytes_pos d hd
  rcases le_total (shareOf budget (registeredBytes demands) d) d.minimumSlots with hle | hle
  · calc targetOf budget (registeredBytes demands) d * d.slotBytes
        ≤ usage.slots.count d * d.slotBytes := by
          apply Int.mul_le_mul_of_nonneg_right _ hpos.le
          have := h.minimumSlots_le d hd
          unfold targetOf
          omega
      _ ≤ usage.usedBytes := h.bytes_le hc hd
      _ ≤ budget := h.usedBytes_le
  · calc targetOf budget (registeredBytes demands) d * d.slotBytes
        ≤ shareOf budget (registeredBytes demands) d * d.slotBytes := by
          apply Int.mul_le_mul_of_nonneg_right _ hpos.le
          unfold targetOf
          omega
      _ ≤ budget := hc.share_bytes_le hd hbudget

/-- The usage after one arena of the second loop. -/
def ArenaUsage.toTarget (usage : ArenaUsage) (budget : Int) (total : ℚ) (d : MoeArenaDemand) :
    ArenaUsage :=
  let additional := (targetOf budget total d - usage.slots.count d) * d.slotBytes
  if additional ≤ budget - usage.usedBytes then
    { usedBytes := usage.usedBytes + additional
      slots := usage.slots.set d (targetOf budget total d) }
  else usage

theorem Fits.toTarget (h : Fits budget demands usage) (hc : Checked demands) (hd : d ∈ demands)
    (total : ℚ) : Fits budget demands (usage.toTarget budget total d) := by
  unfold ArenaUsage.toTarget
  have hbounds : d.minimumSlots ≤ targetOf budget total d ∧
      targetOf budget total d ≤ d.registeredExperts := hc.target_bounds hd total
  dsimp only
  split
  · next hle =>
      apply h.set hc hd hbounds.1 hbounds.2
      omega
  · exact h

/-- One arena of the second loop: everything but the share is a value of its type. -/
theorem planTargets_cons (h : Fits budget demands usage) (hc : Checked demands) (hd : d ∈ demands)
    (hbudget : budget ≤ int64Max) (rest : List MoeArenaDemand) :
    planTargets budget (registeredBytes demands) (d :: rest) usage
      = (int32 (shareOf budget (registeredBytes demands) d) >>= fun _ =>
          planTargets budget (registeredBytes demands) rest
            (usage.toTarget budget (registeredBytes demands) d)) := by
  have hused := h.usedBytes_nonneg hc
  have hwithin := h.usedBytes_le
  have hpos := hc.slotBytes_pos d hd
  have hmin := hc.minimumSlots_pos d hd
  have hcount := h.minimumSlots_le d hd
  have hcount' := h.le_registeredExperts d hd
  have hreg := hc.registeredExperts_le d hd
  obtain ⟨hlow, hhigh⟩ : d.minimumSlots ≤ targetOf budget (registeredBytes demands) d ∧
      targetOf budget (registeredBytes demands) d ≤ d.registeredExperts :=
    hc.target_bounds hd (registeredBytes demands)
  have hcurrent := h.bytes_le hc hd
  have htarget := target_bytes_le h hc hd
  have htarget_nonneg : 0 ≤ targetOf budget (registeredBytes demands) d * d.slotBytes :=
    Int.mul_nonneg (by omega) hpos.le
  have hcount_nonneg := h.bytes_nonneg hc hd
  have hmax := int32Max_lt_int64Max
  have hmax' : 0 < int32Max := by decide
  rw [planTargets]
  change (int32 (shareOf budget (registeredBytes demands) d) >>= fun share => _) = _
  by_cases hshare : shareOf budget (registeredBytes demands) d ≤ int32Max
  · have hnonneg := hc.share_nonneg hd (hused.trans hwithin)
    rw [int32_of_fits (by omega) hshare]
    set target := targetOf budget (registeredBytes demands) d
    have hsub : (target - usage.slots.count d) * d.slotBytes
        = target * d.slotBytes - usage.slots.count d * d.slotBytes := Int.sub_mul ..
    change (int32 (target - usage.slots.count d) >>= fun difference => _) = _
    rw [int32_of_fits (by omega) (by omega)]
    change (int64 ((target - usage.slots.count d) * d.slotBytes) >>= fun additional => _) = _
    rw [int64_of_fits (by omega) (by omega)]
    change (int64 (budget - usage.usedBytes) >>= fun left => _) = _
    rw [int64_of_fits (by omega) (by omega)]
    change (if (target - usage.slots.count d) * d.slotBytes ≤ budget - usage.usedBytes
      then _ else _) = planTargets budget (registeredBytes demands) rest
        (usage.toTarget budget (registeredBytes demands) d)
    by_cases hfits : (target - usage.slots.count d) * d.slotBytes ≤ budget - usage.usedBytes
    · rw [if_pos hfits, ArenaUsage.toTarget, if_pos hfits, int64_of_fits (by omega) (by omega)]
      rfl
    · rw [if_neg hfits, ArenaUsage.toTarget, if_neg hfits]
  · rw [int32_of_exceeds (by omega)]
    rfl

/-- The second loop keeps the slots within bounds and budget, unless a share is no `int`. -/
theorem planTargets_spec (hc : Checked demands) (hbudget : budget ≤ int64Max)
    {rest : List MoeArenaDemand} (hsub : ∀ d ∈ rest, d ∈ demands) (h : Fits budget demands usage) :
    ((∀ d ∈ rest, budget * d.registeredExperts < 2 ^ 31 * registeredBytes demands) →
      ∃ usage', planTargets budget (registeredBytes demands) rest usage = .ok usage' ∧
        Fits budget demands usage') ∧
    (¬(∀ d ∈ rest, budget * d.registeredExperts < 2 ^ 31 * registeredBytes demands) →
      planTargets budget (registeredBytes demands) rest usage = .error .undefined) := by
  induction rest generalizing usage with
  | nil =>
    refine ⟨fun _ => ⟨usage, rfl, h⟩, fun hnot => absurd ?_ hnot⟩
    intro d hd
    cases hd
  | cons d rest ih =>
    have hd := hsub d mem_cons_self
    have hnonneg := hc.share_nonneg hd ((h.usedBytes_nonneg hc).trans h.usedBytes_le)
    obtain ⟨hok, hundefined⟩ := ih (fun e he => hsub e (mem_cons_of_mem _ he))
      (h.toTarget hc hd (registeredBytes demands))
    rw [planTargets_cons h hc hd hbudget, forall_mem_cons, ← hc.share_le_iff hd]
    by_cases hshare : shareOf budget (registeredBytes demands) d ≤ int32Max
    · rw [int32_of_fits (by unfold int32Max; omega) hshare]
      exact ⟨fun hall => hok hall.2, fun hnot => hundefined fun hall => hnot ⟨hshare, hall⟩⟩
    · rw [int32_of_exceeds (by omega)]
      exact ⟨fun hall => absurd hall.1 hshare, fun _ => rfl⟩

end Second

/-! ### The last loop -/

section Last

variable {budget : Int} {demands : List MoeArenaDemand} {usage : ArenaUsage}

/-- The arena could have one more slot. -/
structure HasRoom (budget : Int) (usage : ArenaUsage) (d : MoeArenaDemand) : Prop where
  lacks : usage.slots.count d < d.registeredExperts
  fits : usage.usedBytes + d.slotBytes ≤ budget

/-- What the search for the best arena returns, starting with `best`. -/
structure Chosen (budget : Int) (usage : ArenaUsage) (rest : List MoeArenaDemand)
    (best result : Option (MoeArenaDemand × ℚ)) : Prop where
  some : ∀ choice, result = some choice →
    best = some choice ∨ choice.1 ∈ rest ∧ HasRoom budget usage choice.1
  none : result = none → best = none ∧ ∀ d ∈ rest, ¬HasRoom budget usage d

theorem Chosen.skip {rest : List MoeArenaDemand} {best result : Option (MoeArenaDemand × ℚ)}
    {d : MoeArenaDemand} (h : Chosen budget usage rest best result)
    (hroom : result = .none → ¬HasRoom budget usage d) :
    Chosen budget usage (d :: rest) best result where
  some choice hchoice := by
    rcases h.some choice hchoice with hbest | ⟨hmem, hroom⟩
    · exact .inl hbest
    · exact .inr ⟨mem_cons_of_mem _ hmem, hroom⟩
  none hnone := by
    obtain ⟨hbest, hrest⟩ := h.none hnone
    exact ⟨hbest, forall_mem_cons.mpr ⟨hroom hnone, hrest⟩⟩

/-- The search has a defined result, and finds an arena with room when there is one. -/
theorem bestArena_spec (hc : Checked demands) (hbudget : budget ≤ int64Max)
    (h : Fits budget demands usage) {rest : List MoeArenaDemand} (hsub : ∀ d ∈ rest, d ∈ demands)
    (best : Option (MoeArenaDemand × ℚ)) :
    ∃ result, bestArena budget usage rest best = .ok result ∧
      Chosen budget usage rest best result := by
  induction rest generalizing best with
  | nil =>
    refine ⟨best, rfl, fun choice hchoice => .inl hchoice, fun hnone => ⟨hnone, ?_⟩⟩
    intro d hd
    cases hd
  | cons d rest ih =>
    have hd := hsub d mem_cons_self
    have ih := ih fun e he => hsub e (mem_cons_of_mem _ he)
    have hpass : ¬HasRoom budget usage d → ∃ result, bestArena budget usage rest best = .ok result ∧
          Chosen budget usage (d :: rest) best result := by
      intro hroom
      obtain ⟨result, hresult, hchosen⟩ := ih best
      exact ⟨result, hresult, hchosen.skip fun _ => hroom⟩
    have hused := h.usedBytes_nonneg hc
    have hwithin := h.usedBytes_le
    have hcount := h.minimumSlots_le d hd
    have hmin := hc.minimumSlots_pos d hd
    have hreg := hc.registeredExperts_le d hd
    have hmax : 0 < int32Max := by decide
    rw [bestArena]
    by_cases hfull : usage.slots.count d ≥ d.registeredExperts
    · rw [if_pos hfull]
      apply hpass
      intro hroom
      exact absurd hroom.lacks (by omega)
    rw [if_neg hfull, int64_of_fits (by omega) (by omega)]
    change ∃ result, (if d.slotBytes > budget - usage.usedBytes then _ else _) = _ ∧ _
    by_cases hlarge : d.slotBytes > budget - usage.usedBytes
    · rw [if_pos hlarge]
      apply hpass
      intro hroom
      exact absurd hroom.fits (by omega)
    have hroom : HasRoom budget usage d := ⟨by omega, by omega⟩
    rw [if_neg hlarge, int32_of_fits (by omega) (by omega)]
    generalize hdeficit : ((d.registeredExperts - usage.slots.count d : Int) : ℚ)
      / d.registeredExperts = deficit
    change ∃ result, (if ((d.registeredExperts - usage.slots.count d : Int) : ℚ)
      / d.registeredExperts > (best.map Prod.snd).getD (-1) then _ else _) = _ ∧ _
    rw [hdeficit]
    by_cases hbetter : deficit > (best.map Prod.snd).getD (-1)
    · rw [if_pos hbetter]
      obtain ⟨result, hresult, hchosen⟩ := ih (some (d, deficit))
      refine ⟨result, hdeficit ▸ hresult, fun choice hchoice => ?_, fun hnone => ?_⟩
      · rcases hchosen.some choice hchoice with hbest | ⟨hmem, hroom⟩
        · cases hbest
          exact .inr ⟨mem_cons_self, hroom⟩
        · exact .inr ⟨mem_cons_of_mem _ hmem, hroom⟩
      · exact absurd (hchosen.none hnone).1 (by simp)
    · rw [if_neg hbetter]
      obtain ⟨result, hresult, hchosen⟩ := ih best
      refine ⟨result, hresult, hchosen.skip fun hnone => ?_⟩
      -- without a best arena so far, a deficit is always better
      obtain ⟨rfl, -⟩ := hchosen.none hnone
      exfalso
      apply hbetter
      have hlack : (0 : ℚ) ≤ ((d.registeredExperts - usage.slots.count d : Int) : ℚ) :=
        Int.cast_nonneg (by omega)
      have hregistered : (0 : ℚ) ≤ d.registeredExperts :=
        Int.cast_nonneg (hc.registered_pos hd).le
      have hnonneg : 0 ≤ deficit := hdeficit ▸ div_nonneg hlack hregistered
      exact lt_of_lt_of_le (by decide) hnonneg

/-- One more slot for an arena with room, and one less is missing. -/
theorem addSlot_spec (hc : Checked demands) (hbudget : budget ≤ int64Max)
    (h : Fits budget demands usage) {d : MoeArenaDemand} (hd : d ∈ demands)
    (hroom : HasRoom budget usage d) :
    ∃ usage', addSlot usage d = .ok usage' ∧ Fits budget demands usage' ∧
      usage'.slots.missing demands = usage.slots.missing demands - 1 := by
  have hused := h.usedBytes_nonneg hc
  have hpos := hc.slotBytes_pos d hd
  have hcount := h.minimumSlots_le d hd
  have hmin := hc.minimumSlots_pos d hd
  have hreg := hc.registeredExperts_le d hd
  have hlacks := hroom.lacks
  have hfits := hroom.fits
  have hmax : 0 < int32Max := by decide
  have hone : (usage.slots.count d + 1 - usage.slots.count d) * d.slotBytes = d.slotBytes := by
    rw [add_sub_cancel_left, one_mul]
  have hset := h.set hc hd (n := usage.slots.count d + 1) (by omega) (by omega) (by omega)
  rw [hone] at hset
  refine ⟨_, ?_, hset, ?_⟩
  · unfold addSlot
    rw [int32_of_fits (by omega) (by omega), int64_of_fits (by omega) (by omega)]
    rfl
  · change (usage.slots.set d (usage.slots.count d + 1)).missing demands = _
    unfold ArenaSlots.missing
    rw [ArenaSlots.sum_set (fun e k => e.registeredExperts - k) hc.nodup hd]
    omega

/-- A plan within bounds and budget that leaves no arena room for one more slot. -/
structure SoundSlots (budget : Int) (demands : List MoeArenaDemand) (slots : ArenaSlots) :
    Prop where
  minimumSlots_le : ∀ d ∈ demands, d.minimumSlots ≤ slots.count d
  le_registeredExperts : ∀ d ∈ demands, slots.count d ≤ d.registeredExperts
  within : slots.bytes demands ≤ budget
  maximal : ∀ d ∈ demands, slots.count d < d.registeredExperts →
    budget < slots.bytes demands + d.slotBytes

/-- The last loop ends, and no arena has room when it does. -/
theorem topUp_spec (hc : Checked demands) (hbudget : budget ≤ int64Max) {fuel : Nat}
    (h : Fits budget demands usage) (hfuel : usage.slots.missing demands < fuel) :
    ∃ slots, topUp budget demands fuel usage = .ok slots ∧ SoundSlots budget demands slots := by
  induction fuel generalizing usage with
  | zero =>
    exfalso
    have hmissing : 0 ≤ usage.slots.missing demands := by
      apply sum_nonneg
      intro x hx
      obtain ⟨d, hd, rfl⟩ := mem_map.mp hx
      have := h.le_registeredExperts d hd
      omega
    omega
  | succ fuel ih =>
    obtain ⟨best, hbest, hchosen⟩ := bestArena_spec hc hbudget h (fun d hd => hd) none
    rw [topUp, hbest]
    cases best with
    | none =>
      refine ⟨usage.slots, rfl, h.minimumSlots_le, h.le_registeredExperts, ?_, ?_⟩
      · rw [← h.usedBytes_eq]
        exact h.usedBytes_le
      · intro d hd hlacks
        by_contra hfits
        rw [← h.usedBytes_eq] at hfits
        exact (hchosen.none rfl).2 d hd ⟨hlacks, by omega⟩
    | some choice =>
      obtain hnone | ⟨hmem, hroom⟩ := hchosen.some choice rfl
      · cases hnone
      obtain ⟨usage', hadd, hfits, hmissing⟩ := addSlot_spec hc hbudget h hmem hroom
      obtain ⟨slots, hslots, hsound⟩ := ih hfits (by omega)
      refine ⟨slots, ?_, hsound⟩
      change (addSlot usage choice.1 >>= fun usage => topUp budget demands fuel usage) = _
      rw [hadd]
      exact hslots

end Last

/-! ### The planner -/

/-- The plan is sound, or the planner throws. -/
def PlanSound (budget : Int) (demands : List MoeArenaDemand) : Prop :=
  match planMoeArenaSlots budget demands with
  | .ok slots => SoundSlots budget demands slots
  | .error e => e.Thrown

/-- Every share of the budget is an `int`. -/
def SharesFit (budget : Int) (demands : List MoeArenaDemand) : Prop :=
  ∀ d ∈ demands, budget * d.registeredExperts < 2 ^ 31 * registeredBytes demands

section Planner

variable {budget : Int} {demands : List MoeArenaDemand}

theorem fits_minimum (hc : Checked demands) (hbudget : minimumBytes demands ≤ budget) :
    Fits budget demands {
      usedBytes := minimumBytes demands
      slots := (demands.foldl ArenaTotals.add {}).slots } where
  minimumSlots_le d hd := (count_foldl hc.nodup {} d hd).ge
  le_registeredExperts d hd := (count_foldl hc.nodup {} d hd).le.trans (hc.minimumSlots_le d hd)
  usedBytes_eq := by
    apply congrArg List.sum
    apply map_congr_left
    intro d hd
    change _ = (demands.foldl ArenaTotals.add {}).slots.count d * d.slotBytes
    rw [count_foldl hc.nodup {} d hd]
    exact mul_comm _ _
  usedBytes_le := hbudget

theorem missing_minimum_lt (hc : Checked demands) :
    (demands.foldl ArenaTotals.add {}).slots.missing demands < enoughPasses demands := by
  have hsum : (demands.foldl ArenaTotals.add {}).slots.missing demands
      = ((demands.map fun d => (d.registeredExperts - d.minimumSlots).toNat).sum : Nat) := by
    rw [Nat.cast_list_sum, map_map]
    apply congrArg List.sum
    apply map_congr_left
    intro d hd
    have := hc.minimumSlots_le d hd
    rw [count_foldl hc.nodup {} d hd, Function.comp_apply, Int.toNat_of_nonneg (by omega)]
  rw [hsum]
  unfold enoughPasses
  omega

/-- The demands are accepted and the budget covers their minimum: only a share can go wrong. -/
theorem planSound_of_accepted (hpos : 0 < budget) (hbudget : budget ≤ int64Max)
    (hne : demands ≠ []) (hc : Checked demands) (hall : AllOk [] demands)
    (hfits : MinimumFits [] 0 demands) (henough : minimumBytes demands ≤ budget) :
    PlanSound budget demands ↔ SharesFit budget demands := by
  have hchecked : checkDemands demands [] {} = .ok (demands.foldl ArenaTotals.add {}) :=
    (checkDemands_spec (le_refl 0)).2.2 hfits hall
  have hmin : (demands.foldl ArenaTotals.add {}).minimumBytes = minimumBytes demands := by
    rw [minimumBytes_foldl]
    exact zero_add _
  have htotal :
      (demands.foldl ArenaTotals.add {}).registeredBytes = (registeredBytes demands : ℚ) := by
    rw [registeredBytes_foldl]
    exact zero_add _
  have hplan : planMoeArenaSlots budget demands
      = (planTargets budget (registeredBytes demands) demands {
            usedBytes := minimumBytes demands
            slots := (demands.foldl ArenaTotals.add {}).slots } >>= fun usage =>
          topUp budget demands (enoughPasses demands) usage) := by
    unfold planMoeArenaSlots
    rw [if_neg (by omega), if_neg hne, hchecked]
    change (if (demands.foldl ArenaTotals.add {}).minimumBytes > budget then _ else _) = _
    rw [hmin, htotal, if_neg (by omega)]
  obtain ⟨hok, hundefined⟩ := planTargets_spec hc hbudget (fun d hd => hd) (fits_minimum hc henough)
  unfold PlanSound
  rw [hplan]
  constructor
  · intro hsound
    by_contra hshares
    rw [hundefined hshares] at hsound
    exact hsound
  · intro hshares
    obtain ⟨usage, husage, hfits⟩ := hok hshares
    rw [husage]
    have hmissing : usage.slots.missing demands < enoughPasses demands := by
      refine lt_of_le_of_lt ?_ (missing_minimum_lt hc)
      apply sum_le_sum
      intro d hd
      have := hfits.minimumSlots_le d hd
      rw [count_foldl hc.nodup {} d hd]
      omega
    obtain ⟨slots, hslots, hsound⟩ := topUp_spec hc hbudget hfits hmissing
    change match topUp budget demands (enoughPasses demands) usage with
      | .ok slots => _
      | .error e => _
    rw [hslots]
    exact hsound

/-- The planner is sound and leaves no room, unless its unguarded sum or a share overflows. -/
theorem arena_plan_sound_iff (hbudget : budget ≤ int64Max) (hrange : ∀ d ∈ demands, d.InRange) :
    PlanSound budget demands ↔ (0 < budget → MinimumFits [] 0 demands ∧
        (AllOk [] demands → minimumBytes demands ≤ budget → SharesFit budget demands)) := by
  by_cases hpos : 0 < budget
  swap
  · refine ⟨fun _ h => absurd h hpos, fun _ => ?_⟩
    unfold PlanSound planMoeArenaSlots
    rw [if_pos (by omega)]
    trivial
  by_cases hne : demands = []
  · subst hne
    refine ⟨fun _ _ => ⟨trivial, fun _ _ d hd => by cases hd⟩, fun _ => ?_⟩
    unfold PlanSound planMoeArenaSlots
    rw [if_neg (by omega), if_pos rfl]
    trivial
  obtain ⟨hundefined, hthrown, hok⟩ := @checkDemands_spec [] {} (le_refl 0) demands
  have hplan (e : ArenaPlanError) (he : checkDemands demands [] {} = .error e) :
      planMoeArenaSlots budget demands = .error e := by
    unfold planMoeArenaSlots
    rw [if_neg (by omega), if_neg hne, he]
    rfl
  by_cases hfits : MinimumFits [] 0 demands
  swap
  · refine ⟨fun hsound => ?_, fun h => absurd (h hpos).1 hfits⟩
    exfalso
    unfold PlanSound at hsound
    rw [hplan _ (hundefined hfits)] at hsound
    exact hsound
  by_cases hall : AllOk [] demands
  swap
  · refine ⟨fun _ _ => ⟨hfits, fun h => absurd h hall⟩, fun _ => ?_⟩
    obtain ⟨e, he, hthrown⟩ := hthrown hfits hall
    unfold PlanSound
    rw [hplan e he]
    exact hthrown
  by_cases henough : minimumBytes demands ≤ budget
  · rw [planSound_of_accepted hpos hbudget hne (hall.checked hrange) hall hfits henough]
    exact ⟨fun h _ => ⟨hfits, fun _ _ => h⟩, fun h => (h hpos).2 hall henough⟩
  · refine ⟨fun _ _ => ⟨hfits, fun _ h => absurd h henough⟩, fun _ => ?_⟩
    have hchecked : checkDemands demands [] {} = .ok (demands.foldl ArenaTotals.add {}) :=
      hok hfits hall
    have hmin : (demands.foldl ArenaTotals.add {}).minimumBytes = minimumBytes demands := by
      rw [minimumBytes_foldl]
      exact zero_add _
    have hthrown : planMoeArenaSlots budget demands
        = .error (.runtimeError "MoE cache budget is below the minimum decode working set") := by
      unfold planMoeArenaSlots
      rw [if_neg (by omega), if_neg hne, hchecked]
      apply if_pos
      omega
    unfold PlanSound
    rw [hthrown]
    trivial

end Planner

/-- A gate/up and a down arena, and a budget for eleven and ten of their experts. -/
theorem arena_plan_sound_gate_up_down :
    PlanSound 4096 [⟨"nint4-gu", 256, 8, 64⟩, ⟨"nint4-down", 128, 8, 64⟩] :=
  (arena_plan_sound_iff (by decide) (by
    intro d hd
    simp only [mem_cons, not_mem_nil, or_false] at hd
    rcases hd with rfl | rfl
    · exact ⟨by decide, by decide⟩
    · exact ⟨by decide, by decide⟩)).mpr fun _ =>
  ⟨fun _ => ⟨by decide, fun _ => ⟨by decide, trivial⟩⟩, fun _ _ d hd => by
    simp only [mem_cons, not_mem_nil, or_false] at hd
    rcases hd with rfl | rfl
    · decide
    · decide⟩

/-- Two minimum demands that overflow together, and a share that is no `int`. -/
theorem arena_plan_overflows :
    ¬PlanSound 100 [⟨"a", 2 ^ 62, 1, 2⟩, ⟨"b", 2 ^ 62, 1, 2⟩] ∧
      ¬PlanSound (2 ^ 40) [⟨"a", 1, 1, 2⟩] := by
  constructor
  · intro h
    unfold PlanSound at h
    rw [show planMoeArenaSlots 100 [⟨"a", 2 ^ 62, 1, 2⟩, ⟨"b", 2 ^ 62, 1, 2⟩]
      = .error .undefined by decide +kernel] at h
    exact h
  · intro h
    unfold PlanSound at h
    rw [show planMoeArenaSlots (2 ^ 40) [⟨"a", 1, 1, 2⟩] = .error .undefined by
      decide +kernel] at h
    exact h

end TyloQuant.MoeCache
