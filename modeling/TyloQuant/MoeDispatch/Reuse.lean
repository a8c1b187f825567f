import Mathlib.Tactic.Common
import TyloQuant.Lib.Outcome
import TyloQuant.MoeDispatch.Plan

/-!
# A plan that is used again equals a new one

Both loops leave the experts in the order of their first appearance, each with its positions.
The groups that an earlier call left behind the first `count` are never looked at: the loop
overwrites one before it uses it, and the rest is cut off.
-/

namespace TyloQuant.MoeDispatch

open Lib List

/-! ### Experts and their positions -/

section Seen

variable {allowPadding : Bool} {ids : List Int} {id expert : Int}

@[simp] theorem seen_nil : seen allowPadding [] = [] := rfl

theorem seen_concat : seen allowPadding (ids ++ [id])
    = if padded allowPadding id || id ∈ seen allowPadding ids then seen allowPadding ids
      else seen allowPadding ids ++ [id] := by
  unfold seen
  rw [foldl_append]
  rfl

theorem mem_seen : expert ∈ seen allowPadding ids ↔
    expert ∈ ids ∧ padded allowPadding expert = false := by
  induction ids using List.reverseRecOn with
  | nil => simp
  | append_singleton ids id ih =>
    rw [seen_concat]
    split
    · rename_i hold
      rw [ih, mem_append, mem_singleton]
      constructor
      · rintro ⟨hmem, hpad⟩
        exact ⟨Or.inl hmem, hpad⟩
      · rintro ⟨hmem | rfl, hpad⟩
        · exact ⟨hmem, hpad⟩
        · simpa [hpad, ih] using hold
    · rename_i hnew
      simp only [Bool.or_eq_true, decide_eq_true_eq, not_or, Bool.not_eq_true] at hnew
      rw [mem_append, mem_append, mem_singleton, ih]
      constructor
      · rintro (⟨hmem, hpad⟩ | rfl)
        · exact ⟨Or.inl hmem, hpad⟩
        · exact ⟨Or.inr rfl, hnew.1⟩
      · rintro ⟨hmem | rfl, hpad⟩
        · exact Or.inl ⟨hmem, hpad⟩
        · exact Or.inr rfl

theorem nodup_seen : (seen allowPadding ids).Nodup := by
  induction ids using List.reverseRecOn with
  | nil => simp
  | append_singleton ids id ih =>
    rw [seen_concat]
    split
    · exact ih
    · rename_i hnew
      simp only [Bool.or_eq_true, decide_eq_true_eq, not_or] at hnew
      rw [nodup_append]
      refine ⟨ih, nodup_singleton id, ?_⟩
      rintro a ha b hb rfl
      rw [mem_singleton] at hb
      exact hnew.2 (hb ▸ ha)

theorem length_seen (allowPadding : Bool) (ids : List Int) :
    (seen allowPadding ids).length ≤ ids.length := by
  induction ids using List.reverseRecOn with
  | nil => simp
  | append_singleton ids id ih =>
    rw [seen_concat]
    split
    · rw [length_append]
      omega
    · simp only [length_append, length_singleton]
      omega

theorem positionsOf_concat : positionsOf (ids ++ [id]) expert
    = positionsOf ids expert ++ if id = expert then [ids.length] else [] := by
  unfold positionsOf
  rw [length_append, length_singleton, range_succ, filter_append]
  congr 1
  · apply filter_congr
    intro position hposition
    rw [mem_range] at hposition
    rw [getElem?_append_left hposition]
  · by_cases h : id = expert <;> simp [h]

theorem mem_positionsOf {position : Nat} :
    position ∈ positionsOf ids expert ↔ ids[position]? = some expert := by
  unfold positionsOf
  rw [mem_filter, mem_range, decide_eq_true_eq]
  constructor
  · exact And.right
  · intro h
    exact ⟨(List.getElem?_eq_some_iff.mp h).1, h⟩

end Seen

/-! ### The loops -/

/-- The groups of some ids. -/
def groupsOf (allowPadding : Bool) (ids : List Int) : List MoeDispatchGroup :=
  (seen allowPadding ids).map fun expert =>
    { expert, kind := .cpu, positions := positionsOf ids expert }

/-- The index of an expert's group, or `size`. -/
def indexOf (size : Nat) (allowPadding : Bool) (ids : List Int) (expert : Int) : Nat :=
  if expert ∈ seen allowPadding ids then (seen allowPadding ids).idxOf expert else size

/-- What the loop has after some ids. -/
structure Placed (size : Nat) (experts : Int) (allowPadding : Bool) (ids : List Int)
    (s : Placing) : Prop where
  groups : s.groups = groupsOf allowPadding ids
  length : s.groupFor.length = experts.toNat
  index : ∀ expert : Int, 0 ≤ expert → expert < experts →
    s.groupFor.getD expert.toNat 0 = indexOf size allowPadding ids expert

section Loop

variable {size : Nat} {experts : Int} {allowPadding : Bool} {ids : List Int} {id : Int}
  {s : Placing} {r : Reusing}

theorem length_groupsOf : (groupsOf allowPadding ids).length = (seen allowPadding ids).length :=
  length_map _

theorem groupsOf_seen (hid : id ∈ seen allowPadding ids) :
    (groupsOf allowPadding ids).modify ((seen allowPadding ids).idxOf id) (·.push ids.length)
      = groupsOf allowPadding (ids ++ [id]) := by
  have hseen : seen allowPadding (ids ++ [id]) = seen allowPadding ids := by
    rw [seen_concat, if_pos (by simp [hid])]
  unfold groupsOf
  rw [hseen]
  apply ext_getElem
  · simp
  intro i hi hi'
  have hlt : i < (seen allowPadding ids).length := by simpa using hi
  simp only [getElem_modify, getElem_map, positionsOf_concat]
  by_cases hat : (seen allowPadding ids).idxOf id = i
  · have helem : (seen allowPadding ids)[i] = id := by
      subst hat
      exact getElem_idxOf hlt
    simp [hat, helem, MoeDispatchGroup.push]
  · have hne : id ≠ (seen allowPadding ids)[i] := by
      intro h
      apply hat
      rw [h]
      exact nodup_seen.idxOf_getElem i hlt
    simp [hat, hne]

theorem groupsOf_new (hpad : padded allowPadding id = false)
    (hid : id ∉ seen allowPadding ids) :
    groupsOf allowPadding (ids ++ [id]) = groupsOf allowPadding ids
      ++ [{ expert := id, kind := .cpu, positions := [ids.length] }] := by
  have hseen : seen allowPadding (ids ++ [id]) = seen allowPadding ids ++ [id] := by
    rw [seen_concat, if_neg (by simp [hid, hpad])]
  have hnone : positionsOf ids id = [] := by
    rw [eq_nil_iff_forall_not_mem]
    intro position hposition
    have hmem := mem_of_getElem? (mem_positionsOf.mp hposition)
    exact hid (mem_seen.mpr ⟨hmem, hpad⟩)
  unfold groupsOf
  rw [hseen, map_append]
  congr 1
  · apply map_congr_left
    intro expert hexpert
    have hne : id ≠ expert := by
      rintro rfl
      exact hid hexpert
    simp [positionsOf_concat, hne]
  · simp [positionsOf_concat, hnone]

theorem groupsOf_padded (hpad : padded allowPadding id = true) :
    groupsOf allowPadding (ids ++ [id]) = groupsOf allowPadding ids := by
  have hseen : seen allowPadding (ids ++ [id]) = seen allowPadding ids := by
    rw [seen_concat, if_pos (by simp [hpad])]
  unfold groupsOf
  rw [hseen]
  apply map_congr_left
  intro expert hexpert
  have hne : id ≠ expert := by
    rintro rfl
    rw [(mem_seen.mp hexpert).2] at hpad
    cases hpad
  simp [positionsOf_concat, hne]

theorem indexOf_of_mem (hid : id ∈ seen allowPadding ids) :
    indexOf size allowPadding ids id = (seen allowPadding ids).idxOf id := if_pos hid

theorem indexOf_of_notMem (hid : id ∉ seen allowPadding ids) :
    indexOf size allowPadding ids id = size := if_neg hid

theorem indexOf_eq_size (hsize : ids.length < size) :
    indexOf size allowPadding ids id = size ↔ id ∉ seen allowPadding ids := by
  by_cases hid : id ∈ seen allowPadding ids
  · have hlt := idxOf_lt_length_of_mem hid
    have hle := length_seen allowPadding ids
    rw [indexOf_of_mem hid]
    simp only [hid, not_true, iff_false]
    omega
  · simp [indexOf_of_notMem hid, hid]

theorem indexOf_concat (hpad : padded allowPadding id = false) (hid : id ∉ seen allowPadding ids)
    (expert : Int) : indexOf size allowPadding (ids ++ [id]) expert
      = if expert = id then (seen allowPadding ids).length
        else indexOf size allowPadding ids expert := by
  have hseen : seen allowPadding (ids ++ [id]) = seen allowPadding ids ++ [id] := by
    rw [seen_concat, if_neg (by simp [hid, hpad])]
  unfold indexOf
  rw [hseen]
  by_cases hexpert : expert = id
  · subst hexpert
    simp [idxOf_append_of_notMem hid]
  · by_cases hmem : expert ∈ seen allowPadding ids
    · simp [hexpert, hmem, idxOf_append_of_mem hmem]
    · simp [hexpert, hmem]

theorem indexOf_concat_seen (h : padded allowPadding id = true ∨ id ∈ seen allowPadding ids)
    (expert : Int) :
    indexOf size allowPadding (ids ++ [id]) expert = indexOf size allowPadding ids expert := by
  have hseen : seen allowPadding (ids ++ [id]) = seen allowPadding ids := by
    rw [seen_concat, if_pos (by simpa using h)]
  unfold indexOf
  rw [hseen]

theorem modify_concat (groups : List MoeDispatchGroup) (group : MoeDispatchGroup)
    (f : MoeDispatchGroup → MoeDispatchGroup) :
    (groups ++ [group]).modify groups.length f = groups ++ [f group] := by
  induction groups with
  | nil => rfl
  | cons first rest ih => simp [ih]

theorem Placed.place (h : Placed size experts allowPadding ids s) (hsize : ids.length < size)
    (hid : padded allowPadding id = false → 0 ≤ id ∧ id < experts) :
    Placed size experts allowPadding (ids ++ [id])
      (s.place size allowPadding (id, ids.length)) := by
  unfold Placing.place
  dsimp only
  by_cases hpad : padded allowPadding id = true
  · rw [if_pos hpad]
    refine ⟨?_, h.length, ?_⟩
    · rw [h.groups, groupsOf_padded hpad]
    · intro expert hnonneg hlt
      rw [h.index expert hnonneg hlt, indexOf_concat_seen (Or.inl hpad)]
  rw [Bool.not_eq_true] at hpad
  obtain ⟨hnonneg, hlt⟩ := hid hpad
  have hindex := h.index id hnonneg hlt
  rw [if_neg (by simp [hpad])]
  by_cases hmem : id ∈ seen allowPadding ids
  · rw [if_neg (by rw [hindex, indexOf_eq_size hsize]; exact not_not_intro hmem)]
    refine ⟨?_, h.length, ?_⟩
    · rw [hindex, h.groups, indexOf_of_mem hmem, groupsOf_seen hmem]
    · intro expert hnonneg hlt
      rw [h.index expert hnonneg hlt, indexOf_concat_seen (Or.inr hmem)]
  · have hlength := h.length
    have hnat : id.toNat < s.groupFor.length := by omega
    have hgroups : s.groups.length = (seen allowPadding ids).length := by
      rw [h.groups, length_groupsOf]
    rw [if_pos (by rw [hindex, indexOf_of_notMem hmem])]
    refine ⟨?_, ?_, ?_⟩
    · rw [groupsOf_new hpad hmem, ← h.groups]
      have hself : (s.groupFor.set id.toNat s.groups.length).getD id.toNat 0 = s.groups.length := by
        simp [getD_eq_getElem?_getD, hnat]
      rw [hself, modify_concat]
      rfl
    · simp [h.length]
    · intro expert hexpert hexpert'
      rw [indexOf_concat hpad hmem]
      by_cases heq : expert = id
      · subst heq
        simp [getD_eq_getElem?_getD, hnat, hgroups]
      · have hne : id.toNat ≠ expert.toNat := by omega
        rw [if_neg heq, ← h.index expert hexpert hexpert']
        simp [getD_eq_getElem?_getD, hne]

/-- The ids that pass the checks. -/
def InRange (experts : Int) (allowPadding : Bool) (ids : List Int) : Prop :=
  ∀ id ∈ ids, padded allowPadding id = false → 0 ≤ id ∧ id < experts

theorem placed_loop (hsize : ids.length ≤ size) (hids : InRange experts allowPadding ids) :
    Placed size experts allowPadding ids (ids.zipIdx.foldl (Placing.place size allowPadding)
      { groups := [], groupFor := List.replicate experts.toNat size }) := by
  induction ids using List.reverseRecOn with
  | nil =>
    refine ⟨rfl, length_replicate, ?_⟩
    intro expert hnonneg hlt
    have hnat : expert.toNat < experts.toNat := by omega
    simp [indexOf, getD_eq_getElem?_getD, hnat]
  | append_singleton ids id ih =>
    rw [length_append, length_singleton] at hsize
    rw [zipIdx_append, foldl_append]
    have hbefore := ih (by omega) fun id hid => hids id (mem_append_left _ hid)
    have hlast := hids id (mem_append_right _ (mem_singleton_self id))
    simpa using hbefore.place (by omega) hlast

/-! ### The plan of an earlier call -/

/-- The loop that reuses groups goes as the other: its first `count` groups are the other's. -/
structure Follows (s : Placing) (r : Reusing) : Prop where
  count : r.count = s.groups.length
  enough : r.count ≤ r.groups.length
  groups : r.groups.take r.count = s.groups
  groupFor : r.groupFor = s.groupFor

variable {count : Nat}

theorem take_modify {groups : List MoeDispatchGroup} {index : Nat}
    (f : MoeDispatchGroup → MoeDispatchGroup) :
    (groups.modify index f).take count = (groups.take count).modify index f := by
  apply ext_getElem?
  intro i
  simp only [getElem?_take, getElem?_modify]
  by_cases hi : i < count <;> simp [hi]

/-- The group at `count` is this call's, whether it was there or is new. -/
theorem take_opened {groups : List MoeDispatchGroup} (h : count ≤ groups.length)
    (group : MoeDispatchGroup) :
    ((if count = groups.length then groups ++ [({} : MoeDispatchGroup)] else groups).modify count
        fun _ => group).take (count + 1) = groups.take count ++ [group] := by
  by_cases hcount : count = groups.length
  · rw [if_pos hcount, hcount, modify_concat, take_length, take_of_length_le (by simp)]
  · have hlt : count < groups.length := by omega
    have hlen : (groups.take count).length = count := by simp; omega
    rw [if_neg hcount]
    apply ext_getElem?
    intro i
    rw [getElem?_take, getElem?_modify, getElem?_append, hlen]
    rcases Nat.lt_trichotomy i count with hi | rfl | hi
    · have hne : count ≠ i := by omega
      have hle : i < count + 1 := by omega
      simp [hi, hne, hle]
    · simp [hlt]
    · have hnot : ¬i < count := by omega
      have hnot' : ¬i < count + 1 := by omega
      have hsub : i - count ≠ 0 := by omega
      simp [hnot, hnot', hsub]

theorem Follows.place (h : Follows s r) (routed : Int × Nat) :
    Follows (s.place size allowPadding routed) (r.place size allowPadding routed) := by
  obtain ⟨id, position⟩ := routed
  unfold Placing.place Reusing.place
  dsimp only
  by_cases hpad : padded allowPadding id = true
  · rw [if_pos hpad, if_pos hpad]
    exact h
  rw [if_neg hpad, if_neg hpad, h.groupFor]
  by_cases hnone : s.groupFor.getD id.toNat 0 = size
  · rw [if_pos hnone, if_pos hnone]
    have henough := h.enough
    refine ⟨?_, ?_, ?_, ?_⟩
    · simp [h.count]
    · simp only [length_modify]
      split
      · simp only [length_append, length_singleton]
        omega
      · omega
    · rw [take_modify, take_opened henough, h.groups, h.count]
    · simp [h.count]
  · rw [if_neg hnone, if_neg hnone]
    refine ⟨?_, ?_, ?_, h.groupFor⟩
    · simp [h.count]
    · simpa using h.enough
    · rw [h.groupFor, take_modify, h.groups]

theorem follows_loop (size : Nat) (allowPadding : Bool) (routed : List (Int × Nat))
    (h : Follows s r) :
    Follows (routed.foldl (Placing.place size allowPadding) s)
      (routed.foldl (Reusing.place size allowPadding) r) := by
  induction routed generalizing s r with
  | nil => exact h
  | cons first rest ih => exact ih (h.place first)

theorem Follows.resize (h : Follows s r) : resize r.groups r.count = s.groups := by
  have henough := h.enough
  have hnone : r.count - r.groups.length = 0 := by omega
  unfold MoeDispatch.resize
  rw [h.groups, hnone, replicate_zero, List.append_nil]

end Loop

/-! ### Kinds -/

variable {group : MoeDispatchGroup}

section Kinds

variable {groups : List MoeDispatchGroup} {kinds : List MoeDispatchKind} {position : Nat}
  {resident transferEligible : Int → Bool} {quota : Nat}

theorem getElem?_markGroup (group : MoeDispatchGroup) :
    (markGroup kinds group)[position]?
      = if position ∈ group.positions then kinds[position]?.map fun _ => group.kind
        else kinds[position]? := by
  unfold markGroup
  induction group.positions generalizing kinds with
  | nil => simp
  | cons first rest ih =>
    rw [foldl_cons, ih, getElem?_set]
    by_cases hfirst : first = position
    · subst hfirst
      by_cases hlt : first < kinds.length <;> simp [hlt]
    · have hfirst' : position ≠ first := fun h => hfirst h.symm
      simp [hfirst, hfirst']

@[simp] theorem length_markGroup (group : MoeDispatchGroup) :
    (markGroup kinds group).length = kinds.length := by
  unfold markGroup
  induction group.positions generalizing kinds with
  | nil => rfl
  | cons first rest ih => rw [foldl_cons, ih, length_set]

@[simp] theorem length_markGroups : (groups.foldl markGroup kinds).length = kinds.length := by
  induction groups generalizing kinds with
  | nil => rfl
  | cons first rest ih => rw [foldl_cons, ih, length_markGroup]

theorem markGroups_of_none (h : ∀ group ∈ groups, position ∉ group.positions) :
    (groups.foldl markGroup kinds)[position]? = kinds[position]? := by
  induction groups generalizing kinds with
  | nil => rfl
  | cons first rest ih =>
    rw [foldl_cons, ih fun group hgroup => h group (mem_cons_of_mem _ hgroup),
      getElem?_markGroup, if_neg (h first mem_cons_self)]

theorem markGroups_of_mem
    (hapart : groups.Pairwise fun a b => ∀ position ∈ a.positions, position ∉ b.positions)
    (hgroup : group ∈ groups) (hposition : position ∈ group.positions)
    (hlt : position < kinds.length) :
    (groups.foldl markGroup kinds)[position]? = some group.kind := by
  induction groups generalizing kinds with
  | nil => cases hgroup
  | cons first rest ih =>
    rw [pairwise_cons] at hapart
    rw [foldl_cons]
    rcases mem_cons.mp hgroup with rfl | hgroup
    · rw [markGroups_of_none fun other hother => hapart.1 other hother position hposition,
        getElem?_markGroup, if_pos hposition, getElem?_eq_getElem hlt]
      rfl
    · exact ih hapart.2 hgroup (by simpa using hlt)

/-- A group keeps its expert and its positions, and its kind or is transferred. -/
def Assigned (before after : MoeDispatchGroup) : Prop :=
  after.expert = before.expert ∧ after.positions = before.positions ∧
    (after.kind = before.kind ∨ before.kind = .cpu ∧ after.kind = .gpuTransfer)

theorem assignFromBack_assigned (transferEligible : Int → Bool) (quota : Nat)
    (groups : List MoeDispatchGroup) :
    List.Forall₂ Assigned groups (assignFromBack transferEligible quota groups) := by
  fun_induction assignFromBack transferEligible quota groups with
  | case1 => exact List.Forall₂.nil
  | case2 groups => exact forall₂_same.mpr fun group _ => ⟨rfl, rfl, Or.inl rfl⟩
  | case3 quota group rest hskip ih => exact List.Forall₂.cons ⟨rfl, rfl, Or.inl rfl⟩ ih
  | case4 quota group rest htake ih =>
    simp only [Bool.or_eq_true, decide_eq_true_eq, not_or, not_not] at htake
    exact List.Forall₂.cons ⟨rfl, rfl, Or.inr ⟨htake.1, rfl⟩⟩ ih

/-- A group is transferred when it is among the first of the cold ones that may be. -/
theorem assignFromBack_take (transferEligible : Int → Bool) (quota : Nat)
    (hfresh : ∀ group ∈ groups, group.kind ≠ .gpuTransfer)
    (hcold : ∀ group ∈ groups, group.kind = .cpu ↔ resident group.expert = false) :
    (assignFromBack transferEligible quota groups).filter (·.kind = .gpuTransfer)
      = ((assignFromBack transferEligible quota groups).filter
          (coldEligible resident transferEligible)).take quota := by
  fun_induction assignFromBack transferEligible quota groups with
  | case1 => simp
  | case2 groups =>
    rw [take_zero, filter_eq_nil_iff]
    intro group hgroup
    simpa using hfresh group hgroup
  | case3 quota group rest hskip ih =>
    have hkind := hfresh group mem_cons_self
    have hgroup := hcold group mem_cons_self
    have hnot : coldEligible resident transferEligible group = false := by
      unfold coldEligible
      by_cases hcpu : group.kind = .cpu
      · simpa [hcpu, hgroup.mp hcpu] using hskip
      · have hres : resident group.expert = true := by simpa using mt hgroup.mpr hcpu
        simp [hres]
    rw [filter_cons_of_neg (by simpa using hkind), filter_cons_of_neg (by simp [hnot])]
    exact ih (fun other hother => hfresh other (mem_cons_of_mem _ hother))
      fun other hother => hcold other (mem_cons_of_mem _ hother)
  | case4 quota group rest htake ih =>
    simp only [Bool.or_eq_true, decide_eq_true_eq, not_or, not_not, Bool.not_eq_true',
      Bool.not_eq_false] at htake
    have hgroup := (hcold group mem_cons_self).mp htake.1
    rw [filter_cons_of_pos (by simp),
      filter_cons_of_pos (by simp [coldEligible, hgroup, htake.2]), take_succ_cons]
    congr 1
    exact ih (fun other hother => hfresh other (mem_cons_of_mem _ hother))
      fun other hother => hcold other (mem_cons_of_mem _ hother)

variable {after before : List MoeDispatchGroup}

theorem assigned_mem (h : List.Forall₂ Assigned before after) (hgroup : group ∈ after) :
    ∃ old ∈ before, Assigned old group := by
  induction h with
  | nil => cases hgroup
  | cons hfirst _ ih =>
    rcases mem_cons.mp hgroup with rfl | hgroup
    · exact ⟨_, mem_cons_self, hfirst⟩
    · obtain ⟨old, hold, hassigned⟩ := ih hgroup
      exact ⟨old, mem_cons_of_mem _ hold, hassigned⟩

theorem assigned_experts (h : List.Forall₂ Assigned before after) :
    after.map (·.expert) = before.map (·.expert) := by
  induction h with
  | nil => rfl
  | cons hfirst _ ih => rw [map_cons, map_cons, ih, hfirst.1]

end Kinds

/-! ### The plan -/

section Plan

variable {ids : List Int} {experts : Int} {quota : Nat} {resident transferEligible : Int → Bool}
  {allowPadding : Bool}

theorem checkRoute_eq_ok :
    checkRoute ids experts allowPadding = .ok () ↔ 1 ≤ experts ∧ InRange experts allowPadding ids := by
  have hout : (ids.any fun id => (id < 0 || experts ≤ id) && !(allowPadding && id = -1)) = true ↔
      ¬InRange experts allowPadding ids := by
    unfold InRange padded
    push Not
    rw [any_eq_true]
    refine exists_congr fun id => and_congr_right fun _ => ?_
    rw [Bool.and_comm allowPadding, Bool.and_eq_true, Bool.or_eq_true, decide_eq_true_eq,
      decide_eq_true_eq, Bool.not_eq_true', and_comm]
    exact and_congr_right fun _ => by omega
  unfold checkRoute
  rw [guard_eq_ok, guard_eq_ok, hout, not_not, Int.not_lt]
  simp only [and_true]

/-- The plan of some ids before the quota. -/
def placedPlan (ids : List Int) (resident : Int → Bool) (allowPadding : Bool) : MoeDispatchPlan where
  groups := (groupsOf allowPadding ids).map (·.place resident)
  kinds := List.replicate ids.length .inactive

theorem planMoeDispatch_eq (h : checkRoute ids experts allowPadding = .ok ()) :
    planMoeDispatch ids experts quota resident transferEligible allowPadding
      = .ok (assignMoeTransferQuota (placedPlan ids resident allowPadding) quota
          transferEligible) := by
  have hplaced := placed_loop (le_refl _) (checkRoute_eq_ok.mp h).2
  unfold planMoeDispatch placedPlan
  rw [h, ← hplaced.groups]
  rfl

theorem planMoeDispatchReuse_eq (plan : MoeDispatchPlan) (workspace : MoeDispatchWorkspace)
    (quota : Nat) (resident transferEligible : Int → Bool)
    (h : checkRoute ids experts allowPadding = .ok ()) :
    ∃ groupFor, planMoeDispatchReuse plan workspace ids experts quota resident transferEligible
        allowPadding
      = (.ok (), assignMoeTransferQuota (placedPlan ids resident allowPadding) quota
          transferEligible, { groupFor }) := by
  have hplaced := placed_loop (le_refl _) (checkRoute_eq_ok.mp h).2
  have hstart : Follows { groups := [], groupFor := List.replicate experts.toNat ids.length }
      { groups := plan.groups, groupFor := List.replicate experts.toNat ids.length, count := 0 } :=
    ⟨rfl, Nat.zero_le _, take_zero, rfl⟩
  have hfollows := follows_loop ids.length allowPadding ids.zipIdx hstart
  unfold planMoeDispatchReuse placedPlan
  rw [h]
  dsimp only
  rw [hfollows.resize, hplaced.groups]
  exact ⟨_, rfl⟩

theorem placedPlan_cold (hgroup : group ∈ (placedPlan ids resident allowPadding).groups) :
    (group.kind = .cpu ↔ resident group.expert = false) ∧
      (group.kind = .gpuResident ↔ resident group.expert = true) ∧
      group.expert ∈ seen allowPadding ids ∧ group.positions = positionsOf ids group.expert := by
  unfold placedPlan groupsOf at hgroup
  simp only [mem_map] at hgroup
  obtain ⟨_, ⟨expert, hexpert, rfl⟩, rfl⟩ := hgroup
  unfold MoeDispatchGroup.place
  by_cases h : resident expert = true <;> simp [h, hexpert]

theorem dispatched (hids : InRange experts allowPadding ids) :
    Dispatched ids experts quota resident transferEligible allowPadding
      (assignMoeTransferQuota (placedPlan ids resident allowPadding) quota transferEligible) := by
  set plan := assignMoeTransferQuota (placedPlan ids resident allowPadding) quota transferEligible
    with hplan
  have hassigned : List.Forall₂ Assigned (placedPlan ids resident allowPadding).groups
      plan.groups := by
    have h := assignFromBack_assigned transferEligible quota
      (placedPlan ids resident allowPadding).groups.reverse
    simpa [hplan, assignMoeTransferQuota] using rel_reverse h
  have horder : plan.groups.map (·.expert) = seen allowPadding ids := by
    rw [assigned_experts hassigned]
    simp only [placedPlan, groupsOf, map_map]
    conv_rhs => rw [← map_id (seen allowPadding ids)]
    apply map_congr_left
    intro expert _
    simp only [Function.comp, MoeDispatchGroup.place]
    split <;> rfl
  have hgroup : ∀ group ∈ plan.groups, group.expert ∈ seen allowPadding ids ∧
      group.positions = positionsOf ids group.expert ∧
      (group.kind = .gpuResident ↔ resident group.expert = true) ∧ group.kind ≠ .inactive := by
    intro group hmem
    obtain ⟨old, hold, hexpert, hpositions, hkind⟩ := assigned_mem hassigned hmem
    obtain ⟨hcold, hwarm, hseen, hold⟩ := placedPlan_cold hold
    rw [hexpert, hpositions]
    refine ⟨hseen, hold, ?_⟩
    rcases hkind with hkind | ⟨hcpu, hkind⟩
    · rw [hkind]
      refine ⟨hwarm, ?_⟩
      cases hres : resident old.expert with
      | false => rw [hcold.mpr hres]; decide
      | true => rw [hwarm.mpr hres]; decide
    · rw [hkind]
      simp [hcold.mp hcpu]
  have hnodup : (plan.groups.map (·.expert)).Nodup := by
    rw [horder]
    exact nodup_seen
  have hapart : plan.groups.Pairwise fun a b => ∀ position ∈ a.positions,
      position ∉ b.positions := by
    rw [List.Nodup, pairwise_map] at hnodup
    apply hnodup.imp_of_mem
    intro a b ha hb hne position hpa hpb
    rw [(hgroup a ha).2.1, mem_positionsOf] at hpa
    rw [(hgroup b hb).2.1, mem_positionsOf, hpa] at hpb
    exact hne (Option.some.inj hpb)
  have htransferred : plan.groups.filter (·.kind = .gpuTransfer)
      = (plan.groups.filter (coldEligible resident transferEligible)).rtake quota := by
    have hfresh : ∀ group ∈ (placedPlan ids resident allowPadding).groups.reverse,
        group.kind ≠ .gpuTransfer := by
      intro group hmem
      rw [mem_reverse] at hmem
      obtain ⟨hcold, hwarm, -⟩ := placedPlan_cold hmem
      cases hres : resident group.expert with
      | false => rw [hcold.mpr hres]; decide
      | true => rw [hwarm.mpr hres]; decide
    have htake := assignFromBack_take transferEligible quota hfresh fun group hmem =>
      (placedPlan_cold (mem_reverse.mp hmem)).1
    rw [rtake_eq_reverse_take_reverse]
    simp only [hplan, assignMoeTransferQuota, filter_reverse, reverse_reverse, htake]
  have hkinds : plan.kinds = plan.groups.foldl markGroup (List.replicate ids.length .inactive) :=
    rfl
  refine ⟨hnodup, ?_, horder, fun group h => (hgroup group h).2.1, ?_,
    fun group h => (hgroup group h).2.2.1, fun group h => (hgroup group h).2.2.2, htransferred,
    ?_, ?_, ?_, ?_⟩
  · intro group hmem
    obtain ⟨hin, hpad⟩ := mem_seen.mp (hgroup group hmem).1
    exact hids _ hin hpad
  · intro id hid hpad
    have hmem : id ∈ plan.groups.map (·.expert) := by
      rw [horder]
      exact mem_seen.mpr ⟨hid, hpad⟩
    exact mem_map.mp hmem
  · rw [htransferred, List.rtake, length_drop]
    omega
  · rw [hkinds, length_markGroups, length_replicate]
  · intro group hmem position hposition
    rw [hkinds]
    apply markGroups_of_mem hapart hmem hposition
    rw [(hgroup group hmem).2.1, mem_positionsOf] at hposition
    rw [length_replicate]
    exact (List.getElem?_eq_some_iff.mp hposition).1
  · intro position hposition hpad
    rw [hkinds, markGroups_of_none]
    · simp [(List.getElem?_eq_some_iff.mp hposition).1]
    · intro group hmem hin
      rw [(hgroup group hmem).2.1, mem_positionsOf, hposition] at hin
      have hseen := (mem_seen.mp (hgroup group hmem).1).2
      rw [← Option.some.inj hin] at hseen
      simp [padded, hpad] at hseen

/-- What is refused: no expert at all, or an id that is neither an expert nor padding that is
    allowed. -/
theorem planMoeDispatch_rejects_iff :
    (∃ e, planMoeDispatch ids experts quota resident transferEligible allowPadding = .error e) ↔
      experts < 1 ∨ ∃ id ∈ ids, padded allowPadding id = false ∧ (id < 0 ∨ experts ≤ id) := by
  have hout : (experts < 1 ∨ ∃ id ∈ ids, padded allowPadding id = false ∧ (id < 0 ∨ experts ≤ id)) ↔
      checkRoute ids experts allowPadding ≠ .ok () := by
    rw [ne_eq, checkRoute_eq_ok, not_and_or, Int.not_le]
    unfold InRange
    push Not
    refine or_congr_right (exists_congr fun id => and_congr_right fun _ => and_congr_right ?_)
    omega
  rw [hout]
  constructor
  · rintro ⟨e, he⟩ hok
    rw [planMoeDispatch_eq hok] at he
    cases he
  · intro hbad
    cases h : checkRoute ids experts allowPadding with
    | ok _ => exact absurd h hbad
    | error e =>
      refine ⟨e, ?_⟩
      unfold planMoeDispatch
      rw [h]
      rfl

/-- **A plan that is used again equals a new one**, whatever was in it: its groups partition the
    routed positions, and the last cold groups that may be transferred are.  What is refused leaves
    the plan and the workspace as they were. -/
theorem dispatch_reuse_eq_fresh (plan : MoeDispatchPlan) (workspace : MoeDispatchWorkspace)
    (ids : List Int) (experts : Int) (quota : Nat) (resident transferEligible : Int → Bool)
    (allowPadding : Bool) :
    (∃ fresh groupFor,
      planMoeDispatch ids experts quota resident transferEligible allowPadding = .ok fresh ∧
      planMoeDispatchReuse plan workspace ids experts quota resident transferEligible allowPadding
        = (.ok (), fresh, { groupFor }) ∧
      Dispatched ids experts quota resident transferEligible allowPadding fresh) ∨
    ∃ e, planMoeDispatch ids experts quota resident transferEligible allowPadding = .error e ∧
      planMoeDispatchReuse plan workspace ids experts quota resident transferEligible allowPadding
        = (.error e, plan, workspace) := by
  cases h : checkRoute ids experts allowPadding with
  | ok _ =>
    left
    obtain ⟨groupFor, hreuse⟩ := planMoeDispatchReuse_eq plan workspace quota resident
      transferEligible h
    exact ⟨_, groupFor, planMoeDispatch_eq h, hreuse, dispatched (checkRoute_eq_ok.mp h).2⟩
  | error e =>
    right
    refine ⟨e, ?_, ?_⟩
    · unfold planMoeDispatch
      rw [h]
      rfl
    · unfold planMoeDispatchReuse
      rw [h]

/-- Expert 0 is resident, and one of the two others is transferred: the one that appears last. -/
theorem dispatch_reuse_eq_fresh_routed :
    ∃ fresh groupFor,
      planMoeDispatch [2, -1, 0, 1, 2] 3 1 (· = 0) (fun _ => true) true = .ok fresh ∧
      planMoeDispatchReuse { groups := [{ expert := 1, kind := .gpuTransfer, positions := [4, 7] }] }
          { groupFor := [9] } [2, -1, 0, 1, 2] 3 1 (· = 0) (fun _ => true) true
        = (.ok (), fresh, { groupFor }) ∧
      fresh.groups = [⟨2, .cpu, [0, 4]⟩, ⟨0, .gpuResident, [2]⟩, ⟨1, .gpuTransfer, [3]⟩] := by
  rcases dispatch_reuse_eq_fresh
      { groups := [{ expert := 1, kind := .gpuTransfer, positions := [4, 7] }] } { groupFor := [9] }
      [2, -1, 0, 1, 2] 3 1 (· = 0) (fun _ => true) true with
    ⟨fresh, groupFor, hfresh, hreuse, -⟩ | ⟨e, herror, -⟩
  · refine ⟨fresh, groupFor, hfresh, hreuse, ?_⟩
    cases hfresh
    rfl
  · cases herror

end Plan

end TyloQuant.MoeDispatch
