import Mathlib.Data.List.Induction
import Mathlib.Data.List.Nodup
import Mathlib.Data.List.Perm.Subperm
import Mathlib.Data.Nat.Find
import TyloQuant.Tq.Layout

/-!
# The distinct rows of a batch

`select_tq_rows` keeps each row id once, in the order in which they first occur.  It finds an id
again in a table of indices with linear probing, which starts at a hash of the id and wraps around
at the end.  Nothing that follows depends on the hash.
-/

namespace TyloQuant.Tq

open List

/-! ### Linear probing -/

variable {fuel k m : Nat}

section Probing

variable {stop : Nat → Bool} {capacity : Nat}

/-- From slot to slot, up to `fuel` of them, until one stops the search. -/
def probe (stop : Nat → Bool) (capacity : Nat) : Nat → Nat → Option Nat
  | 0, _ => none
  | fuel + 1, at_ =>
    if stop at_ then some at_ else probe stop capacity fuel ((at_ + 1) &&& (capacity - 1))

/-- The search ends at the first slot that stops it. -/
theorem probe_eq (hcapacity : capacity = 2 ^ m) {start : Nat} (hfuel : k < fuel)
    (hstart : start < capacity) (hstop : stop ((start + k) % capacity) = true)
    (hbefore : ∀ i < k, stop ((start + i) % capacity) = false) :
    probe stop capacity fuel start = some ((start + k) % capacity) := by
  induction k generalizing fuel start with
  | zero =>
    obtain ⟨fuel, rfl⟩ := Nat.exists_eq_succ_of_ne_zero (Nat.ne_of_gt hfuel)
    rw [Nat.add_zero, Nat.mod_eq_of_lt hstart] at hstop ⊢
    rw [probe, if_pos hstop]
  | succ k ih =>
    obtain ⟨fuel, rfl⟩ := Nat.exists_eq_succ_of_ne_zero (Nat.ne_of_gt (Nat.zero_lt_of_lt hfuel))
    have hfirst := hbefore 0 (Nat.succ_pos k)
    rw [Nat.add_zero, Nat.mod_eq_of_lt hstart] at hfirst
    have hnext : (start + 1) &&& (capacity - 1) = (start + 1) % capacity := by
      rw [hcapacity, Nat.and_two_pow_sub_one_eq_mod]
    have hshift : ∀ i, ((start + 1) % capacity + i) % capacity = (start + (i + 1)) % capacity :=
      fun i => by rw [Nat.mod_add_mod, Nat.add_assoc, Nat.add_comm 1]
    rw [probe, if_neg (by simp [hfirst]), hnext,
      ih (by omega) (Nat.mod_lt _ (Nat.zero_lt_of_lt hstart)) (by rw [hshift]; exact hstop)
        (fun i hi => by rw [hshift]; exact hbefore _ (by omega)), hshift]

/-- When some slot stops it, the search ends within one round. -/
theorem probe_spec {m : Nat} (hcapacity : capacity = 2 ^ m) {start e : Nat}
    (hstart : start < capacity) (he : e < capacity) (hstop : stop e = true) :
    ∃ k < capacity, probe stop capacity capacity start = some ((start + k) % capacity) ∧
      stop ((start + k) % capacity) = true ∧ ∀ i < k, stop ((start + i) % capacity) = false := by
  have hexists : ∃ k, stop ((start + k) % capacity) = true ∧ k < capacity := by
    refine ⟨(e + (capacity - start)) % capacity, ?_, Nat.mod_lt _ (Nat.zero_lt_of_lt hstart)⟩
    rw [Nat.add_mod_mod, show start + (e + (capacity - start)) = e + capacity by omega,
      Nat.add_mod_right, Nat.mod_eq_of_lt he]
    exact hstop
  obtain ⟨hfound, hlt⟩ := Nat.find_spec hexists
  have hbefore : ∀ i < Nat.find hexists, stop ((start + i) % capacity) = false := fun i hi =>
    Bool.eq_false_iff.mpr fun h => Nat.find_min hexists hi ⟨h, by omega⟩
  exact ⟨_, hlt, probe_eq hcapacity hlt hstart hfound hbefore, hfound, hbefore⟩

end Probing

/-! ### `select_tq_rows` -/

structure TqRowSelection where
  selected : List Int := []
  inverse : List Nat := []
deriving DecidableEq, Repr

/-- The marker of a slot that holds no index. -/
def emptySlot : Nat := 2 ^ 32 - 1

/-- Doubling from one: `while (capacity < need) capacity *= 2`. -/
def capacityFor (need : Nat) : Nat → Nat → Nat
  | 0, capacity => capacity
  | fuel + 1, capacity => if capacity < need then capacityFor need fuel (capacity * 2) else capacity

/-- The hash of an id. -/
def rowHash (id : Int) : Nat :=
  let key := UInt64.ofNat id.toNat
  let key := key ^^^ (key >>> 33)
  let key := key * 0xff51afd7ed558ccd
  (key ^^^ (key >>> 33)).toNat

/-- The loop over the ids; `none` when a search does not end. -/
def selectLoop (hash : Int → Nat) (rowsPerShard shards capacity : Nat) :
    List Int → TqRowSelection → List Nat → Option (Except TqError TqRowSelection)
  | [], result, _ => some (.ok result)
  | id :: ids, result, slots =>
    if id < 0 ∨ shards ≤ id.toNat / rowsPerShard then
      some (.error (.outOfRange "TQ stage shard ID is out of bounds"))
    else
      let stop := fun at_ => slots.getD at_ 0 = emptySlot ∨
        result.selected[slots.getD at_ 0]? = some id
      match probe (fun at_ => decide (stop at_)) capacity capacity (hash id &&& (capacity - 1)) with
      | none => none
      | some at_ =>
        if slots.getD at_ 0 = emptySlot then
          selectLoop hash rowsPerShard shards capacity ids
            { selected := result.selected ++ [id],
              inverse := result.inverse ++ [result.selected.length] }
            (slots.set at_ result.selected.length)
        else
          selectLoop hash rowsPerShard shards capacity ids
            { result with inverse := result.inverse ++ [slots.getD at_ 0] } slots

/-- `select_tq_rows` with any hash. -/
def selectRowsWith (hash : Int → Nat) (ids : List Int) (rowsPerShard shards : Nat) :
    Option (Except TqError TqRowSelection) :=
  if rowsPerShard < 1 ∨ shards = 0 ∨ 2 ^ 31 - 1 < ids.length then
    some (.error (.invalidArgument "invalid TQ row selection geometry"))
  else
    let capacity := capacityFor (ids.length * 2) (ids.length * 2) 1
    selectLoop hash rowsPerShard shards capacity ids {} (List.replicate capacity emptySlot)

/-- `select_tq_rows`. -/
def selectTqRows (ids : List Int) (rowsPerShard shards : Nat) :
    Option (Except TqError TqRowSelection) :=
  selectRowsWith rowHash ids rowsPerShard shards

theorem capacityFor_spec {need capacity : Nat} (hcapacity : capacity = 2 ^ m)
    (hfuel : need ≤ capacity * 2 ^ fuel) :
    ∃ m, capacityFor need fuel capacity = 2 ^ m ∧ need ≤ 2 ^ m := by
  induction fuel generalizing capacity m with
  | zero => exact ⟨m, hcapacity, by simpa [hcapacity] using hfuel⟩
  | succ fuel ih =>
    rw [capacityFor]
    split
    · exact ih (m := m + 1) (by rw [hcapacity, Nat.pow_succ])
        (by rwa [Nat.mul_assoc, ← Nat.pow_succ'])
    · exact ⟨m, hcapacity, by omega⟩

/-- The table has the indices of the ids so far: each index at one slot, and no empty slot between
    the hash of its id and this slot. -/
structure Indexed (hash : Int → Nat) (capacity : Nat) (selected : List Int) (slots : List Nat) :
    Prop where
  length : slots.length = capacity
  bound : ∀ p < capacity, slots.getD p 0 ≠ emptySlot → slots.getD p 0 < selected.length
  distinct : ∀ p < capacity, ∀ q < capacity, slots.getD p 0 ≠ emptySlot →
    slots.getD p 0 = slots.getD q 0 → p = q
  chained : ∀ j id, selected[j]? = some id → ∃ k < capacity,
    slots.getD ((hash id % capacity + k) % capacity) 0 = j ∧
      ∀ i < k, slots.getD ((hash id % capacity + i) % capacity) 0 ≠ emptySlot

variable {hash : Int → Nat} {capacity : Nat} {selected : List Int} {slots : List Nat}

/-- A table with more slots than ids has an empty one. -/
theorem Indexed.exists_empty (h : Indexed hash capacity selected slots)
    (hroom : selected.length < capacity) : ∃ e < capacity, slots.getD e 0 = emptySlot := by
  by_contra hfull
  push Not at hfull
  have hnodup : ((List.range capacity).map (slots.getD · 0)).Nodup :=
    nodup_range.map_on fun p hp q hq heq =>
      h.distinct p (mem_range.mp hp) q (mem_range.mp hq) (hfull p (mem_range.mp hp))
        heq
  have hsub : ((List.range capacity).map (slots.getD · 0)).Subperm (List.range selected.length) := by
    refine hnodup.subperm fun j hj => ?_
    obtain ⟨p, hp, rfl⟩ := mem_map.mp hj
    have hp' := mem_range.mp hp
    exact mem_range.mpr (h.bound p hp' (hfull p hp'))
  have hlength := hsub.length_le
  rw [length_map, List.length_range, List.length_range] at hlength
  omega

theorem Indexed.insert (h : Indexed hash capacity selected slots) {id : Int} (hk : k < capacity)
    (hfew : selected.length < emptySlot)
    (hempty : slots.getD ((hash id % capacity + k) % capacity) 0 = emptySlot)
    (hbefore : ∀ i < k, slots.getD ((hash id % capacity + i) % capacity) 0 ≠ emptySlot) :
    Indexed hash capacity (selected ++ [id])
      (slots.set ((hash id % capacity + k) % capacity) selected.length) := by
  have hlt := Nat.mod_lt (hash id % capacity + k) (Nat.zero_lt_of_lt hk)
  generalize he : (hash id % capacity + k) % capacity = e at *
  have hself : (slots.set e selected.length).getD e 0 = selected.length := by
    rw [getD_eq_getElem?_getD, getElem?_set_self (h.length ▸ hlt), Option.getD_some]
  have hother : ∀ p, p ≠ e → (slots.set e selected.length).getD p 0 = slots.getD p 0 := by
    intro p hne
    rw [getD_eq_getElem?_getD, getElem?_set_ne hne.symm, getD_eq_getElem?_getD]
  have hkept : ∀ p, slots.getD p 0 ≠ emptySlot →
      (slots.set e selected.length).getD p 0 = slots.getD p 0 := fun p hp =>
    hother p fun heq => hp (heq ▸ hempty)
  refine ⟨by rw [length_set, h.length], fun p hp hne => ?_, fun p hp q hq hne heq => ?_,
    fun j id' hj => ?_⟩
  · rw [length_append, length_singleton]
    by_cases hpe : p = e
    · rw [hpe, hself]
      omega
    · rw [hother p hpe] at hne ⊢
      exact Nat.lt_succ_of_lt (h.bound p hp hne)
  · by_cases hpe : p = e
    · by_cases hqe : q = e
      · exact hpe.trans hqe.symm
      · rw [hpe, hself, hother q hqe] at heq
        have hbound := h.bound q hq (by omega)
        omega
    · rw [hother p hpe] at hne heq
      by_cases hqe : q = e
      · rw [hqe, hself] at heq
        have hbound := h.bound p hp hne
        omega
      · rw [hother q hqe] at heq
        exact h.distinct p hp q hq hne heq
  · rcases Nat.lt_or_ge j selected.length with hold | hnew
    · rw [getElem?_append_left hold] at hj
      obtain ⟨k', hk', hslot, hchain⟩ := h.chained j id' hj
      refine ⟨k', hk', ?_, fun i hi => ?_⟩
      · rw [hkept _ (by omega), hslot]
      · rw [hkept _ (hchain i hi)]
        exact hchain i hi
    · rw [getElem?_append_right hnew, getElem?_singleton] at hj
      obtain ⟨hlast, hid⟩ := Option.ite_none_right_eq_some.mp hj
      obtain rfl := Option.some.inj hid
      refine ⟨k, hk, ?_, fun i hi => ?_⟩
      · rw [he, hself]
        omega
      · rw [hkept _ (hbefore i hi)]
        exact hbefore i hi

theorem eraseDups_concat (done : List Int) (id : Int) :
    (done ++ [id]).eraseDups = if id ∈ done then done.eraseDups else done.eraseDups ++ [id] := by
  rw [eraseDups_append]
  by_cases hmem : id ∈ done
  · simp [List.removeAll, hmem]
  · simp [List.removeAll, hmem, eraseDups_cons]

theorem length_eraseDups_le (done : List Int) : done.eraseDups.length ≤ done.length := by
  induction done using List.reverseRecOn with
  | nil => exact Nat.le_refl 0
  | append_singleton done id ih =>
    rw [eraseDups_concat, length_append, length_singleton]
    split
    · omega
    · rw [length_append, length_singleton]
      omega

/-- The search for an id ends at its index, or at an empty slot when it is new. -/
theorem Indexed.search (h : Indexed hash capacity selected slots) (hcapacity : capacity = 2 ^ m)
    (hroom : selected.length < capacity) (hfew : selected.length < emptySlot) (id : Int) :
    ∃ k < capacity, probe (fun at_ => decide (slots.getD at_ 0 = emptySlot ∨
        selected[slots.getD at_ 0]? = some id)) capacity capacity (hash id &&& (capacity - 1)) =
        some ((hash id % capacity + k) % capacity) ∧
      (∀ i < k, slots.getD ((hash id % capacity + i) % capacity) 0 ≠ emptySlot) ∧
      if slots.getD ((hash id % capacity + k) % capacity) 0 = emptySlot then id ∉ selected
      else selected[slots.getD ((hash id % capacity + k) % capacity) 0]? = some id := by
  obtain ⟨e, he, hempty⟩ := h.exists_empty hroom
  have hstart : hash id &&& (capacity - 1) = hash id % capacity := by
    rw [hcapacity, Nat.and_two_pow_sub_one_eq_mod]
  obtain ⟨k, hk, hprobe, hstop, hbefore⟩ := @probe_spec (fun at_ =>
      decide (slots.getD at_ 0 = emptySlot ∨ selected[slots.getD at_ 0]? = some id)) capacity m
    hcapacity _ e (Nat.mod_lt (hash id) (Nat.zero_lt_of_lt he)) he (decide_eq_true (.inl hempty))
  simp only [decide_eq_true_eq, decide_eq_false_iff_not, not_or] at hstop hbefore
  refine ⟨k, hk, hstart ▸ hprobe, fun i hi => (hbefore i hi).1, ?_⟩
  split
  · rename_i hends
    intro hmem
    obtain ⟨j, hj⟩ := mem_iff_getElem?.mp hmem
    obtain ⟨k', -, hslot, hchain⟩ := h.chained j id hj
    -- the slot of the id cannot come before the end of the search, nor behind it
    rcases Nat.lt_trichotomy k' k with hlt | rfl | hlt
    · exact (hbefore k' hlt).2 (hslot ▸ hj)
    · have hbound := (List.getElem?_eq_some_iff.mp hj).1
      omega
    · exact hchain k hlt hends
  · rename_i hheld
    exact hstop.resolve_left hheld

/-- The rest of the ids, when the table has those of the ids that are done. -/
theorem selectLoop_spec {m rowsPerShard shards : Nat} (hcapacity : capacity = 2 ^ m)
    {ids done : List Int} {inverse slots : List Nat}
    (hrange : ∀ id ∈ ids, 0 ≤ id ∧ id.toNat / rowsPerShard < shards)
    (hroom : (done ++ ids).length ≤ capacity) (hfew : (done ++ ids).length < emptySlot)
    (hindexed : Indexed hash capacity done.eraseDups slots)
    (hinverse : inverse.map (done.eraseDups[·]?) = done.map some) :
    ∃ inverse', selectLoop hash rowsPerShard shards capacity ids ⟨done.eraseDups, inverse⟩ slots =
        some (.ok ⟨(done ++ ids).eraseDups, inverse'⟩) ∧
      inverse'.map ((done ++ ids).eraseDups[·]?) = (done ++ ids).map some := by
  induction ids generalizing done inverse slots with
  | nil =>
    rw [List.append_nil]
    exact ⟨inverse, rfl, hinverse⟩
  | cons id ids ih =>
    obtain ⟨hpos, hshard⟩ := hrange id mem_cons_self
    have hrest := fun id' hid' => hrange id' (mem_cons_of_mem id hid')
    have hle := length_eraseDups_le done
    rw [length_append, length_cons] at hroom hfew
    obtain ⟨k, hk, hprobe, hbefore, hfound⟩ := hindexed.search hcapacity (by omega) (by omega) id
    have hnext := @ih (done ++ [id])
    rw [List.append_assoc, singleton_append, length_append, length_cons] at hnext
    rw [selectLoop, if_neg (by omega)]
    simp only [hprobe]
    split at hfound
    · rename_i hempty
      have hnew : id ∉ done := fun hmem => hfound (mem_eraseDups.mpr hmem)
      rw [eraseDups_concat, if_neg hnew] at hnext
      rw [if_pos hempty]
      refine hnext hrest (by omega) (by omega) (hindexed.insert hk (by omega) hempty hbefore) ?_
      rw [map_append, map_append, ← hinverse]
      congr 1
      · refine map_congr_left fun j hj => ?_
        have hsome : done.eraseDups[j]? ∈ done.map some :=
          hinverse ▸ mem_map_of_mem (f := (done.eraseDups[·]?)) hj
        obtain ⟨id', -, hid'⟩ := mem_map.mp hsome
        exact getElem?_append_left (List.getElem?_eq_some_iff.mp hid'.symm).1
      · simp
    · rename_i hheld
      have hold : id ∈ done := mem_eraseDups.mp (mem_of_getElem? hfound)
      rw [eraseDups_concat, if_pos hold] at hnext
      rw [if_neg hheld]
      refine hnext hrest (by omega) (by omega) hindexed ?_
      rw [map_append, map_append, hinverse]
      exact congrArg (done.map some ++ ·) (congrArg (fun x => [x]) hfound)

/-- **`select_tq_rows` keeps each id once**, in the order of the first occurrences, and the inverse
    gives the ids back.  No hash keeps its searches from ending. -/
theorem selectTqRows_spec {ids : List Int} {rowsPerShard shards : Nat} (hrows : 1 ≤ rowsPerShard)
    (hshards : shards ≠ 0) (hcount : ids.length ≤ 2 ^ 31 - 1)
    (hrange : ∀ id ∈ ids, 0 ≤ id ∧ id.toNat / rowsPerShard < shards) :
    (∃ r, selectTqRows ids rowsPerShard shards = some (.ok r) ∧ r.selected = ids.eraseDups ∧
        r.inverse.map (r.selected[·]?) = ids.map some) ∧
      ∀ hash : Int → Nat, ∃ r, selectRowsWith hash ids rowsPerShard shards = some (.ok r) ∧
        r.selected = ids.eraseDups ∧ r.inverse.map (r.selected[·]?) = ids.map some := by
  have hall : ∀ hash : Int → Nat, ∃ r, selectRowsWith hash ids rowsPerShard shards = some (.ok r) ∧
        r.selected = ids.eraseDups ∧ r.inverse.map (r.selected[·]?) = ids.map some := by
    intro hash
    unfold selectRowsWith
    rw [if_neg (by omega)]
    have hfuel : ids.length * 2 ≤ 1 * 2 ^ (ids.length * 2) := by
      rw [Nat.one_mul]
      exact Nat.le_of_lt Nat.lt_two_pow_self
    obtain ⟨m, hcapacity, hneed⟩ := capacityFor_spec (Nat.pow_zero 2).symm hfuel
    generalize capacityFor (ids.length * 2) (ids.length * 2) 1 = capacity at *
    have hstart : Indexed hash capacity ([] : List Int).eraseDups
        (List.replicate capacity emptySlot) := by
      have hslot : ∀ p < capacity, (List.replicate capacity emptySlot).getD p 0 = emptySlot :=
        fun p hp => by simp [getD_eq_getElem?_getD, hp]
      exact ⟨length_replicate, fun p hp hne => absurd (hslot p hp) hne,
        fun p hp _ _ hne => absurd (hslot p hp) hne, fun j id hj => by cases hj⟩
    obtain ⟨inverse, hloop, hinverse⟩ := @selectLoop_spec hash capacity m rowsPerShard shards
      hcapacity ids [] [] _ hrange (by rw [List.nil_append]; omega)
      (by rw [List.nil_append, emptySlot]; omega) hstart rfl
    exact ⟨_, hloop, rfl, hinverse⟩
  exact ⟨hall rowHash, hall⟩

/-- Five ids of two shards, three of them distinct. -/
theorem selectTqRows_spec_five :
    selectTqRows [7, 3, 7, 0, 3] 4 2 = some (.ok ⟨[7, 3, 0], [0, 1, 0, 2, 1]⟩) ∧
      ∃ r, selectTqRows [7, 3, 7, 0, 3] 4 2 = some (.ok r) ∧
        r.selected = [7, 3, 7, 0, 3].eraseDups ∧
        r.inverse.map (r.selected[·]?) = [7, 3, 7, 0, 3].map some :=
  ⟨by decide, (selectTqRows_spec (by decide) (by decide) (by decide) (by decide)).1⟩

end TyloQuant.Tq
