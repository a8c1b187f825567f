import TyloQuant.MoeCache.Calls

/-!
# The slot book stays consistent

Every operation keeps the book consistent, with one exception: a rollback that undoes a commit
after the old key has been given another slot.  The other transaction checks its key against
the map (`commit_replace` asks whether the new key is there), the rollback does not.
-/

namespace TyloQuant.MoeCache

open Lib List

variable {capacity : Int}

namespace MoeCacheSlotBook

variable {b b' : MoeCacheSlotBook} {i : Nat} {state : Slot} {key : MoeCacheKey} {slot : Int}

/-! ### Rewriting a slot in place -/

variable {old : Slot}

theorem Consistent.setSlot (hb : Consistent b) (hold : b.slots[i]? = some old)
    (hkey : state.key = old.key) (hlisted : state.listed = old.listed) :
    Consistent (b.setSlot i state) :=
  ⟨hb.linked.setSlot hold hkey hlisted, hb.stacked.setSlot hold hkey⟩

theorem Consistent.spliceLru (hb : Consistent b) (hstate : b.slots[i]? = some state) :
    Consistent (b.spliceLru i state) :=
  ⟨hb.linked.spliceLru hstate, hb.stacked.spliceLru i state⟩

theorem Consistent.listed_of_key (hb : Consistent b) (hstate : b.slots[i]? = some state)
    (hkey : state.key.isSome = true) : state.listed = true := by
  refine (hb.linked.listed i state hstate).mpr ((hb.linked.recent i).mpr ⟨trivial, ?_⟩)
  rw [keyAt_eq hstate]
  exact hkey

theorem Consistent.touch (hb : Consistent b) (h : b.touch slot = .ok b') : Consistent b' := by
  obtain ⟨i, state, -, hstate, hkey, rfl⟩ := touch_ok h
  rw [if_pos (hb.listed_of_key hstate hkey)]
  exact hb.spliceLru hstate

theorem Consistent.markInflight (hb : Consistent b) (h : b.markInflight slot = .ok b') :
    Consistent b' := by
  obtain ⟨i, state, -, hstate, rfl⟩ := markInflight_ok h
  exact hb.setSlot hstate rfl rfl

theorem Consistent.clearInflight (hb : Consistent b) (h : b.clearInflight slot = .ok b') :
    Consistent b' := by
  obtain ⟨i, state, -, hstate, rfl⟩ := clearInflight_ok h
  exact hb.setSlot hstate rfl rfl

theorem Consistent.setLowPrioritySources (hb : Consistent b) (sources : List Int) :
    Consistent (b.setLowPrioritySources sources) :=
  ⟨hb.linked.congr rfl rfl rfl, hb.stacked.congr rfl rfl fun _ => rfl⟩

variable {expected : MoeCacheKey}

theorem Consistent.rekey (hb : Consistent b) (hold : b.slots[i]? = some old)
    (hexpected : old.key = some expected) (hfresh : key ∉ b.byKey) {byKey : Table MoeCacheKey Nat}
    (hmap : ∀ k, byKey.lookup k =
      if k = key then some i else if k = expected then none else b.byKey.lookup k)
    (hkey : state.key = some key) (hlisted : state.listed = old.listed) :
    Consistent ({ b with byKey }.setSlot i state) :=
  ⟨hb.linked.rekey hold hexpected trivial hfresh hmap hkey hlisted,
    hb.stacked.rekey hold (by simp [hexpected]) (by simp [hkey]) byKey⟩

theorem Consistent.mem_byKey (hb : Consistent b) (hstate : b.slots[i]? = some state)
    (hkey : state.key = some key) : b.byKey.lookup key = some i :=
  (hb.linked.mapped key i).mpr ⟨trivial, (keyAt_eq hstate).trans hkey⟩

theorem insert_erase_lookup {t : Table MoeCacheKey Nat} (hne : key ≠ expected) (i : Nat)
    (k : MoeCacheKey) :
    ((t.insert key i).erase expected).lookup k =
      if k = key then some i else if k = expected then none else t.lookup k := by
  rw [Table.lookup_erase_ite, Table.lookup_insert_ite]
  by_cases hk : k = key
  · rw [if_pos hk, if_pos hk, if_neg (fun h => hne (hk.symm.trans h))]
  · rw [if_neg hk, if_neg hk]

variable {done : Bool} {replacement : MoeCacheKey}

theorem Consistent.replace (hb : Consistent b)
    (h : b.replace slot expected replacement = .ok (b', done)) : Consistent b' := by
  obtain ⟨i, state, -, hstate, hunchanged | hchanged⟩ := replace_ok h
  · exact hunchanged.2 ▸ hb
  · obtain ⟨-, hkey, hfresh, state', rfl, rfl⟩ := hchanged
    have hne : replacement ≠ expected := by
      rintro rfl
      exact hfresh (Table.mem_of_lookup (hb.mem_byKey hstate hkey))
    refine Consistent.spliceLru ?_ ?_
    · refine hb.rekey hstate hkey hfresh ?_ rfl rfl
      rw [emplace, if_neg hfresh]
      exact insert_erase_lookup hne i
    · exact (setSlot_slots hstate _ i).trans (if_pos rfl)

/-! ### Discarding -/

theorem Consistent.discard (hb : Consistent b) {generation : Nat}
    (h : b.discard key slot generation = .ok (b', done)) : Consistent b' := by
  obtain ⟨i, state, -, hstate, hunchanged | hchanged⟩ := discard_ok h
  · exact hunchanged.2.1 ▸ hb
  · obtain ⟨-, hkey, -, rfl⟩ := hchanged
    have hdropped : (b.dropSlot i).slots[i]? = some { state with listed := false } := by
      rw [dropSlot_eq hstate, eraseLru_slots (by simpa using hstate), if_pos rfl]
    have hlinked : Linked (fun _ => True) ((b.dropSlot i).setSlot i { state with
        key := none, inflight := false, listed := false }) :=
      Linked.vacated (hb.linked.dropSlot hstate trivial) hdropped rfl rfl
    refine ⟨hlinked.congr rfl rfl rfl, ⟨fun j => ?_, ?_⟩⟩
    · have hkeys := setSlot_keyAt hdropped
        { state with key := none, inflight := false, listed := false } j
      have hcapacity : ((b.dropSlot i).setSlot i { state with
          key := none, inflight := false, listed := false }).capacity = b.capacity := by
        rw [setSlot_capacity, dropSlot_capacity]
      show j ∈ b.free ++ [i] ↔ True ∧ j < ((b.dropSlot i).setSlot i _).capacity ∧
        ((b.dropSlot i).setSlot i _).keyAt j = none
      rw [hkeys, hcapacity, dropSlot_keyAt, mem_append, mem_singleton, hb.stacked.free]
      by_cases hj : j = i
      · simp [hj, lt_capacity hstate]
      · simp [hj]
    · show (b.free ++ [i]).Nodup
      rw [nodup_append]
      refine ⟨hb.stacked.freeNodup, nodup_singleton i, ?_⟩
      rintro j hj k hk rfl
      rw [mem_singleton] at hk
      have hnone := ((hb.stacked.free j).mp hj).2.2
      rw [hk, keyAt_eq hstate, hkey] at hnone
      cases hnone

/-! ### Acquiring -/

/-- The slot that was made available is in neither list, and every other slot as before. -/
theorem Consistent.vacate (hb : Consistent b) {replaced : Option MoeCacheKey}
    (h : b.vacate = .ok (b', i, replaced)) :
    Linked (fun j => True ∧ j ≠ i) b' ∧ Stacked (fun j => j ≠ i) b' ∧
      b'.capacity = b.capacity ∧ (∀ j, b'.keyAt j = b.keyAt j) ∧
      (∀ k, k ∉ b.byKey → k ∉ b'.byKey) ∧ (b.keyAt i = none ∨ b.evictable i = true) := by
  rcases vacate_ok h with ⟨hfree, rfl, -⟩ | ⟨hempty, hvictim, state, hstate, rfl, -⟩
  · have hsplit : b.free.dropLast ++ [i] = b.free :=
      dropLast_append_getLast? i (by rw [hfree]; rfl)
    have hnodup : (b.free.dropLast ++ [i]).Nodup := by
      rw [hsplit]
      exact hb.stacked.freeNodup
    have hvacant : b.keyAt i = none := by
      have hmem : i ∈ b.free := by
        rw [← hsplit]
        exact mem_append_right _ mem_cons_self
      exact ((hb.stacked.free i).mp hmem).2.2
    obtain ⟨hrest, -, hdisjoint⟩ := nodup_append.mp hnodup
    have hmem : ∀ j, j ∈ b.free.dropLast ↔ j ∈ b.free ∧ j ≠ i := by
      intro j
      constructor
      · intro hj
        refine ⟨?_, hdisjoint j hj i mem_cons_self⟩
        rw [← hsplit]
        exact mem_append_left _ hj
      · rintro ⟨hj, hne⟩
        rw [← hsplit, mem_append, mem_singleton] at hj
        exact hj.resolve_right hne
    refine ⟨⟨?_, ?_, hb.linked.listed, hb.linked.lruNodup⟩, ⟨?_, hrest⟩, rfl, fun _ => rfl,
      fun _ hk => hk, Or.inl hvacant⟩
    · intro k j
      refine (hb.linked.mapped k j).trans ⟨?_, fun ⟨_, hj⟩ => ⟨trivial, hj⟩⟩
      rintro ⟨-, hj⟩
      refine ⟨⟨trivial, ?_⟩, hj⟩
      rintro rfl
      rw [hvacant] at hj
      cases hj
    · intro j
      refine (hb.linked.recent j).trans ⟨?_, fun ⟨_, hj⟩ => ⟨trivial, hj⟩⟩
      rintro ⟨-, hj⟩
      refine ⟨⟨trivial, ?_⟩, hj⟩
      rintro rfl
      rw [hvacant] at hj
      cases hj
    · intro j
      refine (hmem j).trans ?_
      rw [hb.stacked.free]
      show (True ∧ j < b.capacity ∧ b.keyAt j = none) ∧ j ≠ i ↔
        j ≠ i ∧ j < b.capacity ∧ b.keyAt j = none
      tauto
  · have hnil : b.free = [] := getLast?_eq_none_iff.mp hempty
    refine ⟨hb.linked.dropSlot hstate trivial, ⟨fun j => ?_, ?_⟩, dropSlot_capacity b i,
      dropSlot_keyAt b i, ?_, Or.inr (victim_some hvictim).2⟩
    · rw [dropSlot_free, hnil, dropSlot_capacity, dropSlot_keyAt]
      have hnone := hb.stacked.free j
      rw [hnil] at hnone
      simp only [not_mem_nil, true_and, false_iff] at hnone ⊢
      exact fun hj => hnone hj.2
    · rw [dropSlot_free, hnil]
      exact nodup_nil
    · intro k hk
      rw [← AList.lookup_eq_none] at hk ⊢
      rw [dropSlot_eq hstate, eraseLru_byKey, eraseKey_lookup, hk]
      exact ite_self none

variable {lease : MoeCacheSlotLease}

theorem Consistent.acquire (hb : Consistent b) (h : b.acquire key = .ok (b', lease)) :
    Consistent b' := by
  rcases acquire_ok h with ⟨i, -, htouch, -⟩ | ⟨hmiss, b₁, state, hvacate, hstate, rfl, -, -⟩
  · exact hb.touch htouch
  · obtain ⟨hlinked, hstacked, -, -, hfresh, -⟩ := hb.vacate hvacate
    have hkey : key ∉ b₁.byKey := hfresh key (AList.lookup_eq_none.mp hmiss)
    refine ⟨hlinked.occupy trivial hstate hkey rfl, ⟨fun j => ?_, hstacked.freeNodup⟩⟩
    have hkeys := setSlot_keyAt (b := b₁) hstate { state with
      generation := bump state.generation, key := some key, inflight := false,
      listed := true } j
    have hcapacity := setSlot_capacity (b := b₁) lease.slot { state with
      generation := bump state.generation, key := some key, inflight := false,
      listed := true }
    show j ∈ b₁.free ↔ True ∧ j < (b₁.setSlot lease.slot _).capacity ∧
      (b₁.setSlot lease.slot _).keyAt j = none
    rw [hkeys, hcapacity, hstacked.free]
    by_cases hj : j = lease.slot
    · simp [hj]
    · simp [hj]

/-- **No eviction in flight.**  A slot that holds a key and is in flight keeps its key. -/
theorem Consistent.acquire_keeps_inflight (hb : Consistent b)
    (h : b.acquire key = .ok (b', lease)) (hstate : b.slots[i]? = some state)
    (hkey : state.key.isSome = true) (hinflight : state.inflight = true) :
    b'.keyAt i = state.key := by
  rcases acquire_ok h with ⟨j, -, htouch, -⟩ | ⟨hmiss, b₁, old, hvacate, hold, rfl, -, -⟩
  · obtain ⟨k, touched, -, htouched, hoccupied, rfl⟩ := touch_ok htouch
    have hlisted := hb.listed_of_key htouched hoccupied
    rw [if_pos hlisted, MoeCacheSlotBook.spliceLru, if_pos hlisted]
    exact keyAt_eq hstate
  · obtain ⟨-, -, -, hkeys, -, hgone⟩ := hb.vacate hvacate
    have hne : i ≠ lease.slot := by
      rintro rfl
      rcases hgone with hvacant | hevictable
      · rw [keyAt_eq hstate] at hvacant
        rw [hvacant] at hkey
        cases hkey
      · unfold evictable at hevictable
        rw [hstate] at hevictable
        simp [hinflight] at hevictable
    refine (setSlot_keyAt (b := b₁) hold _ i).trans ?_
    rw [if_neg hne, hkeys, keyAt_eq hstate]

/-! ### Resizing -/

theorem Linked.dropSlots {L : Nat → Prop} (drops : List Nat) (hb : Linked L b)
    (hL : ∀ i ∈ drops, L i ∧ i < b.capacity) (hnodup : drops.Nodup) :
    Linked (fun j => L j ∧ j ∉ drops) (drops.foldl MoeCacheSlotBook.dropSlot b) := by
  induction drops generalizing b L with
  | nil =>
    refine ⟨?_, ?_, hb.listed, hb.lruNodup⟩
    · simpa using hb.mapped
    · simpa using hb.recent
  | cons i drops ih =>
    obtain ⟨hnot, hrest⟩ := nodup_cons.mp hnodup
    obtain ⟨hi, hlt⟩ := hL i mem_cons_self
    have hstate : b.slots[i]? = some b.slots[i] := getElem?_eq_getElem hlt
    have hdropped := ih (hb.dropSlot hstate hi) (fun j hj => by
      obtain ⟨hj', hltj⟩ := hL j (mem_cons_of_mem i hj)
      refine ⟨⟨hj', ?_⟩, by rwa [dropSlot_capacity]⟩
      rintro rfl
      exact hnot hj) hrest
    have hsame : ∀ j, (((L j ∧ j ≠ i) ∧ j ∉ drops) ↔ (L j ∧ j ∉ i :: drops)) := by
      intro j
      rw [mem_cons, not_or, and_assoc]
    simp only [hsame] at hdropped
    exact hdropped

theorem foldl_dropSlot_same (drops : List Nat) (b : MoeCacheSlotBook) :
    (drops.foldl dropSlot b).free = b.free ∧ (drops.foldl dropSlot b).capacity = b.capacity ∧
      ∀ j, (drops.foldl dropSlot b).keyAt j = b.keyAt j := by
  induction drops generalizing b with
  | nil => exact ⟨rfl, rfl, fun _ => rfl⟩
  | cons i drops ih =>
    obtain ⟨hfree, hcapacity, hkeys⟩ := ih (b.dropSlot i)
    refine ⟨hfree.trans (dropSlot_free b i), hcapacity.trans (dropSlot_capacity b i), fun j => ?_⟩
    exact (hkeys j).trans (dropSlot_keyAt b i j)

/-- What is left of the book below the new capacity, before the arena is cut. -/
theorem Consistent.below (hb : Consistent b) (c : Nat) :
    let b₁ := if c < b.capacity then b.shrink c else b
    Linked (fun j => j < c) b₁ ∧ Stacked (fun j => j < c) b₁ ∧ b₁.capacity = b.capacity ∧
      ∀ j, b₁.keyAt j = b.keyAt j := by
  dsimp only
  split
  · rename_i hlt
    obtain ⟨hfree, hcapacity, hkeys⟩ := foldl_dropSlot_same (List.range' c (b.capacity - c)) b
    have hlinked := hb.linked.dropSlots (List.range' c (b.capacity - c)) (fun j hj => by
      rw [mem_range'_1] at hj
      exact ⟨trivial, by omega⟩) nodup_range'
    refine ⟨?_, ⟨fun j => ?_, ?_⟩, hcapacity, hkeys⟩
    · refine ⟨fun k j => ?_, fun j => ?_, hlinked.listed, hlinked.lruNodup⟩
      · refine (hlinked.mapped k j).trans ?_
        rw [mem_range'_1]
        refine and_congr_left fun hj => ?_
        have hlt : j < b.capacity := by
          by_contra hge
          rw [hkeys, keyAt_none (by omega)] at hj
          cases hj
        simp only [true_and]
        omega
      · refine (hlinked.recent j).trans ?_
        rw [mem_range'_1]
        refine and_congr_left fun hj => ?_
        have hlt : j < b.capacity := by
          by_contra hge
          rw [hkeys, keyAt_none (by omega)] at hj
          cases hj
        simp only [true_and]
        omega
    · show j ∈ (List.foldl dropSlot b _).free.filter _ ↔ j < c ∧
        j < (List.foldl dropSlot b _).capacity ∧ (List.foldl dropSlot b _).keyAt j = none
      rw [hfree, hcapacity, hkeys, mem_filter, hb.stacked.free]
      simp only [true_and, decide_eq_true_eq]
      tauto
    · show ((List.foldl dropSlot b _).free.filter _).Nodup
      rw [hfree]
      exact hb.stacked.freeNodup.filter _
  · rename_i hge
    refine ⟨⟨fun k j => ?_, fun j => ?_, hb.linked.listed, hb.linked.lruNodup⟩,
      ⟨fun j => ?_, hb.stacked.freeNodup⟩, rfl, fun _ => rfl⟩
    · refine (hb.linked.mapped k j).trans (and_congr_left fun hj => ?_)
      have hlt : j < b.capacity := by
        by_contra hout
        rw [keyAt_none (by omega)] at hj
        cases hj
      simp only [true_iff]
      omega
    · refine (hb.linked.recent j).trans (and_congr_left fun hj => ?_)
      have hlt : j < b.capacity := by
        by_contra hout
        rw [keyAt_none (by omega)] at hj
        cases hj
      simp only [true_iff]
      omega
    · refine (hb.stacked.free j).trans (and_congr_left fun hj => ?_)
      simp only [true_iff]
      omega

/-- The arena cut or extended to `c` slots. -/
def recut (b : MoeCacheSlotBook) (c : Nat) (free : List Nat) : MoeCacheSlotBook :=
  { b with slots := b.slots.take c ++ List.replicate (c - b.capacity) {}, free }

theorem recut_slots (b : MoeCacheSlotBook) (c : Nat) (free : List Nat) (j : Nat) :
    (b.recut c free).slots[j]? =
      if j < c then some (b.slots[j]?.getD {}) else none := by
  show (b.slots.take c ++ List.replicate (c - b.capacity) ({} : Slot))[j]? = _
  have hlength : b.slots.length = b.capacity := rfl
  rw [getElem?_append, length_take, getElem?_take, getElem?_replicate]
  by_cases hj : j < c
  · by_cases hin : j < b.capacity
    · rw [if_pos (by omega), if_pos hj, if_pos hj, getElem?_eq_getElem (by omega)]
      rfl
    · rw [if_neg (by omega), if_pos hj, if_pos (by omega), getElem?_eq_none (by omega)]
      rfl
  · rw [if_neg (by omega), if_neg hj, if_neg (by omega)]

theorem recut_capacity (b : MoeCacheSlotBook) (c : Nat) (free : List Nat) :
    (b.recut c free).capacity = c := by
  show (b.slots.take c ++ List.replicate (c - b.capacity) ({} : Slot)).length = c
  rw [length_append, length_take, length_replicate]
  have hlength : b.slots.length = b.capacity := rfl
  omega

theorem recut_keyAt (b : MoeCacheSlotBook) (c : Nat) (free : List Nat) (j : Nat) :
    (b.recut c free).keyAt j = if j < c then b.keyAt j else none := by
  unfold keyAt
  rw [recut_slots]
  by_cases hj : j < c
  · rw [if_pos hj, if_pos hj]
    cases b.slots[j]? <;> rfl
  · rw [if_neg hj, if_neg hj]
    rfl

theorem Consistent.resize (hb : Consistent b) (h : b.resize capacity = .ok b') : Consistent b' := by
  obtain ⟨-, -, b₁, hb₁, rfl⟩ := resize_ok h
  obtain ⟨hlinked, hstacked, hcapacity, -⟩ := hb.below capacity.toNat
  rw [← hb₁] at hlinked hstacked hcapacity
  rw [← hcapacity]
  change Consistent (b₁.recut capacity.toNat (b₁.free ++
    (List.range' b₁.capacity (capacity.toNat - b₁.capacity)).reverse))
  generalize capacity.toNat = c at *
  refine ⟨⟨fun k j => ?_, fun j => ?_, fun j st hst => ?_, hlinked.lruNodup⟩, ⟨fun j => ?_, ?_⟩⟩
  · rw [recut_keyAt]
    refine (hlinked.mapped k j).trans ?_
    by_cases hj : j < c
    · simp [hj]
    · simp [hj]
  · rw [recut_keyAt]
    refine (hlinked.recent j).trans ?_
    by_cases hj : j < c
    · simp [hj]
    · simp [hj]
  · rw [recut_slots] at hst
    show st.listed = true ↔ j ∈ b₁.lru
    split at hst
    · obtain rfl := Option.some.inj hst
      cases hslot : b₁.slots[j]? with
      | none =>
        have hout : j ∉ b₁.lru := by
          intro hmem
          have hsome := ((hlinked.recent j).mp hmem).2
          simp [keyAt, hslot] at hsome
        simp [hout]
      | some old => exact hlinked.listed j old hslot
    · cases hst
  · rw [recut_keyAt, recut_capacity]
    show j ∈ b₁.free ++ _ ↔ _
    rw [mem_append, mem_reverse, mem_range'_1, hstacked.free]
    by_cases hj : j < c
    · rw [if_pos hj]
      by_cases hin : j < b₁.capacity
      · simp [hj, hin]
      · have hnone : b₁.keyAt j = none := keyAt_none (by omega)
        simp [hj, hnone]
        omega
    · rw [if_neg hj]
      simp only [hj, false_and, true_and, false_or, iff_false]
      omega
  · show (b₁.free ++ _).Nodup
    rw [nodup_append, nodup_reverse]
    refine ⟨hstacked.freeNodup, nodup_range', ?_⟩
    intro j hj k hk hjk
    rw [mem_reverse, mem_range'_1] at hk
    have hlt := ((hstacked.free j).mp hj).2.1
    omega

theorem Consistent.create (h : create capacity = .ok b) : Consistent b := by
  obtain rfl := create_ok h
  have hslots : ∀ (j : Nat) (st : Slot), (List.replicate capacity.toNat ({} : Slot))[j]? = some st →
      st = {} ∧ j < capacity.toNat := by
    intro j st hst
    rw [getElem?_replicate] at hst
    split at hst
    · rename_i hlt
      exact ⟨(Option.some.inj hst).symm, hlt⟩
    · cases hst
  have hkeys : ∀ j : Nat,
      (List.replicate capacity.toNat ({} : Slot))[j]?.bind Slot.key = none := by
    intro j
    cases hst : (List.replicate capacity.toNat ({} : Slot))[j]? with
    | none => rfl
    | some st => rw [(hslots j st hst).1]; rfl
  refine ⟨⟨fun k j => ?_, fun j => ?_, fun j st hst => ?_, nodup_nil⟩, ⟨fun j => ?_, ?_⟩⟩
  · simp [keyAt, hkeys]
  · simp [keyAt, hkeys]
  · rw [(hslots j st hst).1]
    simp
  · simp [keyAt, hkeys, MoeCacheSlotBook.capacity]
  · exact nodup_reverse.mpr nodup_range

/-! ### Transactions -/

/-- The nodes a transaction carries are the ones its next move needs. -/
def Carries (record : Replacement) : Prop :=
  if record.committed then record.original = some (record.expected, record.slot)
  else record.incoming = some (record.replacement, record.slot)

variable {record : Replacement}

theorem carries_prepareReplace (h : b.prepareReplace slot expected replacement = .ok record) :
    Carries record := by
  obtain ⟨i, state, -, -, -, -, rfl⟩ := prepareReplace_ok h
  rfl

variable {record' : Replacement}

theorem Consistent.commitReplace (hb : Consistent b) (hcarries : Carries record)
    (h : b.commitReplace record = .ok (b', record', done)) :
    Consistent b' ∧ Carries record' := by
  obtain ⟨state, hstate, ⟨-, rfl, rfl⟩ | hdone⟩ := commitReplace_ok h
  · exact ⟨hb, hcarries⟩
  · obtain ⟨-, huncommitted, hkey, -, hfresh, byKey, state', hinsert, rfl, rfl, rfl⟩ := hdone
    unfold Carries at hcarries
    rw [huncommitted, if_neg Bool.false_ne_true] at hcarries
    rw [hcarries, insertNode, if_neg hfresh] at hinsert
    obtain ⟨rfl, -⟩ := Prod.mk.inj hinsert
    have hmapped := hb.mem_byKey hstate hkey
    have hne : record.replacement ≠ record.expected := by
      intro heq
      exact hfresh (heq ▸ Table.mem_of_lookup hmapped)
    refine ⟨Consistent.spliceLru ?_ ?_, ?_⟩
    · exact hb.rekey hstate hkey hfresh (insert_erase_lookup hne record.slot) rfl rfl
    · exact (setSlot_slots hstate _ record.slot).trans (if_pos rfl)
    · show (extract _ record.expected).2 = some (record.expected, record.slot)
      unfold extract
      rw [AList.lookup_insert_ne (Ne.symm hne), hmapped]
      rfl

/-- The rollback of `record` would undo its commit. -/
def undoes (b : MoeCacheSlotBook) (record : Replacement) : Bool :=
  match b.slots[record.slot]? with
  | none => false
  | some state => record.committed && decide (state.key = some record.replacement) &&
      decide (state.generation = bump record.generation)

theorem Consistent.rollbackReplace (hb : Consistent b) (hcarries : Carries record)
    (hsafe : b.undoes record = true → record.expected ∉ b.byKey)
    (h : b.rollbackReplace record = .ok (b', record')) : Consistent b' ∧ Carries record' := by
  obtain ⟨state, hstate, hundone | hidle⟩ := rollbackReplace_ok h
  · obtain ⟨hcommitted, hkey, hgeneration, rfl, rfl⟩ := hundone
    unfold Carries at hcarries
    rw [hcommitted, if_pos rfl] at hcarries
    have hfresh : record.expected ∉ b.byKey := by
      refine hsafe ?_
      unfold undoes
      simp [hstate, hcommitted, hkey, hgeneration]
    have hmapped := hb.mem_byKey hstate hkey
    have hne : record.expected ≠ record.replacement := by
      intro heq
      exact hfresh (heq ▸ Table.mem_of_lookup hmapped)
    have hnode : insertNode (b.byKey.erase record.replacement) record.original =
        ((b.byKey.erase record.replacement).insert record.expected record.slot, true) := by
      rw [hcarries, insertNode, if_neg]
      exact fun hmem => hfresh (AList.mem_erase.mp hmem).2
    rw [hnode]
    refine ⟨hb.rekey hstate hkey hfresh (fun k => ?_) rfl rfl, ?_⟩
    · rw [Table.lookup_insert_ite, Table.lookup_erase_ite]
    · show (extract b.byKey record.replacement).2 = some (record.replacement, record.slot)
      unfold extract
      rw [hmapped]
      rfl
  · obtain ⟨-, rfl, ⟨rfl, -⟩ | ⟨-, -, rfl⟩⟩ := hidle
    · exact ⟨hb, hcarries⟩
    · exact ⟨hb.setSlot hstate rfl rfl, hcarries⟩

end MoeCacheSlotBook

/-! ### Every run -/

open MoeCacheSlotBook

/-- A rollback undoes a commit only while the old key has not been given another slot. -/
def RollbackSafe (s : System) : Action → Prop
  | .rollback id => ∀ change ∈ s.changes.lookup id, s.book.undoes change.record = true →
      change.record.expected ∉ s.book.byKey
  | _ => True

instance (s : System) (a : Action) : Decidable (RollbackSafe s a) := by
  cases a <;> unfold RollbackSafe <;> infer_instance

/-- The book is consistent, and every transaction carries the nodes it needs. -/
structure BookInv (s : System) : Prop where
  book : Consistent s.book
  carries : ∀ id change, s.changes.lookup id = some change → Carries change.record

variable {s : System} {s' : System}

theorem BookInv.of_book (hs : BookInv s) (hbook : Consistent s'.book)
    (hchanges : s'.changes = s.changes) : BookInv s' :=
  ⟨hbook, hchanges ▸ hs.carries⟩

theorem BookInv.of_change (hs : BookInv s) {id : Nat} {change : Change}
    (hchanges : s'.changes = s.changes.insert id change) (hbook : Consistent s'.book)
    (hcarries : Carries change.record) : BookInv s' := by
  refine ⟨hbook, ?_⟩
  rw [hchanges]
  exact Table.forall_insert hs.carries hcarries

/-- A call without a result keeps the invariant when it keeps the book consistent. -/
theorem BookInv.outcome (hs : BookInv s) {call : Except String MoeCacheSlotBook}
    (hcall : ∀ book, call = .ok book → Consistent book) : BookInv (s.outcome call) := by
  cases call with
  | error e => exact hs
  | ok book => exact hs.of_book (hcall book rfl) rfl

theorem bookInv_step (s : System) (a : Action) (s' : System) (hs : BookInv s)
    (hok : RollbackSafe s a) (hstep : step s a = some s') : BookInv s' := by
  cases a with
  | resize capacity =>
    obtain rfl := Option.some.inj hstep
    unfold System.resized
    split
    · exact hs
    · rename_i book hbook
      exact hs.of_book (hs.book.resize hbook) rfl
  | setLowPrioritySources sources =>
    obtain rfl := Option.some.inj hstep
    exact hs.of_book (hs.book.setLowPrioritySources sources) rfl
  | acquire key =>
    obtain rfl := Option.some.inj hstep
    unfold System.acquired
    split
    · exact hs
    · rename_i book lease hbook
      have hconsistent := hs.book.acquire hbook
      split
      · exact hs.of_book hconsistent rfl
      · exact hs.of_book hconsistent rfl
  | touch slot =>
    obtain rfl := Option.some.inj hstep
    exact hs.outcome fun book hbook => hs.book.touch hbook
  | markInflight slot =>
    obtain rfl := Option.some.inj hstep
    exact hs.outcome fun book hbook => hs.book.markInflight hbook
  | clearInflight slot =>
    obtain rfl := Option.some.inj hstep
    exact hs.outcome fun book hbook => hs.book.clearInflight hbook
  | discard key slot generation =>
    obtain rfl := Option.some.inj hstep
    unfold System.discarded
    split
    · exact hs
    · rename_i book done hbook
      exact hs.of_book (hs.book.discard hbook) rfl
  | replace slot expected replacement =>
    obtain rfl := Option.some.inj hstep
    unfold System.replaced
    split
    · exact hs
    · rename_i book done hbook
      have hconsistent := hs.book.replace hbook
      split
      · exact hs.of_book hconsistent rfl
      · exact hs.of_book hconsistent rfl
  | prepare id slot expected replacement =>
    obtain rfl := Option.some.inj hstep
    unfold System.prepared
    split
    · exact hs
    · rename_i record hrecord
      exact hs.of_change rfl hs.book (carries_prepareReplace hrecord)
  | commit id =>
    obtain ⟨change, hchange, rfl⟩ := Option.map_eq_some_iff.mp hstep
    unfold System.committed
    split
    · exact hs
    · rename_i book record done hbook
      obtain ⟨hconsistent, hcarries⟩ := hs.book.commitReplace (hs.carries id change hchange) hbook
      split
      · exact hs.of_change rfl hconsistent hcarries
      · exact hs.of_change rfl hconsistent hcarries
  | rollback id =>
    obtain ⟨change, hchange, rfl⟩ := Option.map_eq_some_iff.mp hstep
    unfold System.rolledBack
    split
    · exact hs
    · rename_i book record hbook
      obtain ⟨hconsistent, hcarries⟩ :=
        hs.book.rollbackReplace (hs.carries id change hchange) (hok change hchange) hbook
      dsimp only
      split
      · exact hs.of_change rfl hconsistent hcarries
      · exact hs.of_change rfl hconsistent hcarries

theorem bookInv_run {book : MoeCacheSlotBook} {actions : List Action}
    (hnew : create capacity = .ok book) (hok : Meets step RollbackSafe (initial book) actions)
    (hrun : run step (initial book) actions = some s) : BookInv s := by
  refine run_invariant bookInv_step ⟨Consistent.create hnew, fun id change h => ?_⟩ hok hrun
  cases h

/-- **The slot book stays consistent.**  In every run in which no rollback undoes a commit after
    the old key has been given another slot: map and slots say the same, every slot is in
    exactly one of the two lists and there once, the recency list holds the occupied ones, and
    `acquire` evicts no key that is in flight. -/
theorem slot_book_consistent {capacity : Int} {book : MoeCacheSlotBook} {actions : List Action}
    {s : System} (hnew : create capacity = .ok book)
    (hok : Meets step RollbackSafe (initial book) actions)
    (hrun : run step (initial book) actions = some s) :
    (∀ i k, s.book.keyFor i = .ok (some k) → s.book.slotFor k = i) ∧
      (∀ k, s.book.slotFor k ≠ -1 → s.book.keyFor (s.book.slotFor k) = .ok (some k)) ∧
      (∀ i < s.book.capacity, s.book.free.count i + s.book.lru.count i = 1) ∧
      (∀ i, i ∈ s.book.free ++ s.book.lru → i < s.book.capacity) ∧
      (∀ i : Nat, i ∈ s.book.lru ↔ ∃ k, s.book.keyFor i = .ok (some k)) ∧
      ∀ key b' lease, s.book.acquire key = .ok (b', lease) → ∀ i k,
        s.book.keyFor i = .ok (some k) → s.book.inflight i = .ok true →
        b'.keyFor i = .ok (some k) := by
  have hs := (bookInv_run hnew hok hrun).book
  have hrecent : ∀ i : Nat, i ∈ s.book.lru ↔ ∃ k, s.book.keyFor i = .ok (some k) := by
    intro i
    rw [hs.linked.recent, Option.isSome_iff_exists]
    simp only [true_and]
    refine exists_congr fun k => ?_
    rw [keyFor_ok]
    constructor
    · intro hk
      obtain ⟨state, hstate, hkey⟩ := Option.bind_eq_some_iff.mp hk
      exact ⟨i, state, rfl, hstate, hkey⟩
    · rintro ⟨j, state, hj, hstate, hkey⟩
      obtain rfl := Int.ofNat.inj hj
      exact (keyAt_eq hstate).trans hkey
  refine ⟨?_, ?_, ?_, ?_, hrecent, ?_⟩
  · intro i k hk
    obtain ⟨j, state, rfl, hstate, hkey⟩ := keyFor_ok.mp hk
    unfold slotFor
    rw [hs.mem_byKey hstate hkey]
  · intro k hk
    unfold slotFor at hk ⊢
    cases hlookup : s.book.byKey.lookup k with
    | none =>
      rw [hlookup] at hk
      exact absurd rfl hk
    | some i =>
      have hkey := ((hs.linked.mapped k i).mp hlookup).2
      obtain ⟨state, hstate, hheld⟩ := Option.bind_eq_some_iff.mp hkey
      exact keyFor_ok.mpr ⟨i, state, rfl, hstate, hheld⟩
  · intro i hi
    by_cases hkey : s.book.keyAt i = none
    · have hfree : i ∈ s.book.free := (hs.stacked.free i).mpr ⟨trivial, hi, hkey⟩
      have hlru : i ∉ s.book.lru := by
        rw [hs.linked.recent, hkey]
        simp
      rw [count_eq_one_of_mem hs.stacked.freeNodup hfree, count_eq_zero.mpr hlru]
    · have hfree : i ∉ s.book.free := fun hmem => hkey ((hs.stacked.free i).mp hmem).2.2
      have hlru : i ∈ s.book.lru := (hs.linked.recent i).mpr
        ⟨trivial, Option.isSome_iff_ne_none.mpr hkey⟩
      rw [count_eq_one_of_mem hs.linked.lruNodup hlru, count_eq_zero.mpr hfree]
  · intro i hi
    rcases mem_append.mp hi with hfree | hlru
    · exact ((hs.stacked.free i).mp hfree).2.1
    · obtain ⟨-, hkey⟩ := (hs.linked.recent i).mp hlru
      by_contra hout
      rw [keyAt_none (by omega)] at hkey
      cases hkey
  · intro key b' lease hacquire i k hk hinflight
    obtain ⟨j, state, rfl, hstate, hkey⟩ := keyFor_ok.mp hk
    obtain ⟨j', state', hj, hstate', hmark⟩ := inflight_ok.mp hinflight
    obtain rfl := Int.ofNat.inj hj
    obtain rfl := Option.some.inj (hstate.symm.trans hstate')
    have hkept := hs.acquire_keeps_inflight hacquire hstate (by simp [hkey]) hmark
    obtain ⟨state'', hstate'', hheld⟩ := Option.bind_eq_some_iff.mp (hkept.trans hkey)
    exact keyFor_ok.mpr ⟨j, state'', rfl, hstate'', hheld⟩

/-- Three experts to replay with. -/
def expert (n : Int) : MoeCacheKey := { source := 0, cohort := 0, expert := n }

/-- A replacement is committed, the old key is acquired again, into the other slot, and the
    replacement is rolled back. -/
def reacquiredRollback : List Action :=
  [.acquire (expert 1), .prepare 0 0 (expert 1) (expert 2), .commit 0, .acquire (expert 1),
    .rollback 0]

/-- After that run both slots hold the same key, and the map names the other one. -/
theorem reacquiredRollback_doubles_key :
    ∃ book s, create 2 = .ok book ∧ run step (initial book) reacquiredRollback = some s ∧
      s.book.keyFor 0 = .ok (some (expert 1)) ∧ s.book.keyFor 1 = .ok (some (expert 1)) ∧
      s.book.slotFor (expert 1) = 1 := by
  have hrun : (run step (initial { slots := [{}, {}], free := [1, 0] }) reacquiredRollback).map
      (fun s => (s.book.slots.map Slot.key, s.book.slotFor (expert 1))) =
      some ([some (expert 1), some (expert 1)], 1) := by
    decide
  obtain ⟨s, hs, hfields⟩ := Option.map_eq_some_iff.mp hrun
  obtain ⟨hkeys, hslot⟩ := Prod.mk.inj hfields
  have hheld : ∀ i : Nat, i < 2 → s.book.keyFor i = .ok (some (expert 1)) := by
    intro i hi
    have hat : (s.book.slots.map Slot.key)[i]? = some (some (expert 1)) := by
      rw [hkeys]
      obtain rfl | rfl : i = 0 ∨ i = 1 := by omega
      · rfl
      · rfl
    rw [getElem?_map, Option.map_eq_some_iff] at hat
    obtain ⟨state, hstate, hkey⟩ := hat
    exact keyFor_ok.mpr ⟨i, state, rfl, hstate, hkey⟩
  exact ⟨_, s, rfl, hs, hheld 0 (by omega), hheld 1 (by omega), hslot⟩

/-- Consistency on a run that evicts, commits, rolls back and resizes. -/
theorem slot_book_consistent_replayed :
    ∃ book s, create 2 = .ok book ∧
      run step (initial book) [.acquire (expert 1), .acquire (expert 2), .markInflight 1,
        .prepare 0 0 (expert 1) (expert 3), .commit 0, .rollback 0, .acquire (expert 3),
        .clearInflight 1, .resize 1] = some s ∧
      s.book.slotFor (expert 3) = 0 ∧ s.book.free.count 0 + s.book.lru.count 0 = 1 := by
  have hrun : (run step (initial { slots := [{}, {}], free := [1, 0] })
      [.acquire (expert 1), .acquire (expert 2), .markInflight 1,
        .prepare 0 0 (expert 1) (expert 3), .commit 0, .rollback 0, .acquire (expert 3),
        .clearInflight 1, .resize 1]).map
      (fun s => (s.book.slotFor (expert 3), s.book.capacity)) = some (0, 1) := by
    decide
  obtain ⟨s, hs, hfields⟩ := Option.map_eq_some_iff.mp hrun
  obtain ⟨hslot, hcapacity⟩ := Prod.mk.inj hfields
  have hnew : create 2 = .ok { slots := [{}, {}], free := [1, 0] } := rfl
  have hall := slot_book_consistent hnew (by decide) hs
  exact ⟨_, s, rfl, hs, hslot, hall.2.2.1 0 (by omega)⟩

end TyloQuant.MoeCache
