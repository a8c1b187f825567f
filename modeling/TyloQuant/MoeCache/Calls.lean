import TyloQuant.MoeCache.Consistency

/-!
# What a call has done when it returns

One lemma for each operation.  It lists every way in which the call can have returned, with the
guards it has passed, so that no later proof opens an operation.
-/

namespace TyloQuant.MoeCache

open Lib

namespace MoeCacheSlotBook

variable {b b' : MoeCacheSlotBook} {key : MoeCacheKey} {slot : Int} {capacity : Int}

theorem create_ok (h : create capacity = .ok b) :
    b = { slots := List.replicate capacity.toNat {}
          free := (List.range capacity.toNat).reverse } := by
  unfold create at h
  exact (Except.ok.inj (guard_eq_ok.mp h).2).symm

theorem resize_ok (h : b.resize capacity = .ok b') :
    0 < capacity ∧ (∀ state ∈ b.slots, state.inflight = false) ∧
      ∃ b₁, b₁ = (if capacity.toNat < b.capacity then b.shrink capacity.toNat else b) ∧
        b' = { b₁ with
          slots := b₁.slots.take capacity.toNat ++ List.replicate (capacity.toNat - b.capacity) {}
          free := b₁.free ++
            (List.range' b.capacity (capacity.toNat - b.capacity)).reverse } := by
  unfold resize at h
  obtain ⟨_, hprepare, hrest⟩ := bind_eq_ok.mp h
  unfold prepareResize at hprepare
  obtain ⟨hpos, hguard⟩ := guard_eq_ok.mp hprepare
  obtain ⟨hidle, -⟩ := guard_eq_ok.mp hguard
  refine ⟨by omega, ?_, _, rfl, (pure_eq_ok.mp hrest).symm⟩
  intro state hstate
  simp only [List.any_eq_true, not_exists, not_and, Bool.not_eq_true] at hidle
  exact hidle state hstate

theorem touch_ok (h : b.touch slot = .ok b') :
    ∃ (i : Nat) (state : Slot), slot = (i : Int) ∧ b.slots[i]? = some state ∧ state.key.isSome = true ∧
      b' = if state.listed then b.spliceLru i state else b.appendLru i state := by
  unfold touch at h
  obtain ⟨i, state, hi, hstate, hrest⟩ := bind_checked_ok.mp h
  obtain ⟨hkey, hresult⟩ := guard_eq_ok.mp hrest
  refine ⟨i, state, hi, hstate, ?_, ?_⟩
  · exact Option.isSome_iff_ne_none.mpr (by simpa using hkey)
  · split at hresult
    · rename_i hlisted
      rw [if_pos hlisted]
      exact (pure_eq_ok.mp hresult).symm
    · rename_i hlisted
      rw [if_neg hlisted]
      exact (pure_eq_ok.mp hresult).symm

variable {i : Nat}

theorem victim_some (h : b.victim = some i) : i ∈ b.lru ∧ b.evictable i = true := by
  unfold victim at h
  split at h
  · rename_i j hj
    obtain rfl := Option.some.inj h
    have htakes := List.find?_some hj
    exact ⟨List.mem_of_find?_eq_some hj, (Bool.and_eq_true _ _ ▸ htakes).1⟩
  · exact ⟨List.mem_of_find?_eq_some h, List.find?_some h⟩

variable {replaced : Option MoeCacheKey}

/-- A slot made available comes from the free stack, or is the victim, taken out of the lists. -/
theorem vacate_ok (h : b.vacate = .ok (b', i, replaced)) :
    (b.free.getLast? = some i ∧ b' = { b with free := b.free.dropLast } ∧ replaced = none) ∨
      (b.free.getLast? = none ∧ b.victim = some i ∧
        ∃ state, b.slots[i]? = some state ∧ b' = b.dropSlot i ∧ replaced = state.key) := by
  unfold vacate at h
  split at h
  · rename_i j hj
    obtain ⟨rfl, hrest⟩ := Prod.mk.inj (Except.ok.inj h)
    obtain ⟨rfl, rfl⟩ := Prod.mk.inj hrest
    exact Or.inl ⟨hj, rfl, rfl⟩
  · rename_i hnone
    split at h
    · cases h
    · rename_i j hj
      obtain ⟨k, state, hk, hstate, hresult⟩ := bind_checked_ok.mp h
      obtain rfl := Int.ofNat.inj hk
      obtain ⟨rfl, hrest⟩ := Prod.mk.inj (pure_eq_ok.mp hresult)
      obtain ⟨rfl, rfl⟩ := Prod.mk.inj hrest
      exact Or.inr ⟨hnone, hj, state, hstate, (dropSlot_eq hstate).symm, rfl⟩

theorem nextSlot_of_vacate (h : b.vacate = .ok (b', i, replaced)) : b.nextSlot = some i := by
  unfold nextSlot
  rcases vacate_ok h with ⟨hfree, -⟩ | ⟨hfree, hvictim, -⟩
  · rw [hfree]
  · rw [hfree]
    exact hvictim

/-- A key that is cached is touched; any other is put into the slot that was made available. -/
theorem acquire_ok {lease : MoeCacheSlotLease} (h : b.acquire key = .ok (b', lease)) :
    (∃ i, b.byKey.lookup key = some i ∧ b.touch i = .ok b' ∧ lease.hit = true) ∨
      (b.byKey.lookup key = none ∧ ∃ b₁ state, b.vacate = .ok (b₁, lease.slot, lease.replaced) ∧
        b₁.slots[lease.slot]? = some state ∧
        b' = ({ b₁ with byKey := emplace b₁.byKey key lease.slot } :
          MoeCacheSlotBook).appendLru lease.slot { state with
            generation := bump state.generation, key := some key, inflight := false } ∧
        lease.generation = bump state.generation ∧ lease.hit = false) := by
  unfold acquire at h
  split at h
  · rename_i found hfound
    obtain ⟨_, _, hrest⟩ := bind_eq_ok.mp h
    obtain ⟨b₁, htouch, hresult⟩ := bind_eq_ok.mp hrest
    obtain ⟨rfl, rfl⟩ := Prod.mk.inj (pure_eq_ok.mp hresult)
    exact Or.inl ⟨found, hfound, htouch, rfl⟩
  · rename_i hnone
    obtain ⟨⟨b₁, i, replaced⟩, hvacate, hrest⟩ := bind_eq_ok.mp h
    obtain ⟨k, state, hk, hstate, hresult⟩ := bind_checked_ok.mp hrest
    obtain rfl := Int.ofNat.inj hk
    obtain ⟨rfl, rfl⟩ := Prod.mk.inj (pure_eq_ok.mp hresult)
    exact Or.inr ⟨hnone, b₁, state, hvacate, hstate, rfl, rfl, rfl⟩

theorem markInflight_ok (h : b.markInflight slot = .ok b') :
    ∃ (i : Nat) (state : Slot), slot = (i : Int) ∧ b.slots[i]? = some state ∧
      b' = b.setSlot i { state with inflight := true } := by
  unfold markInflight at h
  obtain ⟨i, state, hi, hstate, hrest⟩ := bind_checked_ok.mp h
  exact ⟨i, state, hi, hstate, (pure_eq_ok.mp (guard_eq_ok.mp hrest).2).symm⟩

theorem clearInflight_ok (h : b.clearInflight slot = .ok b') :
    ∃ (i : Nat) (state : Slot), slot = (i : Int) ∧ b.slots[i]? = some state ∧
      b' = b.setSlot i { state with inflight := false } := by
  unfold clearInflight at h
  obtain ⟨i, state, hi, hstate, hrest⟩ := bind_checked_ok.mp h
  exact ⟨i, state, hi, hstate, (pure_eq_ok.mp hrest).symm⟩

theorem keyFor_ok {held : Option MoeCacheKey} :
    b.keyFor slot = .ok held ↔
      ∃ (i : Nat) (state : Slot), slot = (i : Int) ∧ b.slots[i]? = some state ∧
        state.key = held := by
  unfold keyFor
  simp only [bind_checked_ok, pure_eq_ok]

theorem inflight_ok {mark : Bool} :
    b.inflight slot = .ok mark ↔
      ∃ (i : Nat) (state : Slot), slot = (i : Int) ∧ b.slots[i]? = some state ∧
        state.inflight = mark := by
  unfold inflight
  simp only [bind_checked_ok, pure_eq_ok]

variable {done : Bool}

theorem discard_ok {generation : Nat} (h : b.discard key slot generation = .ok (b', done)) :
    ∃ (i : Nat) (state : Slot), slot = (i : Int) ∧ b.slots[i]? = some state ∧
      ((done = false ∧ b' = b ∧ ¬(state.key = some key ∧ state.generation = generation)) ∨
        (done = true ∧ state.key = some key ∧ state.generation = generation ∧
          b' = { (b.dropSlot i).setSlot i { state with
              key := none, inflight := false, listed := false } with free := b.free ++ [i] })) := by
  unfold discard at h
  obtain ⟨i, state, hi, hstate, hrest⟩ := bind_checked_ok.mp h
  refine ⟨i, state, hi, hstate, ?_⟩
  dsimp only at hrest
  split at hrest
  · rename_i hstale
    obtain ⟨rfl, rfl⟩ := Prod.mk.inj (pure_eq_ok.mp hrest)
    refine Or.inl ⟨rfl, rfl, ?_⟩
    rintro ⟨hkey, hgeneration⟩
    rcases hstale with hne | hne
    · exact hne hkey
    · exact hne hgeneration
  · rename_i hlive
    simp only [ne_eq, not_or, not_not] at hlive
    obtain ⟨rfl, rfl⟩ := Prod.mk.inj (pure_eq_ok.mp hrest)
    refine Or.inr ⟨rfl, hlive.1, hlive.2, ?_⟩
    rw [dropSlot_eq hstate, hlive.1]
    unfold eraseLru eraseKey setSlot
    cases hlisted : state.listed <;> simp

variable {expected replacement : MoeCacheKey}

theorem replace_ok (h : b.replace slot expected replacement = .ok (b', done)) :
    ∃ (i : Nat) (state : Slot), slot = (i : Int) ∧ b.slots[i]? = some state ∧
      ((done = false ∧ b' = b) ∨ (done = true ∧ state.key = some expected ∧ replacement ∉ b.byKey ∧
          ∃ state', state' = { state with
              key := some replacement, generation := bump state.generation,
              inflight := false } ∧
            b' = ({ b with byKey := (emplace b.byKey replacement i).erase expected }.setSlot i
              state').spliceLru i state')) := by
  unfold replace at h
  obtain ⟨i, state, hi, hstate, hrest⟩ := bind_checked_ok.mp h
  refine ⟨i, state, hi, hstate, ?_⟩
  dsimp only at hrest
  split at hrest
  · obtain ⟨rfl, rfl⟩ := Prod.mk.inj (pure_eq_ok.mp hrest)
    exact Or.inl ⟨rfl, rfl⟩
  · rename_i hlive
    simp only [ne_eq, not_or, not_not] at hlive
    obtain ⟨rfl, rfl⟩ := Prod.mk.inj (pure_eq_ok.mp hrest)
    exact Or.inr ⟨rfl, hlive.1, hlive.2, _, rfl, rfl⟩

variable {record : Replacement}

theorem prepareReplace_ok (h : b.prepareReplace slot expected replacement = .ok record) :
    ∃ (i : Nat) (state : Slot), slot = (i : Int) ∧ b.slots[i]? = some state ∧
      state.key = some expected ∧
      replacement ∉ b.byKey ∧ record = {
        slot := i, expected, replacement, generation := state.generation
        incoming := some (replacement, i) } := by
  unfold prepareReplace at h
  obtain ⟨i, state, hi, hstate, hrest⟩ := bind_checked_ok.mp h
  obtain ⟨hlive, hresult⟩ := guard_eq_ok.mp hrest
  simp only [ne_eq, not_or, not_not] at hlive
  exact ⟨i, state, hi, hstate, hlive.1, hlive.2, (pure_eq_ok.mp hresult).symm⟩

theorem replacementValid_ok {valid : Bool} (h : b.replacementValid record = .ok valid) :
    ∃ state, b.slots[record.slot]? = some state ∧
      (valid = true ↔ record.committed = false ∧ state.key = some record.expected ∧
        state.generation = record.generation ∧ record.replacement ∉ b.byKey) := by
  unfold replacementValid at h
  obtain ⟨i, state, hi, hstate, hrest⟩ := bind_checked_ok.mp h
  obtain rfl := Int.ofNat.inj hi
  refine ⟨state, hstate, ?_⟩
  rw [← pure_eq_ok.mp hrest]
  simp [and_assoc]

variable {record' : Replacement}

/-- A commit that does something moves the node of the new key into the map and takes the old
    key's node out of it. -/
theorem commitReplace_ok (h : b.commitReplace record = .ok (b', record', done)) :
    ∃ state, b.slots[record.slot]? = some state ∧ ((done = false ∧ b' = b ∧ record' = record) ∨
        (done = true ∧ record.committed = false ∧ state.key = some record.expected ∧
          state.generation = record.generation ∧ record.replacement ∉ b.byKey ∧
          ∃ byKey state', insertNode b.byKey record.incoming = (byKey, true) ∧
            state' = { state with
              key := some record.replacement, generation := bump state.generation,
              inflight := false } ∧
            b' = ({ b with byKey := byKey.erase record.expected }.setSlot record.slot
              state').spliceLru record.slot state' ∧
            record' = { record with
              incoming := none, original := (extract byKey record.expected).2,
              committed := true })) := by
  unfold commitReplace at h
  obtain ⟨valid, hvalid, hrest⟩ := bind_eq_ok.mp h
  obtain ⟨state, hstate, hiff⟩ := replacementValid_ok hvalid
  refine ⟨state, hstate, ?_⟩
  cases valid with
  | false =>
    obtain ⟨rfl, hresult⟩ := Prod.mk.inj (pure_eq_ok.mp hrest)
    obtain ⟨rfl, rfl⟩ := Prod.mk.inj hresult
    exact Or.inl ⟨rfl, rfl, rfl⟩
  | true =>
    obtain ⟨huncommitted, hkey, hgeneration, hfresh⟩ := hiff.mp rfl
    simp only [Bool.not_true, Bool.false_eq_true, if_false] at hrest
    rcases hinsert : insertNode b.byKey record.incoming with ⟨byKey, inserted⟩
    rw [hinsert] at hrest
    cases inserted with
    | false =>
      obtain ⟨rfl, hresult⟩ := Prod.mk.inj (pure_eq_ok.mp hrest)
      obtain ⟨rfl, rfl⟩ := Prod.mk.inj hresult
      exact Or.inl ⟨rfl, rfl, rfl⟩
    | true =>
      simp only [Bool.not_true, Bool.false_eq_true, if_false] at hrest
      obtain ⟨i, state₁, hi, hstate₁, hdone⟩ := bind_checked_ok.mp hrest
      obtain rfl := Int.ofNat.inj hi
      obtain rfl := Option.some.inj (hstate.symm.trans hstate₁)
      obtain ⟨rfl, hresult⟩ := Prod.mk.inj (pure_eq_ok.mp hdone)
      obtain ⟨rfl, rfl⟩ := Prod.mk.inj hresult
      exact Or.inr ⟨rfl, huncommitted, hkey, hgeneration, hfresh, byKey, _, rfl, rfl, rfl, rfl⟩

/-- A rollback undoes a commit, clears the in-flight mark of a change that was not committed,
    or finds the slot taken over and does nothing. -/
theorem rollbackReplace_ok (h : b.rollbackReplace record = .ok (b', record')) :
    ∃ state, b.slots[record.slot]? = some state ∧
      ((record.committed = true ∧ state.key = some record.replacement ∧
          state.generation = bump record.generation ∧
          b' = { b with byKey :=
              (insertNode (b.byKey.erase record.replacement) record.original).1 }.setSlot
            record.slot { state with
              key := some record.expected, generation := record.generation, inflight := false } ∧
          record' = { record with
            incoming := (extract b.byKey record.replacement).2, original := none,
            committed := false }) ∨
        (record.committed = false ∧ record' = record ∧ ((b' = b ∧
              ¬(state.key = some record.expected ∧ state.generation = record.generation)) ∨
            (state.key = some record.expected ∧ state.generation = record.generation ∧
              b' = b.setSlot record.slot { state with inflight := false })))) := by
  unfold rollbackReplace at h
  obtain ⟨i, state, hi, hstate, hrest⟩ := bind_checked_ok.mp h
  obtain rfl := Int.ofNat.inj hi
  refine ⟨state, hstate, ?_⟩
  dsimp only at hrest
  cases hcommitted : record.committed with
  | true =>
    rw [hcommitted, if_pos rfl] at hrest
    obtain ⟨hlive, hresult⟩ := guard_eq_ok.mp hrest
    simp only [ne_eq, not_or, not_not] at hlive
    obtain ⟨rfl, rfl⟩ := Prod.mk.inj (pure_eq_ok.mp hresult)
    exact Or.inl ⟨rfl, hlive.1, hlive.2, rfl, rfl⟩
  | false =>
    rw [hcommitted, if_neg Bool.false_ne_true] at hrest
    split at hrest
    · rename_i hgone
      obtain ⟨rfl, rfl⟩ := Prod.mk.inj (pure_eq_ok.mp hrest)
      refine Or.inr ⟨rfl, rfl, Or.inl ⟨rfl, ?_⟩⟩
      rintro ⟨hkey, hgeneration⟩
      rcases hgone with hne | hne
      · exact hne hkey
      · exact hne hgeneration
    · rename_i hlive
      simp only [ne_eq, not_or, not_not] at hlive
      obtain ⟨rfl, rfl⟩ := Prod.mk.inj (pure_eq_ok.mp hrest)
      exact Or.inr ⟨rfl, rfl, Or.inr ⟨hlive.1, hlive.2, rfl⟩⟩

end MoeCacheSlotBook

end TyloQuant.MoeCache
