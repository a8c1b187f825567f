import TyloQuant.Lib.Outcome
import TyloQuant.MoeCache.System

/-!
# The lists and the map agree

`by_key_` and the keys in the slots say the same; the recency list holds the occupied slots, the
free stack the others, each once.  Evicting, dropping and discarding take a slot out of the map and
the recency list before it is put elsewhere, so the invariant is stated for a set of slots that are
accounted for (`Linked`).

It fails in one place: `rollback_replace` puts the old key back into its slot without asking whether
that key has been given another slot since the commit.
-/

namespace TyloQuant.MoeCache

open Lib List

namespace MoeCacheSlotBook

variable {b : MoeCacheSlotBook}

/-! ### Reading a slot -/

theorem checked_ok {slot : Int} {i : Nat} {state : Slot} :
    b.checked slot = .ok (i, state) ↔ slot = i ∧ b.slots[i]? = some state := by
  unfold checked
  split
  · rename_i hneg
    constructor
    · intro h
      cases h
    · rintro ⟨rfl, -⟩
      omega
  · rename_i hpos
    constructor
    · intro h
      split at h
      · cases h
      · rename_i state' hstate
        obtain ⟨hi, rfl⟩ := Prod.mk.inj (Except.ok.inj h)
        subst hi
        exact ⟨by omega, hstate⟩
    · rintro ⟨rfl, hstate⟩
      simp only [Int.toNat_natCast]
      rw [hstate]

theorem bind_checked_ok {β : Type} {slot : Int} {f : Nat × Slot → Except String β} {r : β} :
    (b.checked slot >>= f) = .ok r ↔ ∃ (i : Nat) (state : Slot),
      slot = (i : Int) ∧ b.slots[i]? = some state ∧ f (i, state) = .ok r := by
  rw [bind_eq_ok]
  constructor
  · rintro ⟨⟨i, state⟩, hchecked, hrest⟩
    obtain ⟨hi, hstate⟩ := checked_ok.mp hchecked
    exact ⟨i, state, hi, hstate, hrest⟩
  · rintro ⟨i, state, hi, hstate, hrest⟩
    exact ⟨(i, state), checked_ok.mpr ⟨hi, hstate⟩, hrest⟩

/-- The key in a slot, `none` for a free slot and outside the arena. -/
def keyAt (b : MoeCacheSlotBook) (i : Nat) : Option MoeCacheKey := b.slots[i]?.bind Slot.key

theorem keyAt_eq {i : Nat} {state : Slot} (h : b.slots[i]? = some state) :
    b.keyAt i = state.key := by
  simp [keyAt, h]

theorem lt_capacity {i : Nat} {state : Slot} (h : b.slots[i]? = some state) : i < b.capacity :=
  (List.getElem?_eq_some_iff.mp h).1

theorem keyAt_none {i : Nat} (h : b.capacity ≤ i) : b.keyAt i = none := by
  simp [keyAt, List.getElem?_eq_none_iff.mpr h]

/-! ### Writing a slot -/

@[simp] theorem setSlot_lru (i : Nat) (state : Slot) : (b.setSlot i state).lru = b.lru := rfl

@[simp] theorem setSlot_byKey (i : Nat) (state : Slot) : (b.setSlot i state).byKey = b.byKey := rfl

@[simp] theorem setSlot_capacity (i : Nat) (state : Slot) :
    (b.setSlot i state).capacity = b.capacity := by
  simp [setSlot, capacity]

theorem setSlot_slots {i : Nat} {old : Slot} (h : b.slots[i]? = some old) (state : Slot)
    (j : Nat) : (b.setSlot i state).slots[j]? = if j = i then some state else b.slots[j]? := by
  have hlt : i < b.slots.length := lt_capacity h
  by_cases hj : j = i
  · subst hj
    simp [setSlot, hlt]
  · simp [setSlot, hj, getElem?_set_ne (Ne.symm hj)]

theorem setSlot_keyAt {i : Nat} {old : Slot} (h : b.slots[i]? = some old) (state : Slot)
    (j : Nat) : (b.setSlot i state).keyAt j = if j = i then state.key else b.keyAt j := by
  by_cases hj : j = i
  · simp [keyAt, setSlot_slots h, hj]
  · simp [keyAt, setSlot_slots h, hj]

/-! ### The invariant, on a set of slots -/

/-- Map, keys and recency list agree on the slots in `L`; the others are in neither. -/
structure Linked (L : Nat → Prop) (b : MoeCacheSlotBook) : Prop where
  mapped : ∀ k i, b.byKey.lookup k = some i ↔ L i ∧ b.keyAt i = some k
  recent : ∀ i, i ∈ b.lru ↔ L i ∧ (b.keyAt i).isSome = true
  listed : ∀ i state, b.slots[i]? = some state → (state.listed = true ↔ i ∈ b.lru)
  lruNodup : b.lru.Nodup

/-- The free stack holds the slots of `F` that hold no key, each once. -/
structure Stacked (F : Nat → Prop) (b : MoeCacheSlotBook) : Prop where
  free : ∀ i, i ∈ b.free ↔ F i ∧ i < b.capacity ∧ b.keyAt i = none
  freeNodup : b.free.Nodup

/-- The invariant of the book. -/
structure Consistent (b : MoeCacheSlotBook) : Prop where
  linked : Linked (fun _ => True) b
  stacked : Stacked (fun _ => True) b

variable {L F : Nat → Prop} {i : Nat} {old state : Slot} {key : MoeCacheKey} {b' : MoeCacheSlotBook}

theorem Linked.congr (hb : Linked L b) (hslots : b'.slots = b.slots) (hlru : b'.lru = b.lru)
    (hmap : b'.byKey = b.byKey) : Linked L b' := by
  refine ⟨?_, ?_, ?_, ?_⟩
  · simpa only [keyAt, hslots, hmap] using hb.mapped
  · simpa only [keyAt, hslots, hlru] using hb.recent
  · simpa only [hslots, hlru] using hb.listed
  · simpa only [hlru] using hb.lruNodup

theorem Stacked.congr (hb : Stacked F b) (hfree : b'.free = b.free)
    (hcapacity : b'.capacity = b.capacity) (hkeys : ∀ i, b'.keyAt i = b.keyAt i) :
    Stacked F b' := by
  refine ⟨fun i => ?_, ?_⟩
  · rw [hfree, hcapacity, hkeys]
    exact hb.free i
  · rw [hfree]
    exact hb.freeNodup

theorem Linked.setSlot (hb : Linked L b) (hold : b.slots[i]? = some old)
    (hkey : state.key = old.key) (hlisted : state.listed = old.listed) :
    Linked L (b.setSlot i state) := by
  have hkeys : ∀ j, (b.setSlot i state).keyAt j = b.keyAt j := by
    intro j
    rw [setSlot_keyAt hold]
    split
    · rename_i hj
      rw [hj, keyAt_eq hold, hkey]
    · rfl
  refine ⟨?_, ?_, ?_, hb.lruNodup⟩
  · intro k j
    rw [hkeys]
    exact hb.mapped k j
  · intro j
    rw [hkeys]
    exact hb.recent j
  · intro j st hst
    rw [setSlot_slots hold] at hst
    split at hst
    · rename_i hj
      obtain rfl := Option.some.inj hst
      rw [hj, hlisted]
      exact hb.listed i old hold
    · exact hb.listed j st hst

theorem Stacked.setSlot (hb : Stacked F b) (hold : b.slots[i]? = some old)
    (hkey : state.key = old.key) : Stacked F (b.setSlot i state) := by
  refine hb.congr rfl (setSlot_capacity i state) fun j => ?_
  rw [setSlot_keyAt hold]
  split
  · rename_i hj
    rw [hj, keyAt_eq hold, hkey]
  · rfl

/-! ### Recency -/

theorem Linked.reorder (hb : Linked L b) {lru : List Nat} (hperm : lru.Perm b.lru) :
    Linked L { b with lru } := by
  refine ⟨hb.mapped, ?_, ?_, hperm.nodup_iff.mpr hb.lruNodup⟩
  · intro j
    exact hperm.mem_iff.trans (hb.recent j)
  · intro j st hst
    exact (hb.listed j st hst).trans hperm.mem_iff.symm

theorem Linked.spliceLru (hb : Linked L b) (hstate : b.slots[i]? = some state) :
    Linked L (b.spliceLru i state) := by
  unfold MoeCacheSlotBook.spliceLru
  split
  · rename_i hlisted
    have hmem : i ∈ b.lru := (hb.listed i state hstate).mp hlisted
    refine hb.reorder ?_
    exact (perm_append_singleton i (b.lru.erase i)).trans (perm_cons_erase hmem).symm
  · exact hb

theorem Stacked.spliceLru (hb : Stacked F b) (i : Nat) (state : Slot) :
    Stacked F (b.spliceLru i state) := by
  unfold MoeCacheSlotBook.spliceLru
  split
  · exact hb.congr rfl rfl fun _ => rfl
  · exact hb

/-! ### Taking a slot out -/

@[simp] theorem eraseLru_byKey : (b.eraseLru i state).byKey = b.byKey := by
  unfold eraseLru
  split <;> rfl

@[simp] theorem eraseLru_free : (b.eraseLru i state).free = b.free := by
  unfold eraseLru
  split <;> rfl

@[simp] theorem eraseLru_capacity : (b.eraseLru i state).capacity = b.capacity := by
  unfold eraseLru
  split
  · exact setSlot_capacity i _
  · rfl

theorem eraseLru_keyAt (h : b.slots[i]? = some state) (j : Nat) :
    (b.eraseLru i state).keyAt j = b.keyAt j := by
  unfold eraseLru
  split
  · show (b.setSlot i { state with listed := false }).keyAt j = b.keyAt j
    rw [setSlot_keyAt h]
    split
    · rename_i hj
      rw [hj, keyAt_eq h]
    · rfl
  · rfl

theorem eraseLru_slots (h : b.slots[i]? = some state) (j : Nat) :
    (b.eraseLru i state).slots[j]? =
      if j = i then some { state with listed := false } else b.slots[j]? := by
  unfold eraseLru
  split
  · exact setSlot_slots h _ j
  · rename_i hlisted
    split
    · rename_i hj
      have hsame : state = { state with listed := false } := by
        cases state
        simpa using hlisted
      rw [hj, h, ← hsame]
    · rfl

theorem eraseLru_lru (hlisted : state.listed = true ↔ i ∈ b.lru) :
    (b.eraseLru i state).lru = b.lru.erase i := by
  unfold eraseLru
  split
  · rfl
  · rename_i hnot
    exact (erase_of_not_mem fun hmem => hnot (hlisted.mpr hmem)).symm

@[simp] theorem eraseKey_slots (b : MoeCacheSlotBook) (k : Option MoeCacheKey) :
    (b.eraseKey k).slots = b.slots := by
  cases k <;> rfl

@[simp] theorem eraseKey_lru (b : MoeCacheSlotBook) (k : Option MoeCacheKey) :
    (b.eraseKey k).lru = b.lru := by
  cases k <;> rfl

@[simp] theorem eraseKey_free (b : MoeCacheSlotBook) (k : Option MoeCacheKey) :
    (b.eraseKey k).free = b.free := by
  cases k <;> rfl

@[simp] theorem eraseKey_capacity (b : MoeCacheSlotBook) (k : Option MoeCacheKey) :
    (b.eraseKey k).capacity = b.capacity := by
  cases k <;> rfl

@[simp] theorem eraseKey_keyAt (b : MoeCacheSlotBook) (k : Option MoeCacheKey) (j : Nat) :
    (b.eraseKey k).keyAt j = b.keyAt j := by
  cases k <;> rfl

theorem eraseKey_lookup (b : MoeCacheSlotBook) (k : Option MoeCacheKey) (key : MoeCacheKey) :
    (b.eraseKey k).byKey.lookup key = if k = some key then none else b.byKey.lookup key := by
  cases k with
  | none => rfl
  | some k =>
    show (b.byKey.erase k).lookup key = _
    rw [Table.lookup_erase_ite]
    by_cases hk : key = k
    · simp [hk]
    · simp [hk, Ne.symm hk]

theorem dropSlot_eq (h : b.slots[i]? = some state) :
    b.dropSlot i = (b.eraseKey state.key).eraseLru i state := by
  simp [dropSlot, h]

@[simp] theorem dropSlot_free (b : MoeCacheSlotBook) (i : Nat) : (b.dropSlot i).free = b.free := by
  cases h : b.slots[i]? with
  | none => simp [dropSlot, h]
  | some state => rw [dropSlot_eq h, eraseLru_free, eraseKey_free]

@[simp] theorem dropSlot_capacity (b : MoeCacheSlotBook) (i : Nat) :
    (b.dropSlot i).capacity = b.capacity := by
  cases h : b.slots[i]? with
  | none => simp [dropSlot, h]
  | some state => rw [dropSlot_eq h, eraseLru_capacity, eraseKey_capacity]

theorem dropSlot_keyAt (b : MoeCacheSlotBook) (i j : Nat) : (b.dropSlot i).keyAt j = b.keyAt j := by
  cases h : b.slots[i]? with
  | none => simp [dropSlot, h]
  | some state =>
    rw [dropSlot_eq h, eraseLru_keyAt (by simpa using h), eraseKey_keyAt]

theorem Linked.dropSlot (hb : Linked L b) (h : b.slots[i]? = some state) (hL : L i) :
    Linked (fun j => L j ∧ j ≠ i) (b.dropSlot i) := by
  have hkeys := dropSlot_keyAt b i
  have hlru : (b.dropSlot i).lru = b.lru.erase i := by
    rw [dropSlot_eq h, eraseLru_lru (by simpa using hb.listed i state h), eraseKey_lru]
  refine ⟨?_, ?_, ?_, hlru ▸ hb.lruNodup.erase i⟩
  · intro k j
    rw [hkeys, dropSlot_eq h, eraseLru_byKey, eraseKey_lookup, ← keyAt_eq h]
    split
    · rename_i hk
      constructor
      · intro hnone
        cases hnone
      · rintro ⟨⟨hj, hne⟩, hjk⟩
        have hj' := (hb.mapped k j).mpr ⟨hj, hjk⟩
        have hi' := (hb.mapped k i).mpr ⟨hL, hk⟩
        exact absurd (Option.some.inj (hj'.symm.trans hi')) hne
    · rename_i hk
      rw [hb.mapped]
      refine ⟨fun ⟨hj, hjk⟩ => ⟨⟨hj, ?_⟩, hjk⟩, fun ⟨⟨hj, _⟩, hjk⟩ => ⟨hj, hjk⟩⟩
      rintro rfl
      exact hk hjk
  · intro j
    rw [hkeys, hlru, hb.lruNodup.mem_erase_iff, hb.recent]
    tauto
  · intro j st hst
    rw [dropSlot_eq h, eraseLru_slots (by simpa using h)] at hst
    rw [hlru, hb.lruNodup.mem_erase_iff]
    split at hst
    · rename_i hj
      obtain rfl := Option.some.inj hst
      simp [hj]
    · rename_i hj
      rw [hb.listed j st (by simpa using hst)]
      exact ⟨fun hmem => ⟨hj, hmem⟩, fun hmem => hmem.2⟩

/-! ### Putting a slot back -/

/-- A slot that is in neither list, given a key that is not cached. -/
theorem Linked.occupy (hb : Linked (fun j => L j ∧ j ≠ i) b) (hi : L i)
    (hold : b.slots[i]? = some old) (hkey : key ∉ b.byKey) (hstate : state.key = some key) :
    Linked L (({ b with byKey := emplace b.byKey key i } : MoeCacheSlotBook).appendLru i state) := by
  have hout : i ∉ b.lru := fun hmem => ((hb.recent i).mp hmem).1.2 rfl
  have hkeys : ∀ j, (({ b with byKey := emplace b.byKey key i } : MoeCacheSlotBook).appendLru i
      state).keyAt j = if j = i then some key else b.keyAt j := by
    intro j
    refine (setSlot_keyAt hold { state with listed := true } j).trans ?_
    rw [← hstate]
  refine ⟨?_, ?_, ?_, ?_⟩
  · intro k j
    rw [hkeys]
    show (emplace b.byKey key i).lookup k = some j ↔ _
    rw [emplace, if_neg hkey, Table.lookup_insert_ite]
    have hfresh := AList.lookup_eq_none.mpr hkey
    by_cases hk : k = key
    · subst hk
      rw [if_pos rfl]
      constructor
      · intro hj
        obtain rfl := Option.some.inj hj
        exact ⟨hi, if_pos rfl⟩
      · rintro ⟨hj, hsome⟩
        split at hsome
        · rename_i hji
          rw [hji]
        · rename_i hji
          have hmapped := (hb.mapped k j).mpr ⟨⟨hj, hji⟩, hsome⟩
          rw [hfresh] at hmapped
          cases hmapped
    · rw [if_neg hk, hb.mapped]
      by_cases hji : j = i
      · rw [if_pos hji]
        constructor
        · rintro ⟨⟨-, hne⟩, -⟩
          exact absurd hji hne
        · rintro ⟨-, hsome⟩
          exact absurd (Option.some.inj hsome).symm hk
      · rw [if_neg hji]
        tauto
  · intro j
    rw [hkeys]
    show j ∈ b.lru ++ [i] ↔ _
    rw [mem_append, mem_singleton, hb.recent]
    by_cases hji : j = i
    · simp [hji, hi]
    · simp [hji]
  · intro j st hst
    have hslots : (if j = i then some { state with listed := true } else b.slots[j]?) = some st :=
      (setSlot_slots hold { state with listed := true } j).symm.trans hst
    show st.listed = true ↔ j ∈ b.lru ++ [i]
    rw [mem_append, mem_singleton]
    split at hslots
    · rename_i hji
      obtain rfl := Option.some.inj hslots
      simp [hji]
    · rename_i hji
      rw [hb.listed j st hslots]
      simp [hji]
  · show (b.lru ++ [i]).Nodup
    rw [nodup_append]
    refine ⟨hb.lruNodup, nodup_singleton i, ?_⟩
    rintro j hj k hk rfl
    rw [mem_singleton] at hk
    exact hout (hk ▸ hj)

theorem Linked.vacated (hb : Linked (fun j => L j ∧ j ≠ i) b) (hold : b.slots[i]? = some old)
    (hkey : state.key = none) (hlisted : state.listed = false) :
    Linked L (b.setSlot i state) := by
  have hout : i ∉ b.lru := fun hmem => ((hb.recent i).mp hmem).1.2 rfl
  refine ⟨?_, ?_, ?_, hb.lruNodup⟩
  · intro k j
    rw [setSlot_keyAt hold, setSlot_byKey, hb.mapped]
    by_cases hji : j = i
    · simp [hji, hkey]
    · simp [hji]
  · intro j
    rw [setSlot_keyAt hold, setSlot_lru, hb.recent]
    by_cases hji : j = i
    · simp [hji, hkey]
    · simp [hji]
  · intro j st hst
    rw [setSlot_slots hold] at hst
    rw [setSlot_lru]
    split at hst
    · rename_i hji
      obtain rfl := Option.some.inj hst
      rw [hji]
      simp [hlisted, hout]
    · exact hb.listed j st hst

theorem Linked.rekey (hb : Linked L b) (hold : b.slots[i]? = some old) {expected : MoeCacheKey}
    (hexpected : old.key = some expected) (hi : L i) (hfresh : key ∉ b.byKey)
    {byKey : Table MoeCacheKey Nat}
    (hmap : ∀ k, byKey.lookup k =
      if k = key then some i else if k = expected then none else b.byKey.lookup k)
    (hkey : state.key = some key) (hlisted : state.listed = old.listed) :
    Linked L ({ b with byKey }.setSlot i state) := by
  have hkeys : ∀ j, ({ b with byKey }.setSlot i state).keyAt j =
      if j = i then some key else b.keyAt j := by
    intro j
    refine (setSlot_keyAt (b := { b with byKey }) hold state j).trans ?_
    rw [← hkey]
    rfl
  have hwas : b.keyAt i = some expected := (keyAt_eq hold).trans hexpected
  refine ⟨?_, ?_, ?_, hb.lruNodup⟩
  · intro k j
    rw [hkeys]
    show byKey.lookup k = some j ↔ _
    rw [hmap]
    by_cases hk : k = key
    · subst hk
      rw [if_pos rfl]
      constructor
      · intro hj
        obtain rfl := Option.some.inj hj
        exact ⟨hi, if_pos rfl⟩
      · rintro ⟨hj, hsome⟩
        split at hsome
        · rename_i hji
          rw [hji]
        · have hmapped := (hb.mapped k j).mpr ⟨hj, hsome⟩
          rw [AList.lookup_eq_none.mpr hfresh] at hmapped
          cases hmapped
    · rw [if_neg hk]
      by_cases hke : k = expected
      · subst hke
        rw [if_pos rfl]
        constructor
        · intro hnone
          cases hnone
        · rintro ⟨hj, hsome⟩
          split at hsome
          · exact absurd (Option.some.inj hsome).symm hk
          · rename_i hji
            have hj' := (hb.mapped k j).mpr ⟨hj, hsome⟩
            have hi' := (hb.mapped k i).mpr ⟨hi, hwas⟩
            exact absurd (Option.some.inj (hj'.symm.trans hi')) hji
      · rw [if_neg hke, hb.mapped]
        by_cases hji : j = i
        · subst hji
          rw [if_pos rfl, hwas]
          constructor
          · rintro ⟨-, hsome⟩
            exact absurd (Option.some.inj hsome).symm hke
          · rintro ⟨-, hsome⟩
            exact absurd (Option.some.inj hsome).symm hk
        · rw [if_neg hji]
  · intro j
    rw [hkeys]
    show j ∈ b.lru ↔ _
    rw [hb.recent]
    by_cases hji : j = i
    · subst hji
      simp [hwas]
    · simp [hji]
  · intro j st hst
    have hslots := (setSlot_slots (b := { b with byKey }) hold state j).symm.trans hst
    show st.listed = true ↔ j ∈ b.lru
    split at hslots
    · rename_i hji
      obtain rfl := Option.some.inj hslots
      rw [hji, hlisted]
      exact hb.listed i old hold
    · exact hb.listed j st hslots

theorem Stacked.rekey (hb : Stacked F b) (hold : b.slots[i]? = some old)
    (hwas : old.key.isSome = true) (hkey : state.key.isSome = true)
    (byKey : Table MoeCacheKey Nat) : Stacked F ({ b with byKey }.setSlot i state) := by
  refine ⟨fun j => ?_, hb.freeNodup⟩
  have hkeys := setSlot_keyAt (b := { b with byKey }) hold state j
  rw [hkeys, setSlot_capacity]
  show j ∈ b.free ↔ _
  rw [hb.free]
  by_cases hji : j = i
  · subst hji
    rw [if_pos rfl, keyAt_eq hold, Option.eq_none_iff_forall_ne_some,
      Option.eq_none_iff_forall_ne_some]
    obtain ⟨k, hk⟩ := Option.isSome_iff_exists.mp hwas
    obtain ⟨k', hk'⟩ := Option.isSome_iff_exists.mp hkey
    refine ⟨fun h => absurd hk (h.2.2 k), fun h => absurd hk' (h.2.2 k')⟩
  · rw [if_neg hji]
    exact Iff.rfl

end MoeCacheSlotBook

end TyloQuant.MoeCache
