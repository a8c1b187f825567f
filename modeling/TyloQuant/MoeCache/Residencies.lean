import TyloQuant.MoeCache.Invariant

/-!
# Leases stay fresh

A lease names a slot and a generation.  As long as every residency gets a pair of its own, an
operation that checks the pair cannot mistake an old residency for the present one.

The generation of a slot is turned back in two places: `rollback_replace` restores the one from
before the commit, and `resize` starts a slot that comes back at zero.  The next residency of such
a slot repeats a pair that was handed out before.
-/

namespace TyloQuant.MoeCache

open Lib List

variable {capacity : Int}

namespace MoeCacheSlotBook

variable {b b' : MoeCacheSlotBook} {i : Nat} {state old : Slot} {key : MoeCacheKey} {slot : Int}

/-! ### Key and generation of a slot -/

/-- What a lease is checked against. -/
def stamp (b : MoeCacheSlotBook) (i : Nat) : Option (Option MoeCacheKey × Nat) :=
  b.slots[i]?.map fun state => (state.key, state.generation)

theorem stamp_eq (h : b.slots[i]? = some state) :
    b.stamp i = some (state.key, state.generation) := by
  simp [stamp, h]

theorem setSlot_stamp (hold : b.slots[i]? = some old) (state : Slot) (j : Nat) :
    (b.setSlot i state).stamp j =
      if j = i then some (state.key, state.generation) else b.stamp j := by
  unfold stamp
  rw [setSlot_slots hold]
  split <;> rfl

theorem spliceLru_stamp (b : MoeCacheSlotBook) (i : Nat) (state : Slot) (j : Nat) :
    (b.spliceLru i state).stamp j = b.stamp j := by
  unfold MoeCacheSlotBook.spliceLru
  split <;> rfl

/-- Rewriting a slot without touching its key or its generation. -/
theorem setSlot_stamp_same (hold : b.slots[i]? = some old) (hkey : state.key = old.key)
    (hgeneration : state.generation = old.generation) (j : Nat) :
    (b.setSlot i state).stamp j = b.stamp j := by
  rw [setSlot_stamp hold]
  split
  · rename_i hj
    rw [hj, stamp_eq hold, hkey, hgeneration]
  · rfl

theorem dropSlot_stamp (b : MoeCacheSlotBook) (i j : Nat) : (b.dropSlot i).stamp j = b.stamp j := by
  cases h : b.slots[i]? with
  | none => simp [MoeCacheSlotBook.dropSlot, h]
  | some state =>
    unfold stamp
    rw [dropSlot_eq h, eraseLru_slots (by simpa using h), eraseKey_slots]
    split
    · rename_i hj
      rw [hj, h]
      rfl
    · rfl

theorem touch_stamp (h : b.touch slot = .ok b') (j : Nat) : b'.stamp j = b.stamp j := by
  obtain ⟨i, state, -, hstate, -, rfl⟩ := touch_ok h
  split
  · exact spliceLru_stamp b i state j
  · have hkey : ({ state with listed := true } : Slot).key = state.key := rfl
    exact setSlot_stamp_same hstate hkey rfl j

theorem vacate_stamp {replaced : Option MoeCacheKey} (h : b.vacate = .ok (b', i, replaced))
    (j : Nat) : b'.stamp j = b.stamp j := by
  rcases vacate_ok h with ⟨-, rfl, -⟩ | ⟨-, -, state, -, rfl, -⟩
  · rfl
  · exact dropSlot_stamp b i j

theorem shrink_stamp (b : MoeCacheSlotBook) (c j : Nat) : (b.shrink c).stamp j = b.stamp j := by
  have hdrops : ∀ (drops : List Nat) (b : MoeCacheSlotBook),
      (drops.foldl dropSlot b).stamp j = b.stamp j := by
    intro drops
    induction drops with
    | nil => exact fun b => rfl
    | cons i drops ih => exact fun b => (ih (b.dropSlot i)).trans (dropSlot_stamp b i j)
  exact hdrops _ b

theorem resize_stamp (h : b.resize capacity = .ok b') (j : Nat) :
    b'.stamp j = if j < capacity.toNat then some ((b.stamp j).getD (none, 0)) else none := by
  obtain ⟨-, -, b₁, hb₁, rfl⟩ := resize_ok h
  have hsame : b₁.stamp j = b.stamp j ∧ b₁.capacity = b.capacity := by
    rw [hb₁]
    split
    · exact ⟨shrink_stamp b _ j, (foldl_dropSlot_same _ b).2.1⟩
    · exact ⟨rfl, rfl⟩
  rw [← hsame.1, ← hsame.2]
  change (b₁.recut capacity.toNat _).stamp j = _
  unfold stamp
  rw [recut_slots]
  split
  · cases b₁.slots[j]? <;> rfl
  · rfl

theorem resize_capacity (h : b.resize capacity = .ok b') : b'.capacity = capacity.toNat := by
  obtain ⟨-, -, b₁, hb₁, rfl⟩ := resize_ok h
  have hsame : b₁.capacity = b.capacity := by
    rw [hb₁]
    split
    · exact (foldl_dropSlot_same _ b).2.1
    · rfl
  rw [← hsame]
  exact recut_capacity b₁ _ _

theorem stamp_none_iff : b.stamp i = none ↔ b.capacity ≤ i := by
  unfold stamp
  rw [Option.map_eq_none_iff]
  exact List.getElem?_eq_none_iff

end MoeCacheSlotBook

open MoeCacheSlotBook

/-! ### The condition -/

/-- The slot an action gives a new key. -/
def takesSlot (s : System) : Action → Option Nat
  | .acquire key => if key ∈ s.book.byKey then none else s.book.nextSlot
  | .replace slot expected replacement =>
    if 0 ≤ slot ∧ s.book.keyAt slot.toNat = some expected ∧ replacement ∉ s.book.byKey then
      some slot.toNat
    else none
  | .commit id => (s.changes.lookup id).bind fun change =>
    match s.book.replacementValid change.record with
    | .ok true => some change.record.slot
    | _ => none
  | _ => none

/-- A slot is given a new key only while its generation has never been turned back and has not
    run through all 64 bits. -/
def TakesFresh (s : System) (a : Action) : Prop :=
  ∀ i ∈ takesSlot s a, s.rewound i = false ∧
    ∀ state ∈ s.book.slots[i]?, state.generation + 1 < 2 ^ 64

instance (s : System) (a : Action) : Decidable (TakesFresh s a) :=
  inferInstanceAs (Decidable (∀ i ∈ takesSlot s a, _ ∧ _))

/-! ### The invariant -/

/-- No two residencies share a pair; a slot never turned back is past all the pairs handed out
    for it; a slot holds a key exactly when a residency sits in it, under its own pair; and a
    transaction remembers the pairs of the residencies it is about. -/
structure Ledger (s : System) : Prop where
  distinct : ∀ (id id' : Nat) (r r' : Residency), s.issued[id]? = some r → s.issued[id']? = some r' →
    r.slot = r'.slot → r.generation = r'.generation → id = id'
  bounded : ∀ r ∈ s.issued, s.rewound r.slot = false → ∀ k g,
    s.book.stamp r.slot = some (k, g) → r.generation ≤ g
  seated : ∀ i id, s.current i = some id →
    ∃ r, s.issued[id]? = some r ∧ r.slot = i ∧ s.book.stamp i = some (some r.key, r.generation)
  occupied : ∀ i k g, s.book.stamp i = some (some k, g) → ∃ id, s.current i = some id
  owners : ∀ handle change, s.changes.lookup handle = some change →
    ∃ r, s.issued[change.owner]? = some r ∧ r = {
      key := change.record.expected
      slot := change.record.slot
      generation := change.record.generation }
  successors : ∀ handle change, s.changes.lookup handle = some change →
    change.record.committed = true → ∃ id r, change.seated = some id ∧
      s.issued[id]? = some r ∧ r = {
        key := change.record.replacement
        slot := change.record.slot
        generation := bump change.record.generation }

variable {s s' : System}

/-- Nothing a lease is checked against has changed. -/
theorem Ledger.congr (hs : Ledger s) (hstamp : ∀ i, s'.book.stamp i = s.book.stamp i)
    (hissued : s'.issued = s.issued) (hcurrent : s'.current = s.current)
    (hrewound : s'.rewound = s.rewound) (hchanges : s'.changes = s.changes) : Ledger s' := by
  refine ⟨?_, ?_, ?_, ?_, ?_, ?_⟩
  · simpa only [hissued] using hs.distinct
  · simpa only [hissued, hrewound, hstamp] using hs.bounded
  · simpa only [hissued, hcurrent, hstamp] using hs.seated
  · simpa only [hcurrent, hstamp] using hs.occupied
  · simpa only [hissued, hchanges] using hs.owners
  · simpa only [hissued, hchanges] using hs.successors

/-- A new or altered transaction whose residencies are on record. -/
theorem Ledger.insertChange (hs : Ledger s) (handle : Nat) (change : Change)
    (howner : ∃ r, s.issued[change.owner]? = some r ∧ r = {
      key := change.record.expected
      slot := change.record.slot
      generation := change.record.generation })
    (hseated : change.record.committed = true → ∃ id r, change.seated = some id ∧
      s.issued[id]? = some r ∧ r = {
        key := change.record.replacement
        slot := change.record.slot
        generation := bump change.record.generation }) :
    Ledger { s with changes := s.changes.insert handle change } := by
  exact ⟨hs.distinct, hs.bounded, hs.seated, hs.occupied, Table.forall_insert hs.owners howner,
    Table.forall_insert hs.successors hseated⟩

variable {id : Nat} {r : Residency}

theorem getElem?_append_left_of_some {issued : List Residency} (h : issued[id]? = some r)
    (extra : List Residency) : (issued ++ extra)[id]? = some r := by
  rw [getElem?_append_left (List.getElem?_eq_some_iff.mp h).1]
  exact h

variable {book : MoeCacheSlotBook}

/-- **A residency begins.**  In a slot that was never turned back, its pair is new. -/
theorem Ledger.begin (hs : Ledger s) {i g : Nat} {key : MoeCacheKey} {held : Option MoeCacheKey}
    (hheld : s.book.stamp i = some (held, g)) (hfresh : s.rewound i = false)
    (hroom : g + 1 < 2 ^ 64)
    (hstamp : ∀ j, book.stamp j = if j = i then some (some key, bump g) else s.book.stamp j) :
    Ledger (s.begin book { key, slot := i, generation := bump g }) := by
  have hbump : bump g = g + 1 := Nat.mod_eq_of_lt hroom
  have hnew : ∀ r ∈ s.issued, r.slot = i → r.generation < bump g := by
    intro r hr hslot
    have hle := hs.bounded r hr (hslot ▸ hfresh) held g (hslot ▸ hheld)
    omega
  have hlast : ∀ id r, (s.issued ++ [({ key, slot := i, generation := bump g } : Residency)])[id]?
      = some r → s.issued[id]? = some r ∨
        (id = s.issued.length ∧ r = { key, slot := i, generation := bump g }) := by
    intro id r hid
    by_cases hlt : id < s.issued.length
    · rw [getElem?_append_left hlt] at hid
      exact Or.inl hid
    · rw [getElem?_append_right (by omega)] at hid
      obtain ⟨hzero, rfl⟩ := List.getElem?_eq_some_iff.mp hid
      simp only [length_singleton] at hzero
      exact Or.inr ⟨by omega, by simp⟩
  refine ⟨?_, ?_, ?_, ?_, ?_, ?_⟩
  · intro id id' r r' hid hid' hslot hgeneration
    rcases hlast id r hid with hold | ⟨rfl, rfl⟩
    · rcases hlast id' r' hid' with hold' | ⟨rfl, rfl⟩
      · exact hs.distinct id id' r r' hold hold' hslot hgeneration
      · have hlt := hnew r (mem_of_getElem? hold) hslot
        exact absurd hgeneration (by dsimp only; omega)
    · rcases hlast id' r' hid' with hold' | ⟨rfl, rfl⟩
      · have hlt := hnew r' (mem_of_getElem? hold') hslot.symm
        exact absurd hgeneration (by dsimp only; omega)
      · rfl
  · intro r hr hrewound k g' hg'
    rcases mem_append.mp hr with hold | hlast'
    · have hsame := (hstamp r.slot).symm.trans hg'
      split at hsame
      · rename_i hslot
        have hlt := hnew r hold hslot
        cases hsame
        omega
      · exact hs.bounded r hold hrewound k g' hsame
    · obtain rfl := mem_singleton.mp hlast'
      have hsame := (hstamp i).symm.trans hg'
      rw [if_pos rfl] at hsame
      cases hsame
      exact Nat.le_refl _
  · intro j id hid
    change Function.update s.current i (some s.issued.length) j = some id at hid
    rw [Function.update_apply] at hid
    split at hid
    · rename_i hj
      obtain rfl := Option.some.inj hid
      refine ⟨_, getElem?_concat_length .., hj.symm, ?_⟩
      exact (hstamp j).trans (if_pos hj)
    · rename_i hj
      obtain ⟨r, hr, hslot, hstampr⟩ := hs.seated j id hid
      refine ⟨r, getElem?_append_left_of_some hr _, hslot, ?_⟩
      exact (hstamp j).trans ((if_neg hj).trans hstampr)
  · intro j k g' hj
    show ∃ id, Function.update s.current i (some s.issued.length) j = some id
    rw [Function.update_apply]
    have hsame := (hstamp j).symm.trans hj
    split at hsame
    · rename_i hji
      exact ⟨_, if_pos hji⟩
    · rename_i hji
      rw [if_neg hji]
      exact hs.occupied j k g' hsame
  · intro handle change hlookup
    obtain ⟨r, hr, heq⟩ := hs.owners handle change hlookup
    exact ⟨r, getElem?_append_left_of_some hr _, heq⟩
  · intro handle change hlookup hcommitted
    obtain ⟨id, r, hid, hr, heq⟩ := hs.successors handle change hlookup hcommitted
    exact ⟨id, r, hid, getElem?_append_left_of_some hr _, heq⟩

/-! ### One step -/

theorem Ledger.outcome (hs : Ledger s) {call : Except String MoeCacheSlotBook}
    (hcall : ∀ book, call = .ok book → ∀ i, book.stamp i = s.book.stamp i) :
    Ledger (s.outcome call) := by
  cases call with
  | error e => exact hs
  | ok book => exact hs.congr (hcall book rfl) rfl rfl rfl rfl

theorem Ledger.resized (hs : Ledger s) (capacity : Int) : Ledger (s.resized capacity) := by
  unfold System.resized
  split
  · exact hs
  · rename_i book hbook
    have hstamp := resize_stamp hbook
    have hcapacity := resize_capacity hbook
    refine ⟨hs.distinct, ?_, ?_, ?_, hs.owners, hs.successors⟩
    · intro r hr hrewound k g hg
      simp only [Bool.or_eq_false_iff, Bool.and_eq_false_iff] at hrewound
      obtain ⟨hbefore, hagain⟩ := hrewound
      rw [hstamp] at hg
      split at hg
      · rename_i hlt
        cases hslot : s.book.stamp r.slot with
        | some kg =>
          rw [hslot] at hg
          exact hs.bounded r hr hbefore k g (hslot.trans hg)
        | none =>
          have hout : s.book.capacity ≤ r.slot := stamp_none_iff.mp hslot
          rcases hagain with hrange | hused
          · simp only [decide_eq_false_iff_not, not_and] at hrange
            exact absurd (hcapacity ▸ hlt) (hrange hout)
          · have huse : (s.issued.any fun r' => r'.slot == r.slot) = true :=
              any_eq_true.mpr ⟨r, hr, by simp⟩
            rw [huse] at hused
            cases hused
      · cases hg
    · intro i id hid
      dsimp only at hid
      split at hid
      · rename_i hlt
        obtain ⟨r, hr, hslot, hstampr⟩ := hs.seated i id hid
        refine ⟨r, hr, hslot, ?_⟩
        rw [hstamp, if_pos (hcapacity ▸ hlt), hstampr]
        rfl
      · cases hid
    · intro i k g hi
      rw [hstamp] at hi
      split at hi
      · rename_i hlt
        cases hslot : s.book.stamp i with
        | some kg =>
          rw [hslot] at hi
          obtain ⟨id, hid⟩ := hs.occupied i k g (hslot.trans hi)
          exact ⟨id, (if_pos (hcapacity ▸ hlt)).trans hid⟩
        | none =>
          rw [hslot] at hi
          cases hi
      · cases hi

theorem Ledger.acquired (hs : Ledger s) {key : MoeCacheKey} (hok : TakesFresh s (.acquire key)) :
    Ledger (s.acquired key) := by
  unfold System.acquired
  split
  · exact hs
  · rename_i book lease hbook
    rcases acquire_ok hbook with ⟨i, -, htouch, hhit⟩ | ⟨hmiss, b₁, state, hvacate, hstate, hbook',
      hgeneration, hhit⟩
    · rw [if_pos hhit]
      exact hs.congr (touch_stamp htouch) rfl rfl rfl rfl
    · rw [if_neg (by rw [hhit]; exact Bool.false_ne_true), hgeneration]
      have hsame := vacate_stamp hvacate
      have htakes : takesSlot s (.acquire key) = some lease.slot := by
        show (if key ∈ s.book.byKey then none else s.book.nextSlot) = some lease.slot
        rw [if_neg (AList.lookup_eq_none.mp hmiss), nextSlot_of_vacate hvacate]
      have hheld : s.book.stamp lease.slot = some (state.key, state.generation) :=
        (hsame lease.slot).symm.trans (stamp_eq hstate)
      obtain ⟨hfresh, hroom⟩ := hok lease.slot htakes
      obtain ⟨old, hold, hsplit⟩ := Option.map_eq_some_iff.mp hheld
      obtain ⟨-, hgen⟩ := Prod.mk.inj hsplit
      refine hs.begin hheld hfresh (hgen ▸ hroom old hold) fun j => ?_
      rw [hbook']
      refine (setSlot_stamp (b := b₁) hstate _ j).trans ?_
      rw [hsame j]

theorem Ledger.discarded (hs : Ledger s) (key : MoeCacheKey) (slot : Int) (generation : Nat) :
    Ledger (s.discarded key slot generation) := by
  unfold System.discarded
  split
  · exact hs
  · rename_i book done hbook
    obtain ⟨i, state, rfl, hstate, hrefused | hdone⟩ := discard_ok hbook
    · obtain ⟨rfl, rfl, -⟩ := hrefused
      exact hs
    · obtain ⟨rfl, hkey, -, rfl⟩ := hdone
      have hdropped : (s.book.dropSlot i).slots[i]? = some { state with listed := false } := by
        rw [dropSlot_eq hstate, eraseLru_slots (by simpa using hstate), if_pos rfl]
      have hstamp : ∀ j, ((s.book.dropSlot i).setSlot i { state with
          key := none, inflight := false, listed := false }).stamp j =
          if j = i then some (none, state.generation) else s.book.stamp j := by
        intro j
        rw [setSlot_stamp hdropped, dropSlot_stamp]
      rw [if_pos rfl, Int.toNat_natCast]
      refine ⟨hs.distinct, ?_, ?_, ?_, hs.owners, hs.successors⟩
      · intro r hr hrewound k g hg
        have hsame := (hstamp r.slot).symm.trans hg
        split at hsame
        · rename_i hslot
          cases hsame
          exact hs.bounded r hr hrewound state.key _ (hslot ▸ stamp_eq hstate)
        · exact hs.bounded r hr hrewound k g hsame
      · intro j id hid
        change Function.update s.current i none j = some id at hid
        rw [Function.update_apply] at hid
        split at hid
        · cases hid
        · rename_i hj
          obtain ⟨r, hr, hslot, hstampr⟩ := hs.seated j id hid
          exact ⟨r, hr, hslot, (hstamp j).trans ((if_neg hj).trans hstampr)⟩
      · intro j k g hj
        have hsame := (hstamp j).symm.trans hj
        show ∃ id, Function.update s.current i none j = some id
        rw [Function.update_apply]
        split at hsame
        · cases hsame
        · rename_i hji
          rw [if_neg hji]
          exact hs.occupied j k g hsame

theorem Ledger.replaced (hs : Ledger s) {slot : Int} {expected replacement : MoeCacheKey}
    (hok : TakesFresh s (.replace slot expected replacement)) :
    Ledger (s.replaced slot expected replacement) := by
  unfold System.replaced
  split
  · exact hs
  · rename_i book done hbook
    obtain ⟨i, state, rfl, hstate, hrefused | hdone⟩ := replace_ok hbook
    · obtain ⟨rfl, rfl⟩ := hrefused
      exact hs
    · obtain ⟨rfl, hkey, hfresh, state', hstate', rfl⟩ := hdone
      have htakes : takesSlot s (.replace i expected replacement) = some i := by
        refine (if_pos ⟨Int.natCast_nonneg i, ?_, hfresh⟩).trans (congrArg some (Int.toNat_natCast i))
        rw [Int.toNat_natCast, keyAt_eq hstate, hkey]
      obtain ⟨hrewound, hroom⟩ := hok i htakes
      rw [if_pos rfl, Int.toNat_natCast, hstate]
      refine hs.begin (stamp_eq hstate) hrewound (hroom state hstate) fun j => ?_
      rw [spliceLru_stamp]
      refine (setSlot_stamp (b := { s.book with byKey := _ }) hstate state' j).trans ?_
      rw [hstate']
      rfl

theorem Ledger.prepared (hs : Ledger s) (handle : Nat) (slot : Int)
    (expected replacement : MoeCacheKey) :
    Ledger (s.prepared handle slot expected replacement) := by
  unfold System.prepared
  split
  · exact hs
  · rename_i record hrecord
    obtain ⟨i, state, rfl, hstate, hkey, -, rfl⟩ := prepareReplace_ok hrecord
    have hstamp := stamp_eq hstate
    rw [hkey] at hstamp
    obtain ⟨id, hid⟩ := hs.occupied i expected _ hstamp
    obtain ⟨r, hr, hslot, hstampr⟩ := hs.seated i id hid
    refine hs.insertChange handle _ ⟨r, ?_, ?_⟩ fun hcommitted => ?_
    · show s.issued[(s.current i).getD s.issued.length]? = some r
      rw [hid]
      exact hr
    · have hsame := hstampr.symm.trans hstamp
      cases r
      cases hsame
      cases hslot
      rfl
    · cases hcommitted

variable {handle : Nat} {change : Change}

theorem Ledger.committed (hs : Ledger s) (hchange : s.changes.lookup handle = some change)
    (hok : TakesFresh s (.commit handle)) :
    Ledger (s.committed handle change) := by
  unfold System.committed
  split
  · exact hs
  · rename_i book record done hbook
    obtain ⟨state, hstate, hrefused | hdone⟩ := commitReplace_ok hbook
    · obtain ⟨rfl, rfl, rfl⟩ := hrefused
      exact hs.insertChange handle change (hs.owners handle change hchange)
        (hs.successors handle change hchange)
    · obtain ⟨rfl, huncommitted, hkey, hgeneration, hfresh, byKey, state', -, hstate', rfl,
        rfl⟩ := hdone
      have htakes : takesSlot s (.commit handle) = some change.record.slot := by
        have hvalid : s.book.replacementValid change.record = .ok true := by
          unfold replacementValid
          rw [bind_eq_ok]
          refine ⟨(change.record.slot, state), checked_ok.mpr ⟨rfl, hstate⟩, pure_eq_ok.mpr ?_⟩
          simp [huncommitted, hkey, hgeneration, hfresh]
        refine Option.bind_eq_some_iff.mpr ⟨change, hchange, ?_⟩
        rw [hvalid]
      obtain ⟨hrewound, hroom⟩ := hok _ htakes
      rw [if_pos rfl]
      have hbegun : Ledger (s.begin (({ s.book with byKey := byKey.erase change.record.expected
          }.setSlot change.record.slot state').spliceLru change.record.slot state') {
          key := change.record.replacement
          slot := change.record.slot
          generation := bump change.record.generation }) := by
        rw [← hgeneration]
        refine hs.begin (stamp_eq hstate) hrewound (hroom state hstate) fun j => ?_
        rw [spliceLru_stamp]
        refine (setSlot_stamp (b := { s.book with byKey := _ }) hstate state' j).trans ?_
        rw [hstate']
      refine hbegun.insertChange handle _ ?_ fun _ => ?_
      · obtain ⟨r, hr, heq⟩ := hs.owners handle change hchange
        exact ⟨r, getElem?_append_left_of_some hr _, heq⟩
      · exact ⟨s.issued.length, _, rfl, getElem?_concat_length .., rfl⟩

theorem Ledger.rolledBack (hs : Ledger s) (hchange : s.changes.lookup handle = some change) :
    Ledger (s.rolledBack handle change) := by
  unfold System.rolledBack
  split
  · exact hs
  · rename_i book record hbook
    obtain ⟨owner, howner, heq⟩ := hs.owners handle change hchange
    obtain ⟨state, hstate, hundone | hidle⟩ := rollbackReplace_ok hbook
    · obtain ⟨hcommitted, hkey, hgeneration, rfl, rfl⟩ := hundone
      dsimp only
      rw [if_pos hcommitted]
      have hstamp : ∀ j, ({ s.book with byKey :=
          (insertNode (s.book.byKey.erase change.record.replacement) change.record.original).1
          }.setSlot change.record.slot { state with
            key := some change.record.expected, generation := change.record.generation,
            inflight := false }).stamp j =
          if j = change.record.slot then
            some (some change.record.expected, change.record.generation)
          else s.book.stamp j :=
        setSlot_stamp (b := { s.book with byKey := _ }) hstate _
      refine Ledger.insertChange (s := { s with
        book := _
        current := Function.update s.current change.record.slot (some change.owner)
        rewound := Function.update s.rewound change.record.slot true })
        ⟨hs.distinct, ?_, ?_, ?_, hs.owners, hs.successors⟩ handle _ ⟨owner, howner, heq⟩
        fun hagain => ?_
      · intro r hr hrewound k g hg
        dsimp only at hrewound
        rw [Function.update_apply] at hrewound
        split at hrewound
        · cases hrewound
        · rename_i hslot
          have hsame := (hstamp r.slot).symm.trans hg
          rw [if_neg hslot] at hsame
          exact hs.bounded r hr hrewound k g hsame
      · intro j id hid
        dsimp only at hid
        rw [Function.update_apply] at hid
        split at hid
        · rename_i hj
          obtain rfl := Option.some.inj hid
          refine ⟨owner, howner, ?_, ?_⟩
          · rw [heq, hj]
          · refine (hstamp j).trans ((if_pos hj).trans ?_)
            rw [heq]
        · rename_i hj
          obtain ⟨r, hr, hslot, hstampr⟩ := hs.seated j id hid
          exact ⟨r, hr, hslot, (hstamp j).trans ((if_neg hj).trans hstampr)⟩
      · intro j k g hj
        have hsame := (hstamp j).symm.trans hj
        dsimp only
        rw [Function.update_apply]
        split at hsame
        · rename_i hji
          exact ⟨_, if_pos hji⟩
        · rename_i hji
          rw [if_neg hji]
          exact hs.occupied j k g hsame
      · cases hagain
    · obtain ⟨huncommitted, rfl, hbook'⟩ := hidle
      dsimp only
      rw [if_neg (by rw [huncommitted]; exact Bool.false_ne_true)]
      have hsame : ∀ j, book.stamp j = s.book.stamp j := by
        rcases hbook' with ⟨rfl, -⟩ | ⟨-, -, rfl⟩
        · exact fun _ => rfl
        · exact setSlot_stamp_same hstate rfl rfl
      have hcongr : Ledger { s with book } := hs.congr hsame rfl rfl rfl rfl
      exact hcongr.insertChange handle change ⟨owner, howner, heq⟩
        (hs.successors handle change hchange)

/-- **One step keeps the ledger.** -/
theorem ledger_step (s : System) (a : Action) (s' : System) (hs : Ledger s)
    (hok : TakesFresh s a) (hstep : step s a = some s') : Ledger s' := by
  cases a with
  | resize capacity => exact Option.some.inj hstep ▸ hs.resized capacity
  | setLowPrioritySources sources =>
    exact Option.some.inj hstep ▸ hs.congr (fun _ => rfl) rfl rfl rfl rfl
  | acquire key => exact Option.some.inj hstep ▸ hs.acquired hok
  | touch slot =>
    exact Option.some.inj hstep ▸ hs.outcome fun book hbook => touch_stamp hbook
  | markInflight slot =>
    refine Option.some.inj hstep ▸ hs.outcome fun book hbook => ?_
    obtain ⟨i, state, -, hstate, rfl⟩ := markInflight_ok hbook
    exact setSlot_stamp_same hstate rfl rfl
  | clearInflight slot =>
    refine Option.some.inj hstep ▸ hs.outcome fun book hbook => ?_
    obtain ⟨i, state, -, hstate, rfl⟩ := clearInflight_ok hbook
    exact setSlot_stamp_same hstate rfl rfl
  | discard key slot generation =>
    exact Option.some.inj hstep ▸ hs.discarded key slot generation
  | replace slot expected replacement => exact Option.some.inj hstep ▸ hs.replaced hok
  | prepare handle slot expected replacement =>
    exact Option.some.inj hstep ▸ hs.prepared handle slot expected replacement
  | commit handle =>
    obtain ⟨change, hchange, rfl⟩ := Option.map_eq_some_iff.mp hstep
    exact hs.committed hchange hok
  | rollback handle =>
    obtain ⟨change, hchange, rfl⟩ := Option.map_eq_some_iff.mp hstep
    exact hs.rolledBack hchange

/-! ### Every run -/

theorem ledger_run {actions : List Action} (hnew : create capacity = .ok book)
    (hok : Meets step TakesFresh (initial book) actions)
    (hrun : run step (initial book) actions = some s) : Ledger s := by
  refine run_invariant ledger_step ⟨?_, ?_, ?_, ?_, ?_, ?_⟩ hok hrun
  · intro id id' r r' hid
    cases hid
  · intro r hr
    cases hr
  · intro i id hid
    cases hid
  · intro i k g hi
    have hkeys := (Consistent.create hnew).linked.recent i
    have hlru : book.lru = [] := by rw [create_ok hnew]
    obtain ⟨state, hstate, hsplit⟩ := Option.map_eq_some_iff.mp hi
    have hkey : book.keyAt i = some k := (keyAt_eq hstate).trans (Prod.mk.inj hsplit).1
    rw [hlru, hkey] at hkeys
    simp at hkeys
  · intro handle change h
    cases h
  · intro handle change h
    cases h

/-- A lease whose pair the slot carries belongs to the residency in the slot. -/
theorem Ledger.live (hs : Ledger s) (hr : s.issued[id]? = some r) {key : MoeCacheKey}
    (hstamp : s.book.stamp r.slot = some (some key, r.generation)) :
    s.current r.slot = some id := by
  obtain ⟨id', hid'⟩ := hs.occupied r.slot key r.generation hstamp
  obtain ⟨r', hr', hslot, hstampr⟩ := hs.seated r.slot id' hid'
  have hpair := hstamp.symm.trans hstampr
  have hgeneration : r.generation = r'.generation := by
    exact (Prod.mk.inj (Option.some.inj hpair)).2
  rw [hid', hs.distinct id id' r r' hr hr' hslot.symm hgeneration]

/-- **Leases stay fresh.**  In every run in which no slot is given a key after its generation was
    turned back: two residencies never share slot and generation, so `discard` on a lease whose
    residency has ended is refused and changes nothing; nor does a transaction prepared on (or
    having seated) a residency that has ended. -/
theorem leases_stay_fresh {capacity : Int} {book : MoeCacheSlotBook} {actions : List Action}
    {s : System} (hnew : create capacity = .ok book)
    (hok : Meets step TakesFresh (initial book) actions)
    (hrun : run step (initial book) actions = some s) :
    (∀ (id id' : Nat) (r r' : Residency), s.issued[id]? = some r → s.issued[id']? = some r' →
      r.slot = r'.slot → r.generation = r'.generation → id = id') ∧
    (∀ (id : Nat) (r : Residency), s.issued[id]? = some r → s.current r.slot ≠ some id →
      ∀ key b' done, s.book.discard key r.slot r.generation = .ok (b', done) →
        done = false ∧ b' = s.book) ∧
    (∀ handle change, s.changes.lookup handle = some change → change.record.committed = false →
      s.current change.record.slot ≠ some change.owner →
      (∀ b' record done, s.book.commitReplace change.record = .ok (b', record, done) →
        done = false ∧ b' = s.book) ∧
      ∀ b' record, s.book.rollbackReplace change.record = .ok (b', record) → b' = s.book) ∧
    (∀ handle change, s.changes.lookup handle = some change → change.record.committed = true →
      s.current change.record.slot ≠ change.seated →
      (∀ b' record done, s.book.commitReplace change.record = .ok (b', record, done) →
        done = false ∧ b' = s.book) ∧
      ∀ b' record, s.book.rollbackReplace change.record ≠ .ok (b', record)) := by
  have hs := ledger_run hnew hok hrun
  refine ⟨hs.distinct, ?_, ?_, ?_⟩
  · intro id r hr hended key b' done hdiscard
    obtain ⟨i, state, hi, hstate, hrefused | hdone⟩ := discard_ok hdiscard
    · exact ⟨hrefused.1, hrefused.2.1⟩
    · obtain ⟨-, hkey, hgeneration, -⟩ := hdone
      obtain rfl := Int.ofNat.inj hi
      have hlive : s.book.stamp r.slot = some (some key, r.generation) := by
        rw [stamp_eq hstate, hkey, hgeneration]
      exact absurd (hs.live hr hlive) hended
  · intro handle change hchange huncommitted hended
    obtain ⟨owner, howner, heq⟩ := hs.owners handle change hchange
    have hstale : ∀ state, s.book.slots[change.record.slot]? = some state →
        ¬(state.key = some change.record.expected ∧
          state.generation = change.record.generation) := by
      rintro state hstate ⟨hkey, hgeneration⟩
      have hslot : owner.slot = change.record.slot := by rw [heq]
      have hlive : s.book.stamp owner.slot =
          some (some change.record.expected, owner.generation) := by
        rw [hslot, stamp_eq hstate, hkey, hgeneration, heq]
      exact hended (hslot ▸ hs.live howner hlive)
    refine ⟨fun b' record done hcommit => ?_, fun b' record hrollback => ?_⟩
    · obtain ⟨state, hstate, hrefused | hdone⟩ := commitReplace_ok hcommit
      · exact ⟨hrefused.1, hrefused.2.1⟩
      · exact absurd ⟨hdone.2.2.1, hdone.2.2.2.1⟩ (hstale state hstate)
    · obtain ⟨state, hstate, hundone | hidle⟩ := rollbackReplace_ok hrollback
      · rw [huncommitted] at hundone
        cases hundone.1
      · rcases hidle.2.2 with ⟨rfl, -⟩ | ⟨hkey, hgeneration, -⟩
        · rfl
        · exact absurd ⟨hkey, hgeneration⟩ (hstale state hstate)
  · intro handle change hchange hcommitted hended
    obtain ⟨id, r, hseated, hr, heq⟩ := hs.successors handle change hchange hcommitted
    refine ⟨fun b' record done hcommit => ?_, fun b' record hrollback => ?_⟩
    · obtain ⟨state, hstate, hrefused | hdone⟩ := commitReplace_ok hcommit
      · exact ⟨hrefused.1, hrefused.2.1⟩
      · rw [hcommitted] at hdone
        cases hdone.2.1
    · obtain ⟨state, hstate, hundone | hidle⟩ := rollbackReplace_ok hrollback
      · obtain ⟨-, hkey, hgeneration, -⟩ := hundone
        have hslot : r.slot = change.record.slot := by rw [heq]
        refine hended ?_
        rw [hseated]
        have hlive : s.book.stamp r.slot =
            some (some change.record.replacement, r.generation) := by
          rw [hslot, stamp_eq hstate, hkey, hgeneration, heq]
        exact hslot ▸ hs.live hr hlive
      · rw [hcommitted] at hidle
        cases hidle.1

/-- An expert sits in the second slot; the cache shrinks, grows again, and the same expert is
    acquired once more. -/
def regrownSlot : List Action :=
  [.acquire (expert 1), .acquire (expert 2), .resize 1, .resize 2, .acquire (expert 2)]

/-- The lease of the first residency then discards the second. -/
theorem regrownSlot_repeats_lease :
    ∃ book s s' r, create 2 = .ok book ∧ run step (initial book) regrownSlot = some s ∧
      s.issued[1]? = some r ∧ s.issued[2]? = some r ∧ s.current r.slot = some 2 ∧
      step s (.discard r.key r.slot r.generation) = some s' ∧ s'.current r.slot = none := by
  have hrun : (run step (initial { slots := [{}, {}], free := [1, 0] }) regrownSlot).map
      (fun s => (s.issued, s.current 1, (s.discarded (expert 2) 1 1).current 1)) =
      some ([⟨expert 1, 0, 1⟩, ⟨expert 2, 1, 1⟩, ⟨expert 2, 1, 1⟩], some 2, none) := by
    decide
  obtain ⟨s, hs, hfields⟩ := Option.map_eq_some_iff.mp hrun
  simp only [Prod.mk.injEq] at hfields
  obtain ⟨hissued, hcurrent, hdiscarded⟩ := hfields
  refine ⟨_, s, _, ⟨expert 2, 1, 1⟩, rfl, hs, ?_, ?_, hcurrent, rfl, hdiscarded⟩
  · rw [hissued]
    rfl
  · rw [hissued]
    rfl

/-- Freshness on a run that evicts, commits and rolls back, and keeps the slot it turned back. -/
theorem leases_stay_fresh_replayed :
    ∃ book s, create 2 = .ok book ∧
      run step (initial book) [.acquire (expert 1), .acquire (expert 2), .acquire (expert 3),
        .prepare 0 1 (expert 2) (expert 4), .commit 0, .rollback 0] = some s ∧
      ∀ b' done, s.book.discard (expert 1) 0 1 = .ok (b', done) → done = false ∧ b' = s.book := by
  have hrun : (run step (initial { slots := [{}, {}], free := [1, 0] })
      [.acquire (expert 1), .acquire (expert 2), .acquire (expert 3),
        .prepare 0 1 (expert 2) (expert 4), .commit 0, .rollback 0]).map
      (fun s => (s.issued, s.current 0)) =
      some ([⟨expert 1, 0, 1⟩, ⟨expert 2, 1, 1⟩, ⟨expert 3, 0, 2⟩, ⟨expert 4, 1, 2⟩], some 2) := by
    decide
  obtain ⟨s, hs, hfields⟩ := Option.map_eq_some_iff.mp hrun
  obtain ⟨hissued, hcurrent⟩ := Prod.mk.inj hfields
  have hnew : create 2 = .ok { slots := [{}, {}], free := [1, 0] } := rfl
  have hall := leases_stay_fresh hnew (by decide) hs
  refine ⟨_, s, rfl, hs, hall.2.1 0 ⟨expert 1, 0, 1⟩ ?_ ?_ (expert 1)⟩
  · rw [hissued]
    rfl
  · rw [hcurrent]
    decide

end TyloQuant.MoeCache
