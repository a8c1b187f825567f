import TyloQuant.QsaKv.StoreInvariant

/-!
# The store's calls, beside the worker

`write` gives a block that can be read from then on, `read` gives what the block was written
with, and both leave every block that a client points to as it is, whatever the worker and the
deleters do meanwhile.
-/

namespace TyloQuant.QsaKv

open Lib Call List

/-! ### What the clients point to -/

variable {s : System} {id : Nat}

theorem System.held_iff :
    s.held id = true ↔ id ∈ s.locals ∨
      (∃ seq st, s.sequences.lookup seq = some st ∧ id ∈ st.pointers) ∨
      ∃ snap st, s.snapshots.lookup snap = some st ∧ id ∈ st.pointers := by
  have hany : ∀ t : Table Nat Snapshot, t.entries.any (fun e => e.2.pointers.contains id) = true ↔
        ∃ k st, t.lookup k = some st ∧ id ∈ st.pointers := by
    intro t
    rw [any_eq_true]
    constructor
    · rintro ⟨e, he, hid⟩
      exact ⟨e.1, e.2, Table.lookup_of_mem_entries he, contains_iff_mem.mp hid⟩
    · rintro ⟨k, st, hk, hid⟩
      exact ⟨⟨k, st⟩, AList.mem_lookup_iff.mp hk, contains_iff_mem.mpr hid⟩
  unfold System.held
  rw [Bool.or_eq_true, Bool.or_eq_true, hany, hany, contains_iff_mem, or_assoc]

/-- The store is in order for what the clients point to. -/
def System.Sound (s : System) : Prop := StoreInv (fun id => s.held id = true) s.store

/-- The blocks of `held` keep their payloads. -/
def SamePayloads (held : Nat → Prop) (c c' : QsaKvStore) : Prop :=
  ∀ id b, held id → c.blocks.lookup id = some b →
    ∃ b', c'.blocks.lookup id = some b' ∧ b'.payload = b.payload

theorem SamePayloads.refl (held : Nat → Prop) (c : QsaKvStore) : SamePayloads held c c :=
  fun _ b _ hb => ⟨b, hb, rfl⟩

theorem SamePayloads.trans {held : Nat → Prop} {c c' c'' : QsaKvStore}
    (h : SamePayloads held c c') (h' : SamePayloads held c' c'') : SamePayloads held c c'' := by
  intro id b hheld hb
  obtain ⟨b', hb', hpay⟩ := h id b hheld hb
  obtain ⟨b'', hb'', hpay'⟩ := h' id b' hheld hb'
  exact ⟨b'', hb'', hpay'.trans hpay⟩

theorem SamePayloads.of_blocks {held : Nat → Prop} {c c' : QsaKvStore}
    (h : c'.blocks = c.blocks) : SamePayloads held c c' :=
  fun _ b _ hb => ⟨b, h ▸ hb, rfl⟩

variable {block : Block}

theorem SamePayloads.setBlock {held : Nat → Prop} {c : QsaKvStore} {block' : Block}
    (hblock : c.blocks.lookup id = some block) (hsame : block'.payload = block.payload) :
    SamePayloads held c (c.setBlock id block') := by
  intro id' b _ hb
  rw [QsaKvStore.setBlock_lookup]
  by_cases hid : id' = id
  · subst hid
    obtain rfl := Option.some.inj (hblock.symm.trans hb)
    exact ⟨block', if_pos rfl, hsame⟩
  · exact ⟨b, (if_neg hid).trans hb, rfl⟩

/-- What a store call leaves alone. -/
structure Frame (s s' : System) : Prop where
  sequences : s'.sequences = s.sequences
  snapshots : s'.snapshots = s.snapshots
  locals : s'.locals = s.locals
  lists : s'.lists = s.lists
  bufferBytes : s'.store.bufferBytes = s.store.bufferBytes
  payloads : SamePayloads (fun id => s.held id = true) s.store s'.store

variable {s' : System}

theorem Frame.held (h : Frame s s') (id : Nat) : s'.held id = s.held id := by
  unfold System.held
  rw [h.sequences, h.snapshots, h.locals]

theorem Frame.refl (s : System) : Frame s s := ⟨rfl, rfl, rfl, rfl, rfl, SamePayloads.refl _ _⟩

theorem Frame.trans {s'' : System} (h : Frame s s') (h' : Frame s' s'') : Frame s s'' := by
  refine ⟨h'.sequences.trans h.sequences, h'.snapshots.trans h.snapshots,
    h'.locals.trans h.locals, h'.lists.trans h.lists, h'.bufferBytes.trans h.bufferBytes, ?_⟩
  refine h.payloads.trans ?_
  have hpay := h'.payloads
  simp only [h.held] at hpay
  exact hpay

/-- From a sound state the call comes to a sound one, within the frame. -/
def Evolves (s s' : System) : Prop := s.Sound → s'.Sound ∧ Frame s s'

/-! ### The background -/

section Background

variable {held : Nat → Bool} {c c' : QsaKvStore}

theorem release_bufferBytes (c : QsaKvStore) (id : Nat) (block : Block) (truncates : Bool) :
    (c.release id block truncates).bufferBytes = c.bufferBytes := by
  have hdrop : (c.dropHot id block.priority).bufferBytes = c.bufferBytes := by
    unfold QsaKvStore.dropHot
    split <;> rfl
  unfold QsaKvStore.release
  dsimp only
  split
  · exact hdrop
  · exact hdrop

theorem release_blocks (c : QsaKvStore) (id : Nat) (block : Block) (truncates : Bool) :
    (c.release id block truncates).blocks = c.blocks.erase id := by
  have hdrop : (c.dropHot id block.priority).blocks = c.blocks := by
    unfold QsaKvStore.dropHot
    split <;> rfl
  unfold QsaKvStore.release
  dsimp only
  split
  · exact congrArg (AList.erase id) hdrop
  · exact congrArg (AList.erase id) hdrop

/-- **One background step** keeps the store in order and every held block as it is. -/
theorem background_sound {b : Background} (hc : StoreInv (fun id => held id = true) c)
    (h : c.background held b = some c') :
    StoreInv (fun id => held id = true) c' ∧ c'.bufferBytes = c.bufferBytes ∧
      SamePayloads (fun id => held id = true) c c' := by
  cases b with
  | take =>
    unfold QsaKvStore.background at h
    dsimp only at h
    split at h
    · rename_i id rest hidle hqueue
      obtain rfl := Option.some.inj h
      exact ⟨hc.take hidle hqueue, rfl, SamePayloads.of_blocks rfl⟩
    · cases h
  | write count =>
    obtain ⟨⟨id, done⟩, hwriting, hrest⟩ := Option.bind_eq_some_iff.mp h
    obtain ⟨block, hblock, hrest'⟩ := Option.bind_eq_some_iff.mp hrest
    obtain ⟨payload, hpending, hresult⟩ := Option.bind_eq_some_iff.mp hrest'
    dsimp only at hresult
    split at hresult
    · rename_i hroom
      obtain rfl := Option.some.inj hresult
      exact ⟨hc.writeChunk hwriting hblock hpending hroom.2, rfl, SamePayloads.of_blocks rfl⟩
    · cases hresult
  | finish failure =>
    obtain ⟨⟨id, done⟩, hwriting, hrest⟩ := Option.bind_eq_some_iff.mp h
    obtain ⟨block, hblock, hresult⟩ := Option.bind_eq_some_iff.mp hrest
    dsimp only at hresult
    split at hresult
    · rename_i hend
      obtain rfl := Option.some.inj hresult
      exact ⟨hc.settle hwriting hblock hend, rfl, SamePayloads.setBlock hblock rfl⟩
    · cases hresult
  | release id truncates =>
    obtain ⟨block, hblock, hresult⟩ := Option.bind_eq_some_iff.mp h
    split at hresult
    · cases hresult
    · rename_i hunused
      obtain rfl := Option.some.inj hresult
      simp only [not_or] at hunused
      obtain ⟨hunheld, hqueue, hwriting⟩ := hunused
      have hidle : id ∉ c.waiting := by
        unfold QsaKvStore.waiting
        rw [mem_append, Option.mem_toList, not_or]
        exact ⟨hwriting, hqueue⟩
      refine ⟨hc.release hblock hunheld hidle truncates, release_bufferBytes c id block _, ?_⟩
      intro id' b hheld hb
      refine ⟨b, ?_, rfl⟩
      rw [release_blocks, Table.lookup_erase_ite, if_neg, hb]
      rintro rfl
      exact hunheld hheld

theorem burst_sound {bs : List Background} (hc : StoreInv (fun id => held id = true) c)
    (h : Op.burst held bs c = some c') :
    StoreInv (fun id => held id = true) c' ∧ c'.bufferBytes = c.bufferBytes ∧
      SamePayloads (fun id => held id = true) c c' := by
  induction bs generalizing c with
  | nil =>
    obtain rfl := Option.some.inj h
    exact ⟨hc, rfl, SamePayloads.refl _ _⟩
  | cons b bs ih =>
    obtain ⟨m, hm, hrest⟩ := Option.bind_eq_some_iff.mp h
    obtain ⟨hcm, hbuffer, hpay⟩ := background_sound hc hm
    obtain ⟨hc', hbuffer', hpay'⟩ := ih hcm hrest
    exact ⟨hc', hbuffer'.trans hbuffer, hpay.trans hpay'⟩

end Background

theorem keeps_turn : Keeps Evolves Op.turn := by
  intro s r s' h hs
  unfold Op.turn at h
  cases hschedule : s.schedule with
  | nil =>
    rw [hschedule] at h
    obtain ⟨-, rfl⟩ := Prod.mk.inj (Option.some.inj h)
    exact ⟨hs, Frame.refl s⟩
  | cons t rest =>
    rw [hschedule] at h
    obtain ⟨store, hburst, hresult⟩ := Option.map_eq_some_iff.mp h
    obtain ⟨-, rfl⟩ := Prod.mk.inj hresult
    obtain ⟨hc, hbuffer, hpay⟩ := burst_sound hs hburst
    exact ⟨hc, ⟨rfl, rfl, rfl, rfl, hbuffer, hpay⟩⟩

/-! ### Leaves -/

variable {r : Except String Unit}

theorem check_some (h : Op.check s = some (r, s')) :
    s' = s ∧ (r = .ok () → s.store.error = none) := by
  unfold Op.check at h
  rw [get_bind] at h
  cases herror : s.store.error with
  | none =>
    rw [herror] at h
    exact ⟨(pure_some.mp h).2, fun _ => rfl⟩
  | some e =>
    rw [herror] at h
    obtain ⟨rfl, rfl⟩ := throw_some.mp h
    refine ⟨rfl, fun hok => ?_⟩
    cases hok

variable {ids : List Nat}

theorem holding_some {α : Type} {x : Op α} {r : Except String α}
    (h : Op.holding ids x s = some (r, s')) :
    ∃ t, x { s with locals := ids ++ s.locals } = some (r, t) ∧
      s' = { t with locals := s.locals } := by
  obtain ⟨⟨r', t⟩, hx, hresult⟩ := Option.map_eq_some_iff.mp h
  obtain ⟨rfl, rfl⟩ := Prod.mk.inj hresult
  exact ⟨t, hx, rfl⟩

theorem held_locals {s : System} {ids : List Nat} {id : Nat} :
    ({ s with locals := ids ++ s.locals } : System).held id = true ↔
      id ∈ ids ∨ s.held id = true := by
  rw [System.held_iff, System.held_iff, mem_append, or_assoc]

/-- A call under a variable, from a state that is sound with the variable. -/
theorem Evolves.holding {α : Type} {x : Op α} {r : Except String α} (hx : Keeps Evolves x)
    (hheld : s.Sound → ({ s with locals := ids ++ s.locals } : System).Sound)
    (h : Op.holding ids x s = some (r, s')) (hs : s.Sound) :
    s'.Sound ∧ Frame s s' ∧ ({ s' with locals := ids ++ s'.locals } : System).Sound ∧
      SamePayloads (fun id => id ∈ ids ∨ s.held id = true) s.store s'.store := by
  obtain ⟨t, ht, rfl⟩ := holding_some h
  obtain ⟨htsound, hframe⟩ := hx _ _ _ ht (hheld hs)
  have hlocals : t.locals = ids ++ s.locals := hframe.locals
  have hsame : ({ t with locals := s.locals } : System).held = s.held := by
    funext id
    unfold System.held
    rw [hframe.sequences, hframe.snapshots]
  have hpay := hframe.payloads
  simp only [held_locals] at hpay
  refine ⟨htsound.mono fun id hid => ?_,
    ⟨hframe.sequences, hframe.snapshots, rfl, hframe.lists, hframe.bufferBytes,
      fun id b hid => hpay id b (Or.inr hid)⟩, ?_, hpay⟩
  · have hmore := (@held_locals s ids id).mpr (Or.inr (hsame ▸ hid))
    rw [← hframe.held] at hmore
    exact hmore
  · show ({ t with locals := ids ++ s.locals } : System).Sound
    rw [← hlocals]
    exact htsound

theorem System.Sound.hold (hs : s.Sound) (hblock : s.store.blocks.lookup id = some block)
    (havailable : s.store.error = none → block.safe ∨ id ∈ s.store.hot) :
    ({ s with locals := [id] ++ s.locals } : System).Sound := by
  refine ⟨hs.places, hs.recency, { hs.contents with live := ?_, available := ?_ }⟩
  · intro id' hid
    rcases held_locals.mp hid with hid' | hid'
    · obtain rfl := mem_singleton.mp hid'
      exact Table.mem_of_lookup hblock
    · exact hs.contents.live id' hid'
  · intro he id' b hid hb
    rcases held_locals.mp hid with hid' | hid'
    · obtain rfl := mem_singleton.mp hid'
      obtain rfl := Option.some.inj (hblock.symm.trans hb)
      exact havailable he
    · exact hs.contents.available he id' b hid' hb

/-! ### Eviction -/

/-- The hot entry of the block may go. -/
def MayGo (s : System) (id : Nat) : Prop :=
  s.store.error = none → s.held id = true → ∀ b, s.store.blocks.lookup id = some b → b.safe

/-- A block that was handed over is safe. -/
theorem handOver_some {size : Nat} {r : Except String Bool}
    (h : Op.handOver id size s = some (r, s')) (hs : s.Sound) :
    s'.Sound ∧ Frame s s' ∧ (r = .ok true → ∀ b, s'.store.blocks.lookup id = some b → b.safe) := by
  unfold Op.handOver at h
  rcases bind_some.mp h with ⟨e, hturn, rfl⟩ | ⟨_, t, hturn, hrest⟩
  · obtain ⟨hs', hframe⟩ := keeps_turn _ _ _ hturn hs
    exact ⟨hs', hframe, fun hok => by cases hok⟩
  obtain ⟨ht, hframe⟩ := keeps_turn _ _ _ hturn hs
  rw [get_bind] at hrest
  split at hrest
  · exact absurd hrest not_blocked
  rcases bind_some.mp hrest with ⟨e, hcheck, rfl⟩ | ⟨_, t', hcheck, hmatch⟩
  · obtain ⟨rfl, -⟩ := check_some hcheck
    exact ⟨ht, hframe, fun hok => by cases hok⟩
  obtain ⟨rfl, -⟩ := check_some hcheck
  cases hpayload : t'.store.hot.lookup id with
  | none =>
    rw [hpayload] at hmatch
    obtain ⟨rfl, rfl⟩ := pure_some.mp hmatch
    exact ⟨ht, hframe, fun hok => by cases hok⟩
  | some payload =>
  cases hblock : t'.store.blocks.lookup id with
  | none =>
    rw [hpayload, hblock] at hmatch
    obtain ⟨rfl, rfl⟩ := pure_some.mp hmatch
    exact ⟨ht, hframe, fun hok => by cases hok⟩
  | some block =>
    rw [hpayload, hblock] at hmatch
    dsimp only at hmatch
    split at hmatch
    · obtain ⟨rfl, rfl⟩ := pure_some.mp hmatch
      exact ⟨ht, hframe, fun hok => by cases hok⟩
    · rename_i hidle
      obtain ⟨rfl, rfl⟩ := pure_some.mp hmatch
      simp only [Bool.or_eq_true, not_or, Bool.not_eq_true] at hidle
      obtain ⟨b, hb, rfl, -⟩ := ht.recency.hot id payload hpayload
      obtain rfl := Option.some.inj (hblock.symm.trans hb)
      have hsound := ht.enqueue hblock hidle.1 hidle.2
      refine ⟨hsound, hframe.trans ⟨rfl, rfl, rfl, rfl, rfl, SamePayloads.setBlock hblock rfl⟩, ?_⟩
      intro _ b' hb'
      rcases QsaKvStore.setBlock_cases hb' with ⟨-, rfl⟩ | ⟨hne, -⟩
      · exact Or.inr rfl
      · exact absurd rfl hne

theorem spill_some {r : Except String Bool} (h : Op.spill id s = some (r, s')) (hs : s.Sound)
    (hhot : id ∈ s.store.hot) :
    s'.Sound ∧ Frame s s' ∧ (r = .ok true → MayGo s' id) := by
  unfold Op.spill at h
  rw [get_bind] at h
  cases hblock : s.store.blocks.lookup id with
  | none =>
    rw [hblock] at h
    obtain ⟨rfl, rfl⟩ := pure_some.mp h
    refine ⟨hs, Frame.refl _, fun _ _ _ b hb => ?_⟩
    rw [hblock] at hb
    cases hb
  | some block =>
    rw [hblock] at h
    dsimp only at h
    split at h
    · rename_i hgo
      obtain ⟨rfl, rfl⟩ := pure_some.mp h
      refine ⟨hs, Frame.refl _, fun _ he hheld b hb => ?_⟩
      obtain rfl := Option.some.inj (hblock.symm.trans hb)
      rw [hheld] at hgo
      simp only [Bool.true_or, Bool.not_true, Bool.false_or, Bool.or_eq_true] at hgo
      rcases hgo with hready | hqueued
      · exact Or.inl hready
      · exact hs.contents.queued he id block hblock hqueued
    · obtain ⟨t, ht, rfl⟩ := holding_some h
      have hheld := hs.hold hblock fun _ => Or.inr hhot
      obtain ⟨htsound, htframe, hsafe⟩ := handOver_some ht hheld
      have hkeeps : Keeps Evolves (Op.handOver id block.bytes) :=
        fun _ _ _ hx hsx => ⟨(handOver_some hx hsx).1, (handOver_some hx hsx).2.1⟩
      obtain ⟨hs', hframe, -, -⟩ := Evolves.holding hkeeps (fun _ => hheld) h hs
      exact ⟨hs', hframe, fun hok _ _ b hb => hsafe hok b hb⟩

theorem forget_some (h : Op.forget id s = some (r, s')) (hs : s.Sound) (hgo : MayGo s id) :
    s'.Sound ∧ Frame s s' := by
  obtain ⟨-, rfl⟩ := Prod.mk.inj (Option.some.inj h)
  dsimp only
  split
  · exact ⟨hs, Frame.refl s⟩
  · rename_i block hblock
    have hsame : (s.store.dropHot id block.priority).blocks = s.store.blocks ∧
        (s.store.dropHot id block.priority).bufferBytes = s.store.bufferBytes := by
      unfold QsaKvStore.dropHot
      split
      · exact ⟨rfl, rfl⟩
      · exact ⟨rfl, rfl⟩
    exact ⟨hs.dropHot hblock fun he hheld => hgo he hheld block hblock,
      ⟨rfl, rfl, rfl, rfl, hsame.2, SamePayloads.of_blocks hsame.1⟩⟩

theorem coldest_some {c : QsaKvStore} (h : Op.coldest c = some id) : ∃ p, id ∈ c.lru p := by
  unfold Op.coldest at h
  split at h
  · exact ⟨0, mem_of_getLast? h⟩
  · split at h
    · exact ⟨1, mem_of_getLast? h⟩
    · exact ⟨2, mem_of_getLast? h⟩

theorem keeps_evict (fuel : Nat) : Keeps Evolves (Op.evict fuel) := by
  induction fuel with
  | zero => exact fun s r s' h => absurd h not_blocked
  | succ fuel ih =>
    intro s r s' h hs
    unfold Op.evict at h
    rw [get_bind] at h
    split at h
    · obtain ⟨-, rfl⟩ := pure_some.mp h
      exact ⟨hs, Frame.refl _⟩
    cases hcoldest : Op.coldest s.store with
    | none =>
      rw [hcoldest] at h
      exact absurd h not_blocked
    | some id =>
      rw [hcoldest] at h
      obtain ⟨p, hp⟩ := coldest_some hcoldest
      obtain ⟨-, -, -, hhot⟩ := hs.recency.listed p id hp
      rcases bind_some.mp h with ⟨e, hspill, -⟩ | ⟨goOn, t, hspill, hrest⟩
      · obtain ⟨hs', hframe, -⟩ := spill_some hspill hs hhot
        exact ⟨hs', hframe⟩
      obtain ⟨ht, hframe, hgo⟩ := spill_some hspill hs hhot
      split at hrest
      · rename_i hgoOn
        have hmay := hgo (by rw [hgoOn])
        rcases bind_some.mp hrest with ⟨e, hforget, -⟩ | ⟨_, t', hforget, hloop⟩
        · obtain ⟨hs', hframe'⟩ := forget_some hforget ht hmay
          exact ⟨hs', hframe.trans hframe'⟩
        · obtain ⟨ht', hframe'⟩ := forget_some hforget ht hmay
          obtain ⟨hs', hframe''⟩ := ih t' r s' hloop ht'
          exact ⟨hs', (hframe.trans hframe').trans hframe''⟩
      · obtain ⟨hs', hframe'⟩ := ih t r s' hrest ht
        exact ⟨hs', hframe.trans hframe'⟩

theorem keeps_evictAll : Keeps Evolves Op.evictAll := by
  intro s r s' h
  unfold Op.evictAll at h
  rw [get_bind] at h
  exact keeps_evict _ s r s' h

/-! ### Writing -/

theorem System.Sound.allocated {bytes : Bytes} {priority : Int} (hs : s.Sound)
    (htakes : ¬(bytes = [] ∨ s.store.bufferBytes / 2 < bytes.length ∨ priority < 0 ∨ 2 < priority)) :
    ({ s with
      store := Op.allocate s.store bytes priority.toNat
      locals := [s.store.nextId + 1] ++ s.locals } : System).Sound := by
  simp only [not_or] at htakes
  have hallocated := StoreInv.allocate hs ⟨length_pos_iff.mpr htakes.1, by omega⟩
    (show priority.toNat < 3 by omega)
  refine hallocated.mono fun id hid => ?_
  rcases (held_locals (s := { s with store := _ })).mp hid with hid' | hid'
  · exact Or.inl (mem_singleton.mp hid')
  · exact Or.inr hid'

/-- **`write`.**  What it returns is a block with those bytes, which the caller may keep. -/
theorem write_some {bytes : Bytes} {priority : Int} {r : Except String Nat}
    (h : Op.write bytes priority s = some (r, s')) (hs : s.Sound) :
    s'.Sound ∧ Frame s s' ∧ ∀ id, r = .ok id →
      ({ s' with locals := [id] ++ s'.locals } : System).Sound ∧
        ∃ b, s'.store.blocks.lookup id = some b ∧ b.payload = bytes := by
  have hfail : ∀ {t : System} {e : String}, t.Sound → Frame s t →
      t.Sound ∧ Frame s t ∧ ∀ id, (Except.error e : Except String Nat) = .ok id →
        ({ t with locals := [id] ++ t.locals } : System).Sound ∧
          ∃ b, t.store.blocks.lookup id = some b ∧ b.payload = bytes :=
    fun ht hf => ⟨ht, hf, fun _ hok => by cases hok⟩
  unfold Op.write at h
  rw [get_bind] at h
  split at h
  · obtain ⟨rfl, rfl⟩ := throw_some.mp h
    exact hfail hs (Frame.refl _)
  rename_i htakes
  rcases bind_some.mp h with ⟨e, hturn, rfl⟩ | ⟨turn, t, hturn, hrest⟩
  · obtain ⟨hs', hframe⟩ := keeps_turn _ _ _ hturn hs
    exact hfail hs' hframe
  obtain ⟨ht, hframe⟩ := keeps_turn _ _ _ hturn hs
  split at hrest
  · obtain ⟨rfl, rfl⟩ := throw_some.mp hrest
    exact hfail ht hframe
  rcases bind_some.mp hrest with ⟨e, hcheck, rfl⟩ | ⟨_, t', hcheck, hbody⟩
  · obtain ⟨rfl, -⟩ := check_some hcheck
    exact hfail ht hframe
  obtain ⟨rfl, -⟩ := check_some hcheck
  rw [get_bind] at hbody
  change (Op.holding [t'.store.nextId + 1] Op.evictAll >>= fun _ => pure (t'.store.nextId + 1))
    { t' with store := Op.allocate t'.store bytes priority.toNat } = some (r, s') at hbody
  rw [← hframe.bufferBytes] at htakes
  have hsound := ht.allocated htakes
  have hnew : (Op.allocate t'.store bytes priority.toNat).bufferBytes = t'.store.bufferBytes ∧
      ∃ b, (Op.allocate t'.store bytes priority.toNat).blocks =
        t'.store.blocks.insert (t'.store.nextId + 1) b ∧ b.payload = bytes := by
    unfold Op.allocate
    dsimp only
    split
    · exact ⟨rfl, _, rfl, rfl⟩
    · exact ⟨rfl, _, rfl, rfl⟩
  obtain ⟨hbuffer, block, hblocks, hpayload⟩ := hnew
  have hafter : ({ t' with store := Op.allocate t'.store bytes priority.toNat } : System).Sound :=
    hsound.mono fun id hid =>
      (held_locals (s := { t' with store := Op.allocate t'.store bytes priority.toNat })).mpr
        (Or.inr hid)
  have hframe' : Frame t' { t' with store := Op.allocate t'.store bytes priority.toNat } := by
    refine ⟨rfl, rfl, rfl, rfl, hbuffer, fun id b hid hb => ⟨b, ?_, rfl⟩⟩
    show (Op.allocate t'.store bytes priority.toNat).blocks.lookup id = some b
    rw [hblocks, Table.lookup_insert_ite, if_neg, hb]
    rintro rfl
    have hle := ht.places.named _ b hb
    omega
  rcases bind_some.mp hbody with ⟨e, hevict, rfl⟩ | ⟨_, u, hevict, hresult⟩
  · obtain ⟨hs', hframe'', -, -⟩ :=
      Evolves.holding keeps_evictAll (fun _ => hsound) hevict hafter
    exact hfail hs' ((hframe.trans hframe').trans hframe'')
  · obtain ⟨rfl, rfl⟩ := pure_some.mp hresult
    obtain ⟨hs', hframe'', hheld, hpay⟩ :=
      Evolves.holding keeps_evictAll (fun _ => hsound) hevict hafter
    refine ⟨hs', (hframe.trans hframe').trans hframe'', fun id hid => ?_⟩
    obtain rfl := Except.ok.inj hid
    refine ⟨hheld, ?_⟩
    obtain ⟨b, hb, hsame⟩ := hpay (t'.store.nextId + 1) block (Or.inl mem_cons_self) (by
      show (Op.allocate t'.store bytes priority.toNat).blocks.lookup _ = some block
      rw [hblocks, AList.lookup_insert])
    exact ⟨b, hb, hsame.trans hpayload⟩

/-! ### Reading -/

/-- **`read`.**  What it returns of a block that a client points to is what the block was
    written with. -/
theorem read_some {r : Except String Bytes} (h : Op.read id s = some (r, s')) (hs : s.Sound) :
    s'.Sound ∧ Frame s s' ∧ ∀ bytes, r = .ok bytes → s.held id = true →
      ∀ b, s.store.blocks.lookup id = some b → bytes = b.payload := by
  have hfail : ∀ {t : System} {e : String}, t.Sound → Frame s t →
      t.Sound ∧ Frame s t ∧ ∀ bytes, (Except.error e : Except String Bytes) = .ok bytes →
        s.held id = true → ∀ b, s.store.blocks.lookup id = some b → bytes = b.payload :=
    fun ht hf => ⟨ht, hf, fun _ hok => by cases hok⟩
  unfold Op.read at h
  rcases bind_some.mp h with ⟨e, hturn, rfl⟩ | ⟨turn, t, hturn, hrest⟩
  · obtain ⟨hs', hframe⟩ := keeps_turn _ _ _ hturn hs
    exact hfail hs' hframe
  obtain ⟨ht, hframe⟩ := keeps_turn _ _ _ hturn hs
  rcases bind_some.mp hrest with ⟨e, hcheck, rfl⟩ | ⟨_, t', hcheck, hbody⟩
  · obtain ⟨rfl, -⟩ := check_some hcheck
    exact hfail ht hframe
  obtain ⟨rfl, -⟩ := check_some hcheck
  rw [get_bind] at hbody
  cases hblock : t'.store.blocks.lookup id with
  | none =>
    rw [hblock] at hbody
    exact absurd hbody not_blocked
  | some block =>
  rw [hblock] at hbody
  dsimp only at hbody
  -- Whatever the block's record is by now, its payload is the one it had.
  have hsame : s.held id = true → ∀ b, s.store.blocks.lookup id = some b →
      block.payload = b.payload := by
    intro hheld b hb
    obtain ⟨b', hb', hpay⟩ := hframe.payloads id b hheld hb
    obtain rfl := Option.some.inj (hblock.symm.trans hb')
    exact hpay
  cases hpending : block.pending with
  | some payload =>
    rw [hpending] at hbody
    obtain ⟨rfl, rfl⟩ := pure_some.mp hbody
    refine ⟨ht, hframe, fun bytes hok hheld b hb => ?_⟩
    obtain rfl := Except.ok.inj hok
    exact (ht.contents.pending id block _ hblock hpending).1.trans (hsame hheld b hb)
  | none =>
  cases hcold : t'.store.hot.lookup id with
  | some payload =>
    rw [hpending, hcold] at hbody
    have hhot := hcold
    obtain ⟨rfl, rfl⟩ := pure_some.mp hbody
    obtain ⟨b₀, hb₀, hpayload, hlru⟩ := ht.recency.hot id payload hhot
    obtain rfl := Option.some.inj (hblock.symm.trans hb₀)
    refine ⟨ht.promote hlru, hframe.trans ⟨rfl, rfl, rfl, rfl, rfl, SamePayloads.of_blocks rfl⟩,
      fun bytes hok hheld b hb => ?_⟩
    obtain rfl := Except.ok.inj hok
    exact hpayload.trans (hsame hheld b hb)
  | none =>
    rw [hpending, hcold] at hbody
    dsimp only at hbody
    split at hbody
    · obtain ⟨rfl, rfl⟩ := throw_some.mp hbody
      exact hfail ht hframe
    rename_i hready
    split at hbody
    · obtain ⟨rfl, rfl⟩ := throw_some.mp hbody
      exact hfail ht hframe
    have hfile : QsaKvStore.readFile t'.store.file block.offset block.bytes = block.payload := by
      have hholds := (ht.contents.onFile id block hblock (Bool.of_not_eq_false hready)).2
      rw [← (ht.contents.sized id block hblock).1]
      exact hholds.readFile
    rw [hfile] at hbody
    split at hbody
    · have hwarm := ht.warm hblock hcold
      have hframe' : Frame t' { t' with store := Op.warm t'.store id block block.payload } :=
        ⟨rfl, rfl, rfl, rfl, rfl, SamePayloads.of_blocks rfl⟩
      change (Op.evictAll >>= fun _ => pure block.payload)
        { t' with store := Op.warm t'.store id block block.payload } = some (r, s') at hbody
      rcases bind_some.mp hbody with ⟨e, hevict, rfl⟩ | ⟨_, u, hevict, hresult⟩
      · obtain ⟨hs', hframe''⟩ := keeps_evictAll _ _ _ hevict hwarm
        exact hfail hs' ((hframe.trans hframe').trans hframe'')
      · obtain ⟨rfl, rfl⟩ := pure_some.mp hresult
        obtain ⟨hs', hframe''⟩ := keeps_evictAll _ _ _ hevict hwarm
        refine ⟨hs', (hframe.trans hframe').trans hframe'', fun bytes hok hheld b hb => ?_⟩
        obtain rfl := Except.ok.inj hok
        exact hsame hheld b hb
    · obtain ⟨rfl, rfl⟩ := pure_some.mp hbody
      refine ⟨ht, hframe, fun bytes hok hheld b hb => ?_⟩
      obtain rfl := Except.ok.inj hok
      exact hsame hheld b hb

end TyloQuant.QsaKv
