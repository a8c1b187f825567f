import TyloQuant.QsaKv.Refinement

/-!
# The store's calls succeed

A call waits for the worker in one place, where the eviction loop wants a block written.  When
no file operation has failed the worker can empty its queue there and the loop makes each pass
once, so that `read` and `write` can return; they do not throw unless a file operation fails or no
memory can be reserved.
-/

namespace TyloQuant.QsaKv

open Lib Call List

/-! ### Calls that can return -/

/-- In the turn no write to the file fails and no read, and `memory` says that memory can be
    reserved, too. -/
structure Turn.Faultless (memory : Bool) (t : Turn) : Prop where
  reads : t.readFails = false
  writes : ∀ e, Background.finish (some e) ∉ t.steps
  reserves : memory = true → t.reserveThrows = false

def Calm (memory : Bool) (schedule : List Turn) : Prop := ∀ t ∈ schedule, t.Faultless memory

/-- There is a schedule in which nothing fails and under which the call returns `a` and leaves `t`,
    whatever is scheduled after it. -/
def Returns {α : Type} (x : Op α) (s : System) (a : α) (t : System) : Prop :=
  ∃ schedule, Calm true schedule ∧ ∀ rest, x { s with schedule := schedule ++ rest } =
    some (.ok a, { t with schedule := rest })

variable {s t : System}

theorem Returns.of_eq {α : Type} {x : Op α} {a : α}
    (h : ∀ rest, x { s with schedule := rest } = some (.ok a, { t with schedule := rest })) :
    Returns x s a t :=
  ⟨[], nofun, h⟩

theorem Returns.bind {α β : Type} {x : Op α} {f : α → Op β} {u : System} {a : α} {b : β}
    (hx : Returns x s a t) (hf : Returns (f a) t b u) : Returns (x >>= f) s b u := by
  obtain ⟨first, hcalm, hfirst⟩ := hx
  obtain ⟨second, hcalm', hsecond⟩ := hf
  refine ⟨first ++ second, forall_mem_append.mpr ⟨hcalm, hcalm'⟩, fun rest => ?_⟩
  have hrun := hfirst (second ++ rest)
  rw [← List.append_assoc] at hrun
  rw [bind_returns hrun]
  exact hsecond rest

/-- What a call does may depend on the state, but not on what is scheduled. -/
theorem Returns.get_bind {β : Type} {f : System → Op β} {u : System} {b : β}
    (hf : ∀ schedule, f { s with schedule } = f s) (h : Returns (f s) s b u) :
    Returns (Call.get >>= f) s b u := by
  obtain ⟨schedule, hcalm, hrun⟩ := h
  refine ⟨schedule, hcalm, fun rest => ?_⟩
  rw [Call.get_bind, hf]
  exact hrun rest

theorem Returns.holding {α : Type} {ids : List Nat} {x : Op α} {a : α}
    (hx : Returns x { s with locals := ids ++ s.locals } a t) :
    Returns (Op.holding ids x) s a { t with locals := s.locals } := by
  obtain ⟨schedule, hcalm, hrun⟩ := hx
  refine ⟨schedule, hcalm, fun rest => ?_⟩
  have hstart := hrun rest
  unfold Op.holding
  dsimp only at hstart ⊢
  rw [hstart]
  rfl

theorem Returns.turn {steps : List Background} {c : QsaKvStore}
    (h : Op.burst s.held steps s.store = some c) (hsteps : ∀ e, Background.finish (some e) ∉ steps) :
    Returns Op.turn s { steps } { s with store := c } := by
  refine ⟨[{ steps }], forall_mem_singleton.mpr ⟨rfl, hsteps, fun _ => rfl⟩, fun rest => ?_⟩
  unfold Op.turn
  have hheld : ({ s with schedule := { steps } :: rest } : System).held = s.held := rfl
  show (Op.burst ({ s with schedule := { steps } :: rest } : System).held steps s.store).map _ = _
  rw [hheld, h]
  rfl

/-! ### The worker empties its queue -/

/-- What the worker changes while it only gets on with its queue. -/
structure Works (c c' : QsaKvStore) : Prop where
  blocks : ∀ id, id ∉ c.waiting → c'.blocks.lookup id = c.blocks.lookup id
  waiting : ∀ id, id ∈ c'.waiting → id ∈ c.waiting
  hot : c'.hot = c.hot
  error : c'.error = c.error

theorem Works.refl (c : QsaKvStore) : Works c c :=
  ⟨fun _ _ => rfl, fun _ => id, rfl, rfl⟩

variable {c' : QsaKvStore}

theorem Works.trans {c c'' : QsaKvStore} (h : Works c c') (h' : Works c' c'') : Works c c'' :=
  ⟨fun id hid => (h'.blocks id fun hid' => hid (h.waiting id hid')).trans (h.blocks id hid),
    fun id hid => h.waiting id (h'.waiting id hid), h'.hot.trans h.hot,
    h'.error.trans h.error⟩

theorem burst_append {held : Nat → Bool} {bs bs' : List Background} {c : QsaKvStore}
    (h : Op.burst held bs c = some c') : Op.burst held (bs ++ bs') c = Op.burst held bs' c' := by
  induction bs generalizing c with
  | nil =>
    obtain rfl := Option.some.inj h
    rfl
  | cons b bs ih =>
    obtain ⟨m, hm, hrest⟩ := Option.bind_eq_some_iff.mp h
    show (c.background held b).bind _ = _
    rw [hm]
    exact ih hrest

variable {id : Nat}

section Worker

variable {held : Nat → Bool} {c : QsaKvStore}

theorem settle_works {done : Nat} {block : Block} (hwriting : c.writing = some (id, done)) :
    Works c (c.settle id block none) := by
  have hfirst : id ∈ c.waiting := by
    unfold QsaKvStore.waiting
    rw [hwriting]
    exact mem_cons_self
  refine ⟨fun id' hid' => ?_, fun id' hid' => ?_, rfl, ?_⟩
  · show (c.setBlock id _).blocks.lookup id' = _
    rw [QsaKvStore.setBlock_lookup, if_neg]
    rintro rfl
    exact hid' hfirst
  · exact mem_append_right _ hid'
  · unfold QsaKvStore.settle
    dsimp only
    cases c.error with
    | none => rfl
    | some e => rfl

/-- The worker can end with the block that it is writing. -/
theorem finish_block (hc : StoreInv (fun id => held id = true) c) {done : Nat}
    (hwriting : c.writing = some (id, done)) :
    ∃ bs c', (Op.burst held bs c = some c' ∧ ∀ e, Background.finish (some e) ∉ bs) ∧ Works c c' ∧
      c'.writing = none ∧ c'.queue = c.queue := by
  have hwaiting : id ∈ c.waiting := by
    unfold QsaKvStore.waiting
    rw [hwriting]
    exact mem_cons_self
  obtain ⟨block, hblock⟩ := (Table.mem_iff _ _).mp (hc.contents.waitingLive id hwaiting)
  have hpending := (hc.contents.waiting id block hblock).mpr hwaiting
  obtain ⟨payload, hpayload⟩ := Option.isSome_iff_exists.mp hpending
  obtain ⟨hdone, -⟩ := hc.contents.progress id done hwriting block hblock
  have hfinish : ∀ {file : Bytes}, ({ c with file, writing := some (id, block.bytes) } :
      QsaKvStore).background held (.finish none) =
        some (({ c with file, writing := some (id, block.bytes) } : QsaKvStore).settle id block
          none) := by
    intro file
    unfold QsaKvStore.background
    simp only [Option.bind_some, hblock]
    exact if_pos (Or.inr trivial)
  rcases Nat.eq_or_lt_of_le hdone with rfl | hlt
  · have hsame : ({ c with writing := some (id, block.bytes) } : QsaKvStore) = c := by
      rw [← hwriting]
    refine ⟨[.finish none], c.settle id block none, ⟨?_, by simp⟩, settle_works hwriting, rfl, rfl⟩
    have hrun := @hfinish c.file
    rw [hsame] at hrun
    show (c.background held _).bind _ = _
    rw [hrun]
    rfl
  · let file := QsaKvStore.writeFile c.file (block.offset + done)
      ((payload.drop done).take (block.bytes - done))
    have hwrite : c.background held (.write (block.bytes - done)) =
        some { c with file, writing := some (id, block.bytes) } := by
      unfold QsaKvStore.background
      simp only [hwriting, Option.bind_some, hblock, hpayload]
      rw [if_pos ⟨by omega, by omega⟩, Nat.add_sub_cancel' hdone]
    have hworks : Works c { c with file, writing := some (id, block.bytes) } := by
      refine ⟨fun _ _ => rfl, fun id' hid' => ?_, rfl, rfl⟩
      unfold QsaKvStore.waiting at hid' ⊢
      rw [hwriting]
      exact hid'
    refine ⟨[.write (block.bytes - done), .finish none],
      ({ c with file, writing := some (id, block.bytes) } : QsaKvStore).settle id block none,
      ⟨?_, by simp⟩, hworks.trans (settle_works rfl), rfl, rfl⟩
    show (c.background held _).bind _ = _
    rw [hwrite]
    show (QsaKvStore.background held _ _).bind _ = _
    rw [hfinish]
    rfl

/-- **The worker can empty its queue.** -/
theorem drain (hc : StoreInv (fun id => held id = true) c) :
    ∃ bs c', (Op.burst held bs c = some c' ∧ ∀ e, Background.finish (some e) ∉ bs) ∧ Works c c' ∧
      c'.waiting = [] := by
  -- Induction on the blocks not yet taken; the one in hand is finished first.
  induction hqueue : c.queue generalizing c with
  | nil =>
    cases hwriting : c.writing with
    | none =>
      refine ⟨[], c, ⟨rfl, nofun⟩, Works.refl c, ?_⟩
      unfold QsaKvStore.waiting
      rw [hwriting, hqueue]
      rfl
    | some w =>
      obtain ⟨bs, c', hburst, hworks, hidle, hsame⟩ := finish_block hc hwriting
      refine ⟨bs, c', hburst, hworks, ?_⟩
      unfold QsaKvStore.waiting
      rw [hidle, hsame, hqueue]
      rfl
  | cons id rest ih =>
    have hfirst : ∃ bs m, (Op.burst held bs c = some m ∧ ∀ e, Background.finish (some e) ∉ bs) ∧
        Works c m ∧ m.writing = none ∧ m.queue = id :: rest := by
      cases hwriting : c.writing with
      | none => exact ⟨[], c, ⟨rfl, nofun⟩, Works.refl c, hwriting, hqueue⟩
      | some w =>
        obtain ⟨bs, c', hburst, hworks, hidle, hsame⟩ := finish_block hc hwriting
        exact ⟨bs, c', hburst, hworks, hidle, hsame.trans hqueue⟩
    obtain ⟨bs, m, ⟨hburst, hclean⟩, hworks, hidle, hnext⟩ := hfirst
    obtain ⟨hm, -, -⟩ := burst_sound hc hburst
    have htake : m.background held .take =
        some { m with writing := some (id, 0), queue := rest } := by
      unfold QsaKvStore.background
      rw [hidle, hnext]
    have hworks' : Works m { m with writing := some (id, 0), queue := rest } := by
      refine ⟨fun _ _ => rfl, fun id' hid' => ?_, rfl, rfl⟩
      unfold QsaKvStore.waiting at hid' ⊢
      rw [hidle, hnext]
      exact hid'
    obtain ⟨bs', c', ⟨hburst', hclean'⟩, hworks'', hdone⟩ := ih (hm.take hidle hnext) rfl
    refine ⟨bs ++ .take :: bs', c', ⟨?_, by simp [hclean, hclean']⟩,
      (hworks.trans hworks').trans hworks'', hdone⟩
    rw [burst_append hburst]
    show (m.background held _).bind _ = _
    rw [htake]
    exact hburst'

end Worker

/-! ### Eviction makes room -/

theorem check_returns (he : s.store.error = none) : Op.check s = some (.ok (), s) := by
  unfold Op.check
  rw [get_bind, he]
  rfl

/-- The state is in order, and no file operation has failed. -/
structure Ready (s : System) : Prop where
  sound : s.Sound
  error : s.store.error = none

theorem handOver_returns {block : Block} (hs : Ready s)
    (hblock : s.store.blocks.lookup id = some block) (hhot : id ∈ s.store.hot)
    (hready : block.ready = false) (hqueued : block.queued = false) :
    ∃ t, Returns (Op.handOver id block.bytes) s true t ∧ Ready t ∧
      t.store.hot = s.store.hot := by
  obtain ⟨hs, he⟩ := hs
  obtain ⟨bs, c, ⟨hburst, hclean⟩, hworks, hdone⟩ := drain hs
  obtain ⟨hc, -, -⟩ := burst_sound hs hburst
  have hidle : id ∉ s.store.waiting := by
    intro hwaiting
    have hpending := (hs.contents.waiting id block hblock).mpr hwaiting
    obtain ⟨p, hp⟩ := Option.isSome_iff_exists.mp hpending
    have hqueued' := (hs.contents.pending id block p hblock hp).2.1
    rw [hqueued] at hqueued'
    cases hqueued'
  have hblock' : c.blocks.lookup id = some block := (hworks.blocks id hidle).trans hblock
  obtain ⟨payload, hpayload⟩ := (Table.mem_iff _ _).mp hhot
  have hpayload' : c.hot.lookup id = some payload := by
    rw [hworks.hot]
    exact hpayload
  have hempty : c.pendingBytes = 0 := by
    rw [hc.contents.counted, hdone]
    rfl
  obtain ⟨b, hb, rfl, -⟩ := hc.recency.hot id payload hpayload'
  obtain rfl := Option.some.inj (hblock'.symm.trans hb)
  refine ⟨{ s with store := Op.enqueue c id block block.payload }, ?_, ?_, hworks.hot⟩
  · refine Returns.bind (Returns.turn hburst hclean) (Returns.of_eq fun rest => ?_)
    rw [get_bind]
    dsimp only
    rw [hempty, hworks.error, he, if_neg (by simp)]
    rw [bind_returns (check_returns (hworks.error.trans he))]
    rw [hpayload', hblock']
    dsimp only
    rw [hqueued, hready]
    rfl
  · exact ⟨hc.enqueue hblock' hqueued hready, hworks.error.trans he⟩

theorem spill_returns (hready : Ready s) (hhot : id ∈ s.store.hot) :
    ∃ t, Returns (Op.spill id) s true t ∧ Ready t ∧ t.store.hot = s.store.hot ∧ MayGo t id := by
  obtain ⟨hs, he⟩ := hready
  obtain ⟨payload, hpayload⟩ := (Table.mem_iff _ _).mp hhot
  obtain ⟨block, hblock, -, -⟩ := hs.recency.hot id payload hpayload
  have hgo : ∀ {t : System}, Returns (Op.spill id) s true t → MayGo t id := by
    rintro t ⟨schedule, -, hrun⟩
    obtain ⟨-, -, hmay⟩ := spill_some (hrun []) hs hhot
    exact hmay rfl
  have hspill : ∀ rest, Op.spill id { s with schedule := rest } =
      (if !(s.held id || s.store.queue.contains id || s.store.writing.map Prod.fst == some id) ||
          block.ready || block.queued then pure true
        else Op.holding [id] (Op.handOver id block.bytes)) { s with schedule := rest } := by
    intro rest
    unfold Op.spill
    rw [get_bind]
    dsimp only
    rw [hblock]
    rfl
  by_cases hnothing : (!(s.held id || s.store.queue.contains id ||
      s.store.writing.map Prod.fst == some id) || block.ready || block.queued) = true
  · have hreturns : Returns (Op.spill id) s true s := by
      refine Returns.of_eq fun rest => ?_
      rw [hspill, if_pos hnothing]
      rfl
    exact ⟨s, hreturns, ⟨hs, he⟩, rfl, hgo hreturns⟩
  · have hidle : block.ready = false ∧ block.queued = false := by
      simp only [Bool.or_eq_true, not_or, Bool.not_eq_true] at hnothing
      exact ⟨hnothing.1.2, hnothing.2⟩
    have hheld : Ready { s with locals := [id] ++ s.locals } :=
      ⟨hs.hold hblock fun _ => Or.inr hhot, he⟩
    obtain ⟨t, hover, hready, hsame⟩ := handOver_returns hheld hblock hhot hidle.1 hidle.2
    obtain ⟨schedule, hcalm, hrun⟩ := Returns.holding hover
    have hreturns : ∀ rest, Op.spill id { s with schedule := schedule ++ rest } =
        some (.ok true, { t with locals := s.locals, schedule := rest }) := by
      intro rest
      rw [hspill, if_neg hnothing]
      exact hrun rest
    obtain ⟨hsound, -, -⟩ := spill_some (hreturns []) hs hhot
    exact ⟨{ t with locals := s.locals }, ⟨schedule, hcalm, hreturns⟩, ⟨hsound, hready.error⟩, hsame,
      hgo ⟨schedule, hcalm, hreturns⟩⟩

/-- There is a coldest block as long as any is hot. -/
theorem coldest_of_hot (hs : s.Sound) (hhot : s.store.hot.entries ≠ []) :
    ∃ id, Op.coldest s.store = some id ∧ id ∈ s.store.hot := by
  obtain ⟨entry, hentry⟩ := exists_mem_of_ne_nil _ hhot
  obtain ⟨block, hblock, -, hlru⟩ := hs.recency.hot _ _ (Table.lookup_of_mem_entries hentry)
  obtain ⟨-, -, -, hpriority⟩ := hs.contents.sized _ _ hblock
  have hlast : ∃ id, Op.coldest s.store = some id := by
    unfold Op.coldest
    have hsome : ∀ {l : List Nat}, l ≠ [] → ∃ id, l.getLast? = some id := fun hne =>
      ⟨_, getLast?_eq_some_getLast hne⟩
    split
    · rename_i h0
      exact hsome h0
    · rename_i h0
      split
      · rename_i h1
        exact hsome h1
      · rename_i h1
        refine hsome (ne_nil_of_mem (a := entry.1) ?_)
        have hcases : block.priority = 0 ∨ block.priority = 1 ∨ block.priority = 2 := by omega
        rcases hcases with hp | hp | hp
        · rw [hp] at hlru
          exact absurd (ne_nil_of_mem hlru) h0
        · rw [hp] at hlru
          exact absurd (ne_nil_of_mem hlru) h1
        · rw [hp] at hlru
          exact hlru
  obtain ⟨id, hid⟩ := hlast
  obtain ⟨p, hp⟩ := coldest_some hid
  obtain ⟨-, -, -, hmem⟩ := hs.recency.listed p id hp
  exact ⟨id, hid, hmem⟩

theorem forget_returns (hready : Ready s) (hhot : id ∈ s.store.hot) (hgo : MayGo s id) :
    ∃ t, Returns (Op.forget id) s () t ∧ Ready t ∧
      t.store.hot.entries.length + 1 = s.store.hot.entries.length := by
  obtain ⟨hs, he⟩ := hready
  obtain ⟨payload, hpayload⟩ := (Table.mem_iff _ _).mp hhot
  obtain ⟨block, hblock, -, -⟩ := hs.recency.hot id payload hpayload
  have hforget : ∀ rest, Op.forget id { s with schedule := rest } =
      some (.ok (), { s with
        store := s.store.dropHot id block.priority, schedule := rest }) := by
    intro rest
    unfold Op.forget Op.modifyStore Call.modify
    dsimp only
    rw [hblock]
  obtain ⟨hsound, -⟩ := forget_some (hforget []) hs hgo
  have hdrop : s.store.dropHot id block.priority = { s.store with
      hotBytes := s.store.hotBytes - payload.length
      lru := Function.update s.store.lru block.priority ((s.store.lru block.priority).erase id)
      hot := s.store.hot.erase id } := by
    unfold QsaKvStore.dropHot
    rw [hpayload]
  refine ⟨{ s with store := s.store.dropHot id block.priority }, Returns.of_eq hforget,
    ⟨hsound, ?_⟩, ?_⟩
  · rw [hdrop]
    exact he
  · rw [hdrop]
    exact Table.length_erase hpayload

variable {fuel : Nat}

/-- **The eviction loop returns**: each pass takes one hot entry. -/
theorem evict_returns (hs : Ready s) (hfuel : s.store.hot.entries.length < fuel) :
    ∃ t, Returns (Op.evict fuel) s () t ∧ Ready t := by
  induction fuel generalizing s with
  | zero => exact absurd hfuel (Nat.not_lt_zero _)
  | succ fuel ih =>
    by_cases hroom : s.store.hotBytes ≤ s.store.hotLimit ∨ s.store.hot.entries = []
    · refine ⟨s, Returns.of_eq fun rest => ?_, hs⟩
      unfold Op.evict
      rw [get_bind]
      exact congrFun (if_pos hroom) _
    · obtain ⟨id, hcoldest, hhot⟩ := coldest_of_hot hs.sound fun hnone => hroom (Or.inr hnone)
      obtain ⟨t, hspill, ht, hsame, hgo⟩ := spill_returns hs hhot
      obtain ⟨u, hforget, hu, hless⟩ := forget_returns ht (hsame ▸ hhot) hgo
      obtain ⟨v, hloop, hv⟩ := ih hu (by rw [hsame] at hless; omega)
      refine ⟨v, ?_, hv⟩
      have hpass : Returns (Op.spill id >>= fun goOn =>
          if goOn = true then Op.forget id >>= fun _ => Op.evict fuel else Op.evict fuel)
          s () v :=
        hspill.bind (Returns.bind hforget hloop)
      obtain ⟨schedule, hcalm, hrun⟩ := hpass
      refine ⟨schedule, hcalm, fun rest => ?_⟩
      unfold Op.evict
      rw [get_bind]
      dsimp only
      rw [if_neg hroom, hcoldest]
      exact hrun rest

theorem evictAll_returns (hs : Ready s) : ∃ t, Returns Op.evictAll s () t ∧ Ready t := by
  obtain ⟨t, ⟨schedule, hcalm, hrun⟩, ht⟩ := evict_returns hs (Nat.lt_succ_self _)
  refine ⟨t, ⟨schedule, hcalm, fun rest => ?_⟩, ht⟩
  unfold Op.evictAll
  rw [get_bind]
  exact hrun rest

/-! ### Reading and writing -/

/-- **`read` can return**, for a block that a client points to. -/
theorem read_returns (hready : Ready s) (hheld : s.held id = true) {payload : Bytes}
    (hb : BlockOf s.store id payload) : ∃ t, Returns (Op.read id) s payload t ∧ Ready t := by
  obtain ⟨hs, he⟩ := hready
  obtain ⟨block, hblock, rfl⟩ := hb
  have hcheck : Returns Op.check s () s := Returns.of_eq fun rest => check_returns he
  have hturn : Returns Op.turn s {} s := Returns.turn rfl nofun
  unfold Op.read
  cases hpending : block.pending with
  | some payload =>
    refine ⟨s, hturn.bind (hcheck.bind (Returns.get_bind (fun _ => rfl) ?_)), hs, he⟩
    dsimp only
    rw [hblock]
    dsimp only
    rw [hpending, (hs.contents.pending id block payload hblock hpending).1]
    exact Returns.of_eq fun rest => rfl
  | none =>
  cases hhot : s.store.hot.lookup id with
  | some payload =>
    obtain ⟨b, hb, hpayload, hlru⟩ := hs.recency.hot id payload hhot
    obtain rfl := Option.some.inj (hblock.symm.trans hb)
    refine ⟨{ s with store := { s.store with
        lru := Function.update s.store.lru block.priority
          (id :: (s.store.lru block.priority).erase id) } },
      hturn.bind (hcheck.bind (Returns.get_bind (fun _ => rfl) ?_)), hs.promote hlru, he⟩
    dsimp only
    rw [hblock]
    dsimp only
    rw [hpending, hhot, hpayload]
    exact Returns.of_eq fun rest => rfl
  | none =>
    -- Neither pending nor in the RAM: the block is on file, whole.
    obtain ⟨hready, hfile⟩ := hs.contents.cold he hheld hblock hpending hhot
    have hlength : ¬(({} : Turn).readFails = true ∨ block.payload.length < block.bytes) := by
      rw [(hs.contents.sized id block hblock).1]
      simp
    by_cases hroom : block.payload.length ≤ s.store.hotLimit
    · have hwarmed : Ready { s with store := Op.warm s.store id block block.payload } :=
        ⟨hs.warm hblock hhot, he⟩
      obtain ⟨t, hevict, ht⟩ := evictAll_returns hwarmed
      refine ⟨t, hturn.bind (hcheck.bind (Returns.get_bind (fun _ => rfl) ?_)), ht⟩
      dsimp only
      rw [hblock]
      dsimp only
      rw [hpending, hhot]
      dsimp only
      rw [hfile, if_neg (by rw [hready]; decide), if_neg hlength, if_pos hroom]
      exact Returns.bind (Returns.of_eq fun rest => rfl)
        (hevict.bind (Returns.of_eq fun rest => rfl))
    · refine ⟨s, hturn.bind (hcheck.bind (Returns.get_bind (fun _ => rfl) ?_)), hs, he⟩
      dsimp only
      rw [hblock]
      dsimp only
      rw [hpending, hhot]
      dsimp only
      rw [hfile, if_neg (by rw [hready]; decide), if_neg hlength, if_neg hroom]
      exact Returns.of_eq fun rest => rfl

/-- **`write` can return**, for bytes and a priority that it takes. -/
theorem write_returns {bytes : Bytes} {priority : Int} (hready : Ready s)
    (htakes : ¬(bytes = [] ∨ s.store.bufferBytes / 2 < bytes.length ∨ priority < 0 ∨ 2 < priority)) :
    ∃ id t, Returns (Op.write bytes priority) s id t ∧ t.store.error = none := by
  obtain ⟨hs, he⟩ := hready
  have herror : (Op.allocate s.store bytes priority.toNat).error = none := by
    unfold Op.allocate
    dsimp only
    split
    · exact he
    · exact he
  obtain ⟨t, hevict, ht⟩ := evictAll_returns (s := { s with
    store := Op.allocate s.store bytes priority.toNat
    locals := [s.store.nextId + 1] ++ s.locals }) ⟨hs.allocated htakes, herror⟩
  have hturn : Returns Op.turn s {} s := Returns.turn rfl nofun
  have hcheck : Returns Op.check s () s := Returns.of_eq fun rest => check_returns he
  have hmodify : Returns (Op.modifyStore fun c => Op.allocate c bytes priority.toNat) s ()
      { s with store := Op.allocate s.store bytes priority.toNat } := Returns.of_eq fun rest => rfl
  refine ⟨s.store.nextId + 1, { t with locals := s.locals }, ?_, ht.error⟩
  unfold Op.write
  refine Returns.get_bind (fun _ => rfl) ?_
  rw [if_neg htakes]
  refine hturn.bind (hcheck.bind (Returns.get_bind (fun _ => rfl) ?_))
  exact hmodify.bind ((Returns.holding hevict).bind (Returns.of_eq fun rest => rfl))

/-! ### Calls that cannot throw -/

/-- No file operation has failed, and none is going to. -/
structure Faultless (memory : Bool) (s : System) : Prop where
  error : s.store.error = none
  schedule : Calm memory s.schedule

variable {memory : Bool}

/-- The call, if it ends, returns, and comes to such a state. -/
def NoThrow {α : Type} (memory : Bool) (x : Op α) (s : System) : Prop :=
  ∀ r s', x s = some (r, s') → (∃ a, r = .ok a) ∧ Faultless memory s'

theorem NoThrow.bind {α β : Type} {x : Op α} {f : α → Op β} (hx : NoThrow memory x s)
    (hf : ∀ a t, x s = some (.ok a, t) → NoThrow memory (f a) t) : NoThrow memory (x >>= f) s := by
  intro r s' h
  rcases bind_some.mp h with ⟨e, he, -⟩ | ⟨a, t, ha, hrest⟩
  · obtain ⟨⟨a, ha⟩, -⟩ := hx _ _ he
    cases ha
  · exact hf a t ha r s' hrest

theorem NoThrow.pure {α : Type} (hs : Faultless memory s) (a : α) :
    NoThrow memory (Pure.pure a : Op α) s := by
  intro r s' h
  obtain ⟨rfl, rfl⟩ := pure_some.mp h
  exact ⟨⟨a, rfl⟩, hs⟩

theorem NoThrow.holding {α : Type} {ids : List Nat} {x : Op α}
    (hx : NoThrow memory x { s with locals := ids ++ s.locals }) :
    NoThrow memory (Op.holding ids x) s := by
  intro r s' h
  obtain ⟨t, ht, rfl⟩ := holding_some h
  obtain ⟨hok, ht'⟩ := hx r t ht
  exact ⟨hok, ht'.error, ht'.schedule⟩

theorem background_error {held : Nat → Bool} {c : QsaKvStore} {b : Background}
    (hb : ∀ e, b ≠ .finish (some e)) (h : c.background held b = some c') (he : c.error = none) :
    c'.error = none := by
  cases b with
  | take =>
    unfold QsaKvStore.background at h
    dsimp only at h
    split at h
    · obtain rfl := Option.some.inj h
      exact he
    · cases h
  | write count =>
    obtain ⟨w, -, hrest⟩ := Option.bind_eq_some_iff.mp h
    obtain ⟨block, -, hrest'⟩ := Option.bind_eq_some_iff.mp hrest
    obtain ⟨payload, -, hresult⟩ := Option.bind_eq_some_iff.mp hrest'
    split at hresult
    · obtain rfl := Option.some.inj hresult
      exact he
    · cases hresult
  | finish failure =>
    obtain ⟨w, -, hrest⟩ := Option.bind_eq_some_iff.mp h
    obtain ⟨block, -, hresult⟩ := Option.bind_eq_some_iff.mp hrest
    split at hresult
    · obtain rfl := Option.some.inj hresult
      cases failure with
      | none =>
        unfold QsaKvStore.settle
        rw [he]
      | some e => exact absurd rfl (hb e)
    · cases hresult
  | release id truncates =>
    obtain ⟨block, -, hresult⟩ := Option.bind_eq_some_iff.mp h
    split at hresult
    · cases hresult
    · obtain rfl := Option.some.inj hresult
      have hdrop : (c.dropHot id block.priority).error = c.error := by
        unfold QsaKvStore.dropHot
        split
        · rfl
        · rfl
      unfold QsaKvStore.release
      dsimp only
      split
      · exact hdrop.trans he
      · exact hdrop.trans he

theorem burst_error {held : Nat → Bool} {bs : List Background} {c : QsaKvStore}
    (hbs : ∀ e, Background.finish (some e) ∉ bs) (h : Op.burst held bs c = some c')
    (he : c.error = none) : c'.error = none := by
  induction bs generalizing c with
  | nil =>
    obtain rfl := Option.some.inj h
    exact he
  | cons b bs ih =>
    obtain ⟨m, hm, hrest⟩ := Option.bind_eq_some_iff.mp h
    refine ih (fun e hmem => hbs e (mem_cons_of_mem b hmem)) hrest
      (background_error (fun e hb => ?_) hm he)
    exact hbs e (hb ▸ mem_cons_self)

theorem turn_faultless {s' : System} {r : Except String Turn} (hs : Faultless memory s)
    (h : Op.turn s = some (r, s')) :
    (∃ t, r = .ok t ∧ t.Faultless memory) ∧ Faultless memory s' := by
  unfold Op.turn at h
  cases hschedule : s.schedule with
  | nil =>
    rw [hschedule] at h
    obtain ⟨rfl, rfl⟩ := Prod.mk.inj (Option.some.inj h)
    exact ⟨⟨{}, rfl, rfl, nofun, fun _ => rfl⟩, hs⟩
  | cons t rest =>
    rw [hschedule] at h
    obtain ⟨store, hburst, hresult⟩ := Option.map_eq_some_iff.mp h
    obtain ⟨rfl, rfl⟩ := Prod.mk.inj hresult
    have hall := hs.schedule
    rw [hschedule] at hall
    have ht := hall t mem_cons_self
    exact ⟨⟨t, rfl, ht⟩, burst_error ht.writes hburst hs.error,
      fun t' ht' => hall t' (mem_cons_of_mem t ht')⟩

theorem handOver_faultless (hs : Faultless memory s) : NoThrow memory (Op.handOver id size) s := by
  unfold Op.handOver
  refine NoThrow.bind (fun r s' h => ?_) fun t u hturn r s' h => ?_
  · obtain ⟨⟨t, ht, -⟩, hs'⟩ := turn_faultless hs h
    exact ⟨⟨t, ht⟩, hs'⟩
  obtain ⟨-, hu⟩ := turn_faultless hs hturn
  rw [get_bind] at h
  split at h
  · exact absurd h not_blocked
  rw [bind_returns (check_returns hu.error)] at h
  cases hpayload : u.store.hot.lookup id with
  | none =>
    rw [hpayload] at h
    exact NoThrow.pure hu false r s' h
  | some payload =>
  cases hblock : u.store.blocks.lookup id with
  | none =>
    rw [hpayload, hblock] at h
    exact NoThrow.pure hu false r s' h
  | some block =>
    rw [hpayload, hblock] at h
    dsimp only at h
    split at h
    · exact NoThrow.pure hu false r s' h
    · obtain ⟨rfl, rfl⟩ := pure_some.mp h
      exact ⟨⟨true, rfl⟩, hu.error, hu.schedule⟩

theorem spill_faultless (hs : Faultless memory s) : NoThrow memory (Op.spill id) s := by
  intro r s' h
  unfold Op.spill at h
  rw [get_bind] at h
  cases hblock : s.store.blocks.lookup id with
  | none =>
    rw [hblock] at h
    exact NoThrow.pure hs true r s' h
  | some block =>
    rw [hblock] at h
    dsimp only at h
    split at h
    · exact NoThrow.pure hs true r s' h
    · exact NoThrow.holding (handOver_faultless ⟨hs.error, hs.schedule⟩) r s' h

theorem forget_faultless (hs : Faultless memory s) : NoThrow memory (Op.forget id) s := by
  intro r s' h
  obtain ⟨rfl, rfl⟩ := Prod.mk.inj (Option.some.inj h)
  refine ⟨⟨_, rfl⟩, ?_, hs.schedule⟩
  dsimp only
  split
  · exact hs.error
  · unfold QsaKvStore.dropHot
    split
    · exact hs.error
    · exact hs.error

theorem evict_faultless (hs : Faultless memory s) : NoThrow memory (Op.evict fuel) s := by
  induction fuel generalizing s with
  | zero => exact fun r s' h => absurd h not_blocked
  | succ fuel ih =>
    intro r s' h
    unfold Op.evict at h
    rw [get_bind] at h
    split at h
    · exact NoThrow.pure hs () r s' h
    cases hcoldest : Op.coldest s.store with
    | none =>
      rw [hcoldest] at h
      exact absurd h not_blocked
    | some id =>
      rw [hcoldest] at h
      refine NoThrow.bind (spill_faultless hs) (fun goOn t hspill => ?_) r s' h
      obtain ⟨-, ht⟩ := spill_faultless hs _ _ hspill
      cases goOn with
      | false => exact ih ht
      | true =>
        refine NoThrow.bind (forget_faultless ht) fun _ u hforget => ?_
        exact ih (forget_faultless ht _ _ hforget).2

theorem evictAll_faultless (hs : Faultless memory s) : NoThrow memory Op.evictAll s := by
  intro r s' h
  unfold Op.evictAll at h
  rw [get_bind] at h
  exact evict_faultless hs r s' h

/-- A read of a block that a client points to. -/
theorem read_faultless (hs : s.Sound) (hclean : Faultless memory s) (hheld : s.held id = true) :
    NoThrow memory (Op.read id) s := by
  intro r s' h
  unfold Op.read at h
  rcases bind_some.mp h with ⟨e, hturn, -⟩ | ⟨turn, t, hturn, hrest⟩
  · obtain ⟨⟨t, ht, -⟩, -⟩ := turn_faultless hclean hturn
    cases ht
  obtain ⟨⟨turn', hok, hreads⟩, ht⟩ := turn_faultless hclean hturn
  obtain rfl := Except.ok.inj hok
  obtain ⟨hsound, hframe⟩ := keeps_turn _ _ _ hturn hs
  have hheld' : t.held id = true := (hframe.held id).trans hheld
  rw [bind_returns (check_returns ht.error), get_bind] at hrest
  cases hblock : t.store.blocks.lookup id with
  | none =>
    rw [hblock] at hrest
    exact absurd hrest not_blocked
  | some block =>
  rw [hblock] at hrest
  dsimp only at hrest
  cases hpending : block.pending with
  | some payload =>
    rw [hpending] at hrest
    exact NoThrow.pure ht payload r s' hrest
  | none =>
  cases hhot : t.store.hot.lookup id with
  | some payload =>
    rw [hpending, hhot] at hrest
    obtain ⟨rfl, rfl⟩ := pure_some.mp hrest
    exact ⟨⟨payload, rfl⟩, ht.error, ht.schedule⟩
  | none =>
    obtain ⟨hready, hfile⟩ := hsound.contents.cold ht.error hheld' hblock hpending hhot
    rw [hpending, hhot] at hrest
    dsimp only at hrest
    rw [hfile, if_neg (by rw [hready]; decide), if_neg (by
      rw [hreads.reads, (hsound.contents.sized id block hblock).1]
      simp)] at hrest
    split at hrest
    · have hwarm : Faultless memory { t with store := Op.warm t.store id block block.payload } :=
        ⟨ht.error, ht.schedule⟩
      refine NoThrow.bind (fun r u h => ?_) (fun _ u h => ?_) r s' hrest
      · obtain ⟨rfl, rfl⟩ := Prod.mk.inj (Option.some.inj h)
        exact ⟨⟨_, rfl⟩, hwarm⟩
      · obtain ⟨-, rfl⟩ := Prod.mk.inj (Option.some.inj h)
        exact NoThrow.bind (evictAll_faultless hwarm) fun _ v hevict =>
          NoThrow.pure (evictAll_faultless hwarm _ _ hevict).2 _
    · exact NoThrow.pure ht block.payload r s' hrest

theorem write_faultless {bytes : Bytes} {priority : Int} (hclean : Faultless true s)
    (htakes : ¬(bytes = [] ∨ s.store.bufferBytes / 2 < bytes.length ∨ priority < 0 ∨ 2 < priority)) :
    NoThrow true (Op.write bytes priority) s := by
  intro r s' h
  unfold Op.write at h
  rw [get_bind, if_neg htakes] at h
  rcases bind_some.mp h with ⟨e, hturn, -⟩ | ⟨turn, t, hturn, hrest⟩
  · obtain ⟨⟨t, ht, -⟩, -⟩ := turn_faultless hclean hturn
    cases ht
  obtain ⟨⟨turn', hok, hturns⟩, ht⟩ := turn_faultless hclean hturn
  obtain rfl := Except.ok.inj hok
  rw [if_neg (by rw [hturns.reserves rfl]; decide), bind_returns (check_returns ht.error),
    get_bind] at hrest
  have hallocated : Faultless true { t with
      store := Op.allocate t.store bytes priority.toNat } := by
    refine ⟨?_, ht.schedule⟩
    unfold Op.allocate
    dsimp only
    split
    · exact ht.error
    · exact ht.error
  have hevict : NoThrow true (Op.holding [t.store.nextId + 1] Op.evictAll) { t with
      store := Op.allocate t.store bytes priority.toNat } :=
    NoThrow.holding (evictAll_faultless ⟨hallocated.error, hallocated.schedule⟩)
  exact NoThrow.bind hevict (fun _ u hu => NoThrow.pure (hevict _ _ hu).2 _) r s' hrest

end TyloQuant.QsaKv
