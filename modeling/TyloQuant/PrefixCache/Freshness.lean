import TyloQuant.PrefixCache.Coherence
import TyloQuant.PrefixCache.Opening
import TyloQuant.PrefixCache.Writes

/-!
# Replaced blocks stay replaced, invalidated blocks stay invalidated

After a `replace` of a block its old payload may still be in the file while the replacing write is
on its way; a load that starts then finds the new payload in RAM or in the queue.  After an
`invalidate` the block is in no tier.

What breaks this is `load_prefix` itself: it reads cold files without the lock and afterwards puts
what it read into RAM, although the block may have been replaced or invalidated meanwhile.  In the
runs below a finishing load puts back only current payloads (and the slips of the accounting and of
the dirty set are not reached).
-/

namespace TyloQuant.PrefixCache

open Lib

variable {H : Type} [DecidableEq H]

/-! ### The runs -/

/-- What a finishing load puts back is what its block stands for at that moment. -/
def putsBackCurrent (c : Cache H) (x : H × Payload) : Bool := decide (c.current x.1 = some x.2)

/-- Neither a `clear` nor a change of the disk limit. -/
def Action.interleaved : Action H → Prop
  | .setDiskLimit _ => False
  | .clearBegin _ => False
  | .clearEnd => False
  | _ => True

/-- Writes succeed. -/
def Action.writesSucceed : Action H → Prop
  | .publish _ outcome => outcome = .written
  | _ => True

instance (a : Action H) : Decidable a.interleaved := by
  apply @Action.casesOn _ (fun a => Decidable (a.interleaved)) a <;> intros <;>
    unfold Action.interleaved <;> infer_instance

instance (a : Action H) : Decidable a.writesSucceed := by
  apply @Action.casesOn _ (fun a => Decidable (a.writesSucceed)) a <;> intros <;>
    unfold Action.writesSucceed <;> infer_instance

/-- The slips are not reached: no `store` marks its own block dirty again, and a finishing load
    puts back current payloads only, over a dirty block only what RAM can take. -/
def FreshSafe (s : System H) (a : Action H) : Prop :=
  DirtySafe s a ∧ StatSucceeds s a ∧ loadsMeet putsBackCurrent s a = true

instance (s : System H) (a : Action H) : Decidable (FreshSafe s a) :=
  inferInstanceAs (Decidable (_ ∧ _ ∧ _))

/-- An action of the runs in question. -/
structure Action.Regular (a : Action H) : Prop where
  interleaved : a.interleaved
  writes : a.writesSucceed
  removes : a.removesSucceed

/-! ### One step of the writes under way -/

/-- The writes under way, seen from block `h` and a set `F` of payloads. -/
def Watched (F : Payload → Prop) (h : H) (s : System H) : Prop :=
  Tracked (fun q => F q ∨ unwrittenReplace s.writers h) h (writing s.writers)
    (published s.writers) s.cache

variable {call : Nat} {args : StoreArgs H}

theorem watched_store {F F' : Payload → Prop} {h : H} {s s' : System H} {env : Env H}
    (hs : Watched F h s) (hsafe : FreshSafe s (.store call args env)) (hrem : env.RemovesSucceed)
    (hkeep : ¬(args.hash s.cache.config = h ∧ args.replaceExisting = true) → ∀ q, F q → F' q)
    (hstep : step s (.store call args env) = some s') : Watched F' h s' := by
  obtain ⟨hready, hid, rfl⟩ := step_store hstep
  unfold Watched
  rw [addWriter_cache, addWriter_writers, writing_addWriter hid]
  refine Tracked.relabel (Tracked.storeLocked hs hrem published_writing args hready
    hsafe.1.1 ?_ ?_) fun k hk => published_addWriter hid hk
  · rintro hplain q (hF | hu)
    · exact Or.inl (hkeep hplain q hF)
    · exact Or.inr (unwrittenReplace_addWriter hid _ hu)
  · intro hhash hrep hinline q
    rw [hinline]
    exact Or.inr ⟨_, _, AList.lookup_insert s.writers, hhash, hrep⟩

variable {writer : WriterId}

theorem watched_publish {F : Payload → Prop} {h : H} {s s' : System H} (hs : Watched F h s)
    (hnew : ∀ w, s.writers.lookup writer = some ⟨w, .unwritten⟩ → w.hash = h → F w.payload)
    (hstep : step s (.publish writer .written) = some s') : Watched F h s' := by
  obtain ⟨w, hw, rfl⟩ := step_publish hstep
  have hwriting : writing (s.writers.insert writer
      ⟨w, .published (writeFile s.cache.files w .written).2⟩) = writing s.writers := by
    funext k
    exact Table.total_insert_of_same _ hw (by simp)
  have howned := owned_publish hs.owned hw .written
  unfold Watched
  rw [hwriting]
  refine ⟨hs.one, hs.named, hs.clean, howned, hs.diskless, fun q hq => ?_⟩
  have hkeep : s.cache.files.lookup h = some q → (w.hash = h → w.replaceExisting = false) →
      (F q ∨ unwrittenReplace (s.writers.insert writer
        ⟨w, .published (writeFile s.cache.files w .written).2⟩) h) ∨ replacing s.cache h := by
    intro hold hplain
    refine (hs.file q hold).imp_left (Or.imp_right (unwrittenReplace_insert ?_))
    intro v hv hhash
    rw [hw] at hv
    obtain rfl := (WriteCall.mk.inj (Option.some.inj hv)).1
    exact hplain hhash
  unfold writeFile at hq
  dsimp only at hq
  split at hq
  · rename_i hexists
    exact hkeep hq fun _ => hexists.1
  · rcases Table.lookup_insert_cases hq with ⟨hk, rfl⟩ | ⟨hk, hq⟩
    · exact Or.inl (Or.inl (hnew w hw hk.symm))
    · exact hkeep hq fun hhash => absurd hhash.symm hk

theorem watched_finish {F : Payload → Prop} {h : H} {s s' : System H} {env : Env H}
    (hs : Watched F h s) (hstat : StatSucceeds s (.finish writer env)) (hrem : env.RemovesSucceed)
    (hstep : step s (.finish writer env) = some s') :
    Watched F h s' := by
  obtain ⟨w, success, hw, rfl⟩ := step_finish hstep
  have hwriting : writing s.writers = fun k =>
      writing (s.writers.insert writer ⟨w, .finished⟩) k + Tracked.handed (some w) k := by
    funext k
    unfold writing Tracked.handed
    have hsum := Table.total_eq_erase (fun call : WriteCall H =>
      if call.phase ≠ .finished ∧ call.request.hash = k then 1 else 0) s.writers writer
    rw [hw] at hsum
    rw [hsum, Table.total_insert]
    simp
  unfold Watched at hs ⊢
  rw [hwriting] at hs
  refine (hs.finishWrite w success hrem published_writing ?_ ?_).mono ?_
  · intro k hk
    rcases published_insert writer ⟨w, .finished⟩ hk with hins | ⟨v, hv, hhash⟩
    · exact Or.inl hins
    · rw [hw] at hv
      obtain ⟨rfl, hphase⟩ := WriteCall.mk.inj (Option.some.inj hv)
      exact Or.inr ⟨by simpa using hphase, hhash.symm⟩
  · rintro rfl hepoch
    exact hstat _ hw rfl hepoch
  · refine fun q => Or.imp_right (unwrittenReplace_insert fun v hv => ?_)
    rw [hw] at hv
    cases hv

theorem watched_retire {F : Payload → Prop} {h : H} {s s' : System H} (hs : Watched F h s)
    (hstep : step s (.retire writer) = some s') : Watched F h s' := by
  obtain ⟨w, hw, rfl⟩ := step_retire hstep
  have hne : ∀ {id v phase}, s.writers.lookup id = some ⟨v, phase⟩ → phase ≠ .finished →
      (s.writers.erase writer).lookup id = some ⟨v, phase⟩ := by
    intro id v phase hv hphase
    have hid : id ≠ writer := by
      rintro rfl
      rw [hw] at hv
      exact hphase (WriteCall.mk.inj (Option.some.inj hv)).2.symm
    exact (AList.lookup_erase_ne hid).trans hv
  have hwriting : writing (s.writers.erase writer) = writing s.writers := by
    funext k
    unfold writing
    rw [Table.total_erase_of_lookup _ hw]
    simp
  unfold Watched at hs ⊢
  rw [hwriting]
  refine ((hs.mono ?_).relabel ?_).of_same rfl rfl rfl rfl (fun _ => Iff.rfl) rfl
  · rintro q (hF | ⟨id, v, hv, hrest⟩)
    · exact Or.inl hF
    · exact Or.inr ⟨id, v, hne hv (by simp), hrest⟩
  · rintro k ⟨id, v, hv, hhash⟩
    exact ⟨id, v, hne hv (by simp), hhash⟩

theorem watched_writerTick {F : Payload → Prop} {h : H} {s s' : System H} {env : Env H}
    (hs : Watched F h s) (hrem : env.RemovesSucceed)
    (hstep : step s (.writerTick env) = some s') : Watched F h s' := by
  obtain ⟨hid, rfl⟩ := step_writerTick hstep
  unfold Watched
  rw [addWriter_cache, addWriter_writers, writing_addWriter hid]
  refine Tracked.relabel (Tracked.writerLoopHead hs hrem published_writing ?_ ?_)
    fun k hk => published_addWriter hid hk
  · exact fun q => Or.imp_right (unwrittenReplace_addWriter hid _)
  · intro w htaken hhash hrep q
    rw [htaken]
    exact Or.inr ⟨_, _, AList.lookup_insert s.writers, hhash, hrep⟩

variable {a : Action H}

/-- **One step** keeps the writes under way in order, if what it publishes for `h` is in `F`. -/
theorem watched_step {F : Payload → Prop} {h : H} {s s' : System H} (hs : Watched F h s)
    (ha : a.Regular) (hsafe : FreshSafe s a)
    (hstored : ∀ id w, s.writers.lookup id = some ⟨w, .unwritten⟩ → w.hash = h → F w.payload)
    (hstep : step s a = some s') : Watched F h s' := by
  have hrem := ha.removes
  by_cases hwriting : a.writing = true
  · cases a with
    | store call args env => exact watched_store hs hsafe hrem (fun _ _ hF => hF) hstep
    | writerTick env => exact watched_writerTick hs hrem hstep
    | publish writer outcome =>
      obtain rfl : outcome = .written := ha.writes
      exact watched_publish hs (hstored writer) hstep
    | finish writer env => exact watched_finish hs hsafe.2.1 hrem hstep
    | retire writer => exact watched_retire hs hstep
    | _ => cases hwriting
  · have hP : ∀ k, published s.writers k → 0 < writing s.writers k := published_writing
    unfold Watched
    rw [(step_calls hstep).1 (Bool.eq_false_iff.mpr hwriting)]
    refine (Tracked.sections hP).step hs hrem.env (fun hw => absurd hw hwriting) ?_ ?_ ?_ ?_ hstep
    · rintro n rfl
      exact ha.interleaved.elim
    · rintro call env load rfl _ _
      exact Tracked.finishRequests hs hrem hP load.requests
    · exact fun _ _ => Tracked.refreshDiskIndex hs hP
    · rintro env rfl
      exact ha.interleaved.elim

theorem watched_initial {env : Env H} (hrem : env.RemovesSucceed) (config : Config H)
    {found : List (FoundBlock H)} (hfew : found.length < u64Max) (h : H) :
    Watched (fun _ => True) h (initial env config found) := by
  have hempty : Holds (fun _ => False) (fun _ _ => False) (openCache env config found) :=
    Holds.openCache config found fun _ _ _ _ hfalse => hfalse
  have hpending : ∀ k, k ∉ (openCache env config found).pending := by
    intro k hk
    obtain ⟨p, hp⟩ := (Table.mem_iff _ _).mp hk
    exact hempty.pending k p hp
  refine ⟨fun k => ?_, fun k w hw => (hempty.deferred k w hw).1.elim, fun k _ => hpending k,
    Owned.openCache hrem config found, fun hzero k => ⟨?_, hpending k⟩,
    fun q _ => Or.inl (Or.inl trivial)⟩
  · have hwrites : (openCache env config found).writes = [] :=
      List.eq_nil_iff_forall_not_mem.mpr fun w hw => hempty.writes w hw
    show queued (openCache env config found) k + writing ∅ k =
      if k ∈ (openCache env config found).pending then 1 else 0
    unfold queued
    rw [if_neg (hpending k), hwrites]
    rfl
  · have hconfig : (openCache env config found).config = config :=
      (Steady.openCache env config found).config
    exact openCache_diskless hrem hfew (hconfig ▸ hzero) k

/-! ### Fresh payloads -/

/-- Everything the cache holds or is about to write for `h` is in `F`, and so is the file of
    `h` unless a replacing write is on its way. -/
structure Fresh (F : Payload → Prop) (h : H) (s : System H) : Prop where
  watched : Watched F h s
  coherent : Coherent s.cache
  stocked : Stocked (fun w => w.hash = h → F w.payload) (fun k q => k = h → F q) s

omit [DecidableEq H] in
theorem redefers_fresh (F : Payload → Prop) (h : H) (epoch : Nat) :
    Redefers (fun w : WriteRequest H => w.hash = h → F w.payload) (fun k q => k = h → F q)
      epoch :=
  fun _ _ _ _ hr => hr

namespace Fresh

variable {F : Payload → Prop} {h : H} {s s' : System H}

/-- A block that is neither dirty nor queued has its newest payload in the file. -/
theorem file_settled (hs : Fresh F h s) (hd : h ∉ s.cache.deferred) (hp : h ∉ s.cache.pending)
    (q : Payload) (hq : s.cache.files.lookup h = some q) : F q := by
  have hone := hs.watched.one h
  rw [if_neg hp] at hone
  rcases hs.watched.file q hq with (hF | hu) | ⟨w, hw, -⟩ | ⟨w, hw, hhash, -⟩
  · exact hF
  · have hpos := unwrittenReplace_writing hu
    omega
  · exact absurd (Table.mem_of_lookup hw) hd
  · have hpos : 0 < queued s.cache h :=
      List.countP_pos_iff.mpr ⟨w, hw, by simpa using hhash⟩
    omega

theorem current (hs : Fresh F h s) (q : Payload) (hq : s.cache.current h = some q) : F q := by
  unfold Cache.current at hq
  split at hq
  · rename_i w hw
    obtain rfl := Option.some.inj hq
    exact (hs.stocked.cache.deferred h w hw).2 rfl
  · rename_i hnone
    split at hq
    · rename_i p hp
      obtain rfl := Option.some.inj hq
      exact hs.stocked.cache.pending h p hp rfl
    · rename_i hqueue
      split at hq
      · exact hs.file_settled (AList.lookup_eq_none.mp hnone) (AList.lookup_eq_none.mp hqueue)
          q hq
      · cases hq

/-- **One step** keeps everything fresh, if what it stores for `h` is. -/
theorem step (hs : Fresh F h s) (ha : a.Regular) (hsafe : FreshSafe s a)
    (hstore : ∀ call args env, a = .store call args env → args.hash s.cache.config = h →
      F args.payload) (hstep : step s a = some s') : Fresh F h s' := by
  refine ⟨watched_step hs.watched ha hsafe ?_ hstep, coherent_step s a s' hs.coherent hsafe.1
    hstep, stocked_step hs.stocked (redefers_fresh F h _) ?_ ?_ hstep⟩
  · exact fun id w hw => hs.stocked.writers id _ hw (by simp)
  · rintro call args env rfl
    exact ⟨hstore call args env rfl, hstore call args env rfl⟩
  · rintro call env load rfl hload hepoch x hx hk
    have hall := loadsMeet_loadFinish hsafe.2.2 hload hepoch
    rw [List.all_eq_true] at hall
    have hcurrent : s.cache.current x.1 = some x.2 := by simpa [putsBackCurrent] using hall x hx
    rw [hk] at hcurrent
    exact hs.current x.2 hcurrent

end Fresh

/-! ### After a replace -/

section Replace

variable {F F₀ : Payload → Prop} {h : H} {W : H → Nat} {P : H → Prop} {env : Env H}
  {c : Cache H}

/-- A block that is not queued has no write in the queue. -/
theorem Tracked.no_write (ht : Tracked F₀ h W P c) (hp : h ∉ c.pending) :
    ∀ w ∈ c.writes, w.hash ≠ h := by
  intro w hw hhash
  have hone := ht.one h
  rw [if_neg hp] at hone
  have hpos : 0 < queued c h := List.countP_pos_iff.mpr ⟨w, hw, by simpa using hhash⟩
  omega

/-- Refreshing the RAM copy of a block that is not queued, and dirty at most with a fresh
    payload, leaves only fresh payloads of it. -/
theorem Tracked.putHot_fresh (ht : Tracked F₀ h W P c) (hp : h ∉ c.pending)
    (hd : ∀ w, c.deferred.lookup h = some w → F w.payload) {p : Payload} (hF : F p) :
    Holds (fun w : WriteRequest H => w.hash = h → F w.payload) (fun k q => k = h → F q)
      (PrefixCache.putHotLocked c h p) := by
  have hrest : ∀ hot : Table H HotEntry, (∀ k e, hot.lookup k = some e → k = h → F e.payload) →
      ∀ clock hotBytes wraps, Holds (fun w : WriteRequest H => w.hash = h → F w.payload)
        (fun k q => k = h → F q)
        { c with hot := hot, clock := clock, hotBytes := hotBytes, wraps := wraps } := by
    intro hot hhot clock hotBytes wraps
    refine ⟨hhot, ?_, ?_, fun w hw hhash => absurd hhash (ht.no_write hp w hw)⟩
    · rintro k q hq rfl
      exact absurd (Table.mem_of_lookup hq) hp
    · intro k w hw
      refine ⟨fun hhash => ?_, ?_⟩
      · obtain rfl : k = h := (ht.named k w hw).symm.trans hhash
        exact hd w hw
      · rintro rfl
        exact hd w hw
  unfold PrefixCache.putHotLocked
  split
  · refine Holds.trimming (Trimming.trimHotLocked _ _) ?_
    rw [dropHot_eq]
    refine hrest _ (fun k e he hk => ?_) _ _ _
    dsimp only at he
    rw [hk, AList.lookup_insert] at he
    obtain rfl := Option.some.inj he
    exact hF
  · rw [dropHot_eq]
    refine hrest _ (fun k e he hk => ?_) _ _ _
    rw [hk, AList.lookup_erase] at he
    cases he

/-- A `replace` leaves nothing of its block but its own payload. -/
theorem Tracked.replace_fresh (ht : Tracked F₀ h W P c) (hrem : env.RemovesSucceed)
    (hP : ∀ k, P k → 0 < W k) (a : StoreArgs H) (hready : storeReady c a = true)
    (hno : ¬redefersStored env c a) (hhash : a.hash c.config = h)
    (hreplace : a.replaceExisting = true) (hF : F a.payload) :
    Holds (fun w : WriteRequest H => w.hash = h → F w.payload) (fun k q => k = h → F q)
        (PrefixCache.storeLocked env c a).1 ∧
      ∀ w ∈ (PrefixCache.storeLocked env c a).2, w.hash = h → F w.payload := by
  have hp : h ∉ c.pending := by
    intro hmem
    simp [storeReady, hreplace, hhash, hmem] at hready
  have hnone : ∀ w : WriteRequest H, w ∈ (none : Option (WriteRequest H)) →
      w.hash = h → F w.payload := fun w hw => by cases hw
  have hnew := redefers_fresh F h c.cacheEpoch
  obtain ⟨cleanup, heq⟩ := scheduleTailCleanupLocked_eq c (a.hash c.config) a.parent a.tokens
    a.extraKey
  have hall : Tracked (fun _ => True) h W P (c.withTails c.tailLengths c.tailMetadata cleanup) :=
    (ht.mono fun _ _ => trivial).of_same rfl rfl rfl rfl (fun _ => Iff.rfl) rfl
  have hmarked : Tracked (fun _ => True) h W P
      { c.withTails c.tailLengths c.tailMetadata cleanup with
        deferred := c.deferred.insert h (a.request c) } :=
    hall.defer h (a.request c) hhash hp (fun _ _ _ => trivial) fun _ => Or.inl hreplace
  have hdirty := hmarked.putHot_fresh hp (fun w hw => by
    dsimp only at hw
    rw [AList.lookup_insert] at hw
    obtain rfl := Option.some.inj hw
    exact hF) hF
  have hunmarked := hall.dropDeferred h fun _ => Or.inl fun _ _ => trivial
  unfold PrefixCache.storeLocked
  dsimp only
  rw [heq, if_neg fun hpresent => by simp [hreplace] at hpresent]
  subst hhash
  by_cases hspill : c.config.spillHotOnEviction = true ∧ fitsHot c a.payload = true
  · rw [if_pos hspill]
    have hstored : Holds (fun w : WriteRequest H => w.hash = a.hash c.config → F w.payload)
        (fun k q => k = a.hash c.config → F q) (PrefixCache.storeDeferred env
          (c.withTails c.tailLengths c.tailMetadata cleanup) a) :=
      Holds.storeDeferred a hnew hdirty
    split
    · rw [if_neg fun hfalse => by simp [hreplace] at hfalse]
      exact ⟨hstored, hnone⟩
    · exact ⟨hstored, hnone⟩
  · rw [if_neg hspill]
    by_cases hdisk : c.config.maxDiskBytes = 0
    · rw [if_pos hdisk, if_neg fun hfalse => by simp [hreplace] at hfalse]
      refine ⟨Holds.storeHotOnly a hnew (hunmarked.putHot_fresh hp (fun w hw => ?_) hF), hnone⟩
      change (c.deferred.erase _).lookup _ = some w at hw
      rw [AList.lookup_erase] at hw
      cases hw
    · rw [if_neg hdisk]
      have hclean : a.hash c.config ∉
          (enforceBudget env (reservedBytes (beforeWrite c a) a.payload.length)
            (beforeWrite c a)).deferred :=
        fun hmem => hno ⟨⟨fun hpresent => by simp [hreplace] at hpresent, hspill, hdisk⟩, hmem⟩
      unfold beforeWrite at hclean
      rw [heq] at hclean
      refine Holds.storeWrite a (fun _ => hF) (fun _ => hF) ?_
      have henf := Enforcing.enforceBudget env (reservedBytes (PrefixCache.dropDeferred
        (c.withTails c.tailLengths c.tailMetadata cleanup) (a.hash c.config)) a.payload.length)
        (PrefixCache.dropDeferred (c.withTails c.tailLengths c.tailMetadata cleanup)
          (a.hash c.config))
      refine (hunmarked.enforcing hrem hP henf).putHot_fresh ?_ (fun w hw => ?_) hF
      · rw [henf.pending_hot.1]
        exact hp
      · exact absurd (Table.mem_of_lookup hw) hclean

/-- **After a `replace`** everything of its block is fresh. -/
theorem fresh_replace {s s' : System H} (hw : Watched F₀ h s) (hc : Coherent s.cache)
    (hsafe : FreshSafe s (.store call args env)) (hrem : env.RemovesSucceed)
    (hhash : args.hash s.cache.config = h) (hreplace : args.replaceExisting = true)
    (hF : F args.payload) (hstep : step s (.store call args env) = some s') : Fresh F h s' := by
  refine ⟨watched_store hw hsafe hrem (fun hplain => absurd ⟨hhash, hreplace⟩ hplain) hstep,
    coherent_step s _ s' hc hsafe.1 hstep, ?_⟩
  obtain ⟨hready, hid, rfl⟩ := step_store hstep
  obtain ⟨hcache, hinline⟩ := hw.replace_fresh hrem published_writing args hready hsafe.1.1
    hhash hreplace hF
  refine ⟨?_, stocked_addWriter (fun id w hlookup hopen hk => ?_) hinline⟩
  · rw [addWriter_cache]
    exact hcache
  · -- the block is not queued, so no writer has a write of it under way
    have hp : h ∉ s.cache.pending := by
      intro hmem
      simp [storeReady, hreplace, hhash, hmem] at hready
    have hone := hw.one h
    rw [if_neg hp] at hone
    have hpos : 0 < writing s.writers w.request.hash := writing_pos hlookup hopen
    rw [hk] at hpos
    omega

end Replace

end TyloQuant.PrefixCache
