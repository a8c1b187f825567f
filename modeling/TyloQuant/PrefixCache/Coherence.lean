import TyloQuant.PrefixCache.Accounting
import TyloQuant.PrefixCache.Contents

/-!
# Dirty blocks

In spill mode a block that is dirty (in `deferred_`) has no durable copy of its newest
payload: the RAM copy is all there is, and `trim_hot_locked` queues the payload it finds in
`deferred_`.  The two therefore have to agree, and a dirty block must not be queued at the
same time.  Both hold in every run that avoids two slips: a `store` that marks its own
block dirty again (`NoRedefer`), and a `load_prefix` that, after its unlocked read, puts the
payload of a cold file over the RAM copy of a block that has become dirty meanwhile.
-/

namespace TyloQuant.PrefixCache

open Lib

variable {H : Type} [DecidableEq H]

/-! ### The second slip -/

/-- Putting this cold payload back agrees with the block's dirty payload, if it has one. -/
def agreesWithDirty (c : Cache H) (x : H × Payload) : Bool :=
  match c.deferred.lookup x.1 with
  | none => true
  | some w => decide (w.payload = x.2) && fitsHot c x.2

/-- Neither slip: no `store` marks its own block dirty again, and no finishing load puts
    anything over a dirty block but its dirty payload. -/
def DirtySafe (s : System H) (a : Action H) : Prop :=
  NoRedefer s a ∧ loadsMeet agreesWithDirty s a = true

instance (s : System H) (a : Action H) : Decidable (DirtySafe s a) :=
  inferInstanceAs (Decidable (_ ∧ _))

/-! ### The invariant -/

/-- Every dirty block is in RAM with its dirty payload, its request is its own, and it is not
    queued. -/
structure Coherent (c : Cache H) : Prop where
  dirty : ∀ h w, c.deferred.lookup h = some w → ∃ e, c.hot.lookup h = some e ∧ e.payload = w.payload
  named : ∀ h w, c.deferred.lookup h = some w → w.hash = h
  clean : ∀ h, h ∈ c.deferred → h ∉ c.pending

variable {h : H} {w : WriteRequest H}

theorem Trimming.deferred_subset {c c' : Cache H} (ht : Trimming c c')
    (hw : c'.deferred.lookup h = some w) :
    c.deferred.lookup h = some w := by
  refine keeps (P := fun d => d.deferred.lookup h = some w → c.deferred.lookup h = some w)
    ?_ ht id hw
  intro d d' hm hd
  cases hm with
  | tails => exact hd
  | evictHot k =>
    rw [dropHot_eq]
    show (spillDeferred d k).deferred.lookup h = some w → _
    unfold spillDeferred dropDeferred
    split
    · exact hd
    · split <;>
      · dsimp only
        rw [Table.lookup_erase_ite]
        split
        · intro hfalse
          cases hfalse
        · exact hd

theorem putHotLocked_deferred_subset {c : Cache H} {k : H} {p : Payload}
    (hw : (putHotLocked c k p).deferred.lookup h = some w) :
    c.deferred.lookup h = some w := by
  unfold putHotLocked at hw
  split at hw
  · have hw' := (Trimming.trimHotLocked _ _).deferred_subset hw
    rw [dropHot_eq] at hw'
    exact hw'
  · rw [dropHot_eq] at hw
    exact hw

namespace Coherent

variable {env : Env H} {c c' : Cache H}

/-! ### Single edits -/

/-- A block leaves RAM and loses its dirty mark; no other block is concerned. -/
theorem forgetBlock (hc : Coherent c) (h : H)
    (hdef : ∀ k, c'.deferred.lookup k = if k = h then none else c.deferred.lookup k)
    (hhot : ∀ k, k ≠ h → c'.hot.lookup k = c.hot.lookup k)
    (hpend : ∀ k, k ≠ h → k ∈ c'.pending → k ∈ c.pending) : Coherent c' := by
  have hback : ∀ k w, c'.deferred.lookup k = some w → k ≠ h ∧ c.deferred.lookup k = some w := by
    intro k w hw
    rw [hdef k] at hw
    split at hw
    · cases hw
    · rename_i hne
      exact ⟨hne, hw⟩
  refine ⟨?_, ?_, ?_⟩
  · intro k w hw
    obtain ⟨hne, hw⟩ := hback k w hw
    rw [hhot k hne]
    exact hc.dirty k w hw
  · intro k w hw
    exact hc.named k w (hback k w hw).2
  · intro k hk hq
    obtain ⟨w, hw⟩ := (Table.mem_iff _ _).mp hk
    obtain ⟨hne, hw⟩ := hback k w hw
    exact hc.clean k (Table.mem_of_lookup hw) (hpend k hne hq)

theorem dropDeferred (hc : Coherent c) (h : H) : Coherent (dropDeferred c h) :=
  hc.forgetBlock h (fun k => Table.lookup_erase_ite c.deferred h k) (fun _ _ => rfl)
    (fun _ _ hq => hq)

theorem dropHot (hc : Coherent c) (h : H) (hh : h ∉ c.deferred) : Coherent (dropHot c h) := by
  rw [dropHot_eq]
  refine hc.forgetBlock h ?_ ?_ (fun _ _ hq => hq)
  · intro k
    by_cases hk : k = h
    · subst hk
      rw [if_pos rfl]
      exact AList.lookup_eq_none.mpr hh
    · rw [if_neg hk]
  · intro k hk
    exact AList.lookup_erase_ne hk

theorem unlinkDisk (hc : Coherent c) (env : Env H) (h : H) : Coherent (unlinkDisk env c h) := by
  unfold PrefixCache.unlinkDisk
  rw [dropDisk_eq]
  exact ⟨hc.dirty, hc.named, hc.clean⟩

/-- The spilled victim of a trim is neither in RAM nor dirty afterwards. -/
theorem evictHot (hc : Coherent c) (h : H) :
    Coherent (PrefixCache.dropHot (spillDeferred c h) h) := by
  have hhot : (spillDeferred c h).hot = c.hot := by
    unfold spillDeferred PrefixCache.dropDeferred
    split
    · rfl
    · split <;> rfl
  have hdef : ∀ k, (spillDeferred c h).deferred.lookup k =
      if k = h then none else c.deferred.lookup k := by
    intro k
    unfold spillDeferred PrefixCache.dropDeferred
    split
    · rename_i hnone
      by_cases hk : k = h
      · subst hk
        rw [if_pos rfl, hnone]
      · rw [if_neg hk]
    · split <;> exact Table.lookup_erase_ite c.deferred h k
  have hpend : ∀ k, k ≠ h → k ∈ (spillDeferred c h).pending → k ∈ c.pending := by
    intro k hk hq
    unfold spillDeferred PrefixCache.dropDeferred at hq
    split at hq
    · exact hq
    · split at hq
      · exact ((AList.mem_insert c.pending).mp hq).resolve_left hk
      · exact hq
  rw [dropHot_eq]
  refine hc.forgetBlock h hdef ?_ hpend
  intro k hk
  show ((spillDeferred c h).hot.erase h).lookup k = c.hot.lookup k
  rw [AList.lookup_erase_ne hk, hhot]

theorem redefer (hc : Coherent c) (h : H) (e : DiskEntry H) (hp : h ∉ c.pending) :
    Coherent (redefer c h e) := by
  unfold PrefixCache.redefer
  split
  · exact hc
  · rename_i hot hhot
    split
    · exact ⟨Table.forall_insert hc.dirty ⟨hot, hhot, rfl⟩, Table.forall_insert hc.named rfl,
        Table.forall_mem_insert hc.clean hp⟩
    · exact hc

theorem touchHot (hc : Coherent c) (h : H) : Coherent (touchHot c h) := by
  unfold PrefixCache.touchHot
  split
  · exact hc
  · rename_i e he
    refine ⟨?_, hc.named, hc.clean⟩
    intro k w hw
    obtain ⟨e', he', hpayload⟩ := hc.dirty k w hw
    dsimp only
    rw [Table.lookup_insert_ite]
    split
    · rename_i hk
      subst hk
      rw [he] at he'
      obtain rfl := Option.some.inj he'
      exact ⟨_, rfl, hpayload⟩
    · exact ⟨e', he', hpayload⟩

theorem touchDisk (hc : Coherent c) (h : H) : Coherent (touchDisk c h) := by
  unfold PrefixCache.touchDisk
  split <;> exact ⟨hc.dirty, hc.named, hc.clean⟩

/-! ### Housekeeping -/

theorem ramMove (hm : RamMove c c') (hc : Coherent c) : Coherent c' := by
  cases hm with
  | tails => exact ⟨hc.dirty, hc.named, hc.clean⟩
  | evictHot h => exact hc.evictHot h

theorem diskMove (hm : DiskMove env c c') (hc : Coherent c) : Coherent c' := by
  cases hm with
  | tails => exact ⟨hc.dirty, hc.named, hc.clean⟩
  | evictDisk h e _ evictable =>
    have hp : h ∉ c.pending := by
      intro hmem
      simp [diskEvictable, hmem] at evictable
    exact (hc.redefer h e hp).unlinkDisk env h

/-- Dropping a block from RAM and from the dirty set together. -/
theorem dropBoth (hc : Coherent c) (h : H) :
    Coherent (PrefixCache.dropDeferred (PrefixCache.dropHot c h) h) := by
  rw [dropHot_eq]
  exact hc.forgetBlock h (fun k => Table.lookup_erase_ite c.deferred h k)
    (fun k hk => AList.lookup_erase_ne hk) (fun _ _ hq => hq)

theorem move (hm : Move env c c') (hc : Coherent c) : Coherent c' := by
  cases hm with
  | ram hm => exact hc.ramMove hm
  | disk hm => exact hc.diskMove hm
  | touchHot h => exact hc.touchHot h
  | touchDisk h => exact hc.touchDisk h
  | supersede h =>
    split
    · exact (hc.unlinkDisk env h).dropBoth h
    · exact hc.dropBoth h

theorem trimming (ht : Trimming c c') (hc : Coherent c) : Coherent c' :=
  keeps (fun _ _ hm hc => ramMove hm hc) ht hc

theorem housekeeping (ht : Housekeeping env c c') (hc : Coherent c) : Coherent c' :=
  keeps (fun _ _ hm hc => move hm hc) ht hc

theorem eraseCorruptLocked (hc : Coherent c) (h : H) : Coherent (eraseCorruptLocked env c h).1 := by
  have hd := hc.dropDeferred h
  have hgone : h ∉ (PrefixCache.dropDeferred c h).deferred :=
    fun hmem => (AList.mem_erase.mp hmem).1 rfl
  unfold PrefixCache.eraseCorruptLocked
  dsimp only
  split
  · refine trimming (Trimming.forget _ h) ?_
    split
    · refine (hd.unlinkDisk env h).dropHot h ?_
      unfold PrefixCache.unlinkDisk
      rw [dropDisk_eq]
      exact hgone
    · exact hd.dropHot h hgone
  · exact hd

/-! ### The RAM tier takes a payload -/

/-- The new RAM copy is the block's dirty payload, if it has one. -/
theorem insertHot (h : H) (p : Payload) (hnamed : ∀ k w, c.deferred.lookup k = some w → w.hash = k)
    (hclean : ∀ k, k ∈ c.deferred → k ∉ c.pending)
    (hdirty : ∀ k w, k ≠ h → c.deferred.lookup k = some w →
      ∃ e, c.hot.lookup k = some e ∧ e.payload = w.payload)
    (hself : ∀ w, c.deferred.lookup h = some w → w.payload = p) :
    Coherent (PrefixCache.insertHot (PrefixCache.dropHot c h) h p) := by
  rw [dropHot_eq]
  refine ⟨?_, hnamed, hclean⟩
  intro k w hw
  have hw' : c.deferred.lookup k = some w := hw
  show ∃ e, ((c.hot.erase h).insert h ⟨p, c.clock + 1⟩).lookup k = some e ∧ e.payload = w.payload
  rw [Table.lookup_insert_ite]
  split
  · rename_i hk
    subst hk
    exact ⟨_, rfl, (hself w hw').symm⟩
  · rename_i hk
    rw [AList.lookup_erase_ne hk]
    exact hdirty k w hk hw'

theorem putHotLocked (hc : Coherent c) (h : H) (p : Payload)
    (hagree : agreesWithDirty c (h, p) = true) : Coherent (putHotLocked c h p) := by
  unfold agreesWithDirty at hagree
  dsimp only at hagree
  unfold PrefixCache.putHotLocked
  split
  · refine trimming (Trimming.trimHotLocked _ _) ?_
    refine insertHot h p hc.named hc.clean (fun k w _ hw => hc.dirty k w hw) ?_
    intro w hw
    rw [hw] at hagree
    simp only [Bool.and_eq_true, decide_eq_true_eq] at hagree
    exact hagree.1
  · rename_i hfits
    refine hc.dropHot h ?_
    intro hmem
    obtain ⟨w, hw⟩ := (Table.mem_iff _ _).mp hmem
    rw [hw] at hagree
    simp only [Bool.and_eq_true] at hagree
    exact hfits hagree.2

theorem putHotLocked_of_notMem (hc : Coherent c) (h : H) (p : Payload)
    (hh : h ∉ c.deferred) : Coherent (PrefixCache.putHotLocked c h p) := by
  refine hc.putHotLocked h p ?_
  unfold agreesWithDirty
  dsimp only
  rw [AList.lookup_eq_none.mpr hh]

/-! ### Storing and writing -/

theorem storeDeferred (hc : Coherent c) (a : StoreArgs H)
    (hp : a.hash c.config ∉ c.pending) (hfits : fitsHot c a.payload = true) :
    Coherent (storeDeferred env c a) := by
  unfold PrefixCache.storeDeferred
  refine trimming (Trimming.ramPressure env _) ?_
  refine housekeeping (Housekeeping.pruneTailCleanup _) ?_
  refine trimming (Trimming.remember _ _ _ _) ?_
  unfold PrefixCache.putHotLocked
  have hfits' : fitsHot { c with
      deferred := c.deferred.insert (a.hash c.config) (a.request c) } a.payload = true := hfits
  rw [if_pos hfits']
  refine trimming (Trimming.trimHotLocked _ _) (insertHot _ _ ?_ ?_ ?_ ?_)
  · exact Table.forall_insert hc.named rfl
  · exact Table.forall_mem_insert hc.clean hp
  · intro k w hne hw
    dsimp only at hw
    rw [AList.lookup_insert_ne hne] at hw
    exact hc.dirty k w hw
  · intro w hw
    dsimp only at hw
    rw [AList.lookup_insert] at hw
    obtain rfl := Option.some.inj hw
    rfl

theorem addPending (hc : Coherent c) (w : WriteRequest H) (hd : w.hash ∉ c.deferred) :
    Coherent (addPending c w) := by
  refine ⟨hc.dirty, hc.named, ?_⟩
  intro k hk hq
  rcases (AList.mem_insert c.pending).mp hq with rfl | hold
  · exact hd hk
  · exact hc.clean k hk hold

theorem settlePending (hc : Coherent c) (h : H) : Coherent (settlePending c h) := by
  unfold PrefixCache.settlePending
  split
  · exact hc
  · exact ⟨hc.dirty, hc.named, fun k hk hq => hc.clean k hk (AList.mem_erase.mp hq).2⟩

theorem registerFile (hc : Coherent c) (w : WriteRequest H) (file : Payload) :
    Coherent (registerFile c w file) := by
  unfold PrefixCache.registerFile
  dsimp only
  rw [dropDisk_eq]
  exact ⟨hc.dirty, hc.named, hc.clean⟩

theorem stores : Stores (Coherent (H := H)) where
  beside hc h _ := by
    simp only [Cache.tiers, Prod.mk.injEq] at h
    obtain ⟨hhot, -, -, -, hdeferred, hpending, -⟩ := h
    exact ⟨hdeferred ▸ hhot ▸ hc.dirty, hdeferred ▸ hc.named, hdeferred ▸ hpending ▸ hc.clean⟩
  move hm hc := move hm hc
  erase h hc := hc.eraseCorruptLocked h
  dropDisk h hc := by
    rw [dropDisk_eq]
    exact ⟨hc.dirty, hc.named, hc.clean⟩
  dropEntry h hc := by
    refine dropBoth ?_ h
    rw [dropDisk_eq]
    exact ⟨hc.dirty, hc.named, hc.clean⟩
  setPins _ hc _ := ⟨hc.dirty, hc.named, hc.clean⟩
  settlePending h hc := hc.settlePending h
  registerFile w file hc := hc.registerFile w file
  dropDeferred h hc := hc.dropDeferred h
  putHotLocked p hc hd := hc.putHotLocked_of_notMem _ p hd
  storeDeferred a hc hp hfits := hc.storeDeferred a hp hfits
  addPending w hc _ hd := hc.addPending w hd
  enqueue _ hc := ⟨hc.dirty, hc.named, hc.clean⟩

/-- Agreement survives whatever only takes dirty marks away. -/
theorem agrees_mono {x : H × Payload} (hconf : c'.config = c.config)
    (hsub : ∀ h w, c'.deferred.lookup h = some w → c.deferred.lookup h = some w)
    (hx : agreesWithDirty c x = true) : agreesWithDirty c' x = true := by
  unfold agreesWithDirty at *
  split
  · rfl
  · rename_i w hw
    rw [hsub x.1 w hw] at hx
    unfold fitsHot at *
    rw [hconf]
    exact hx

theorem finishRequests (hc : Coherent c) (requests : List (LoadRequest H))
    (hagree : (reinserted requests).all (agreesWithDirty c) = true) :
    Coherent (finishRequests env c requests).1 := by
  induction requests generalizing c with
  | nil => exact hc
  | cons r rest ih =>
    unfold PrefixCache.finishRequests
    unfold reinserted at hagree
    split
    · rename_i p hsource
      rw [hsource] at hagree
      refine ih (hc.touchHot r.hash) ?_
      rw [List.all_eq_true] at hagree ⊢
      intro x hx
      refine agrees_mono (SameControl.touchHot c r.hash).config ?_ (hagree x hx)
      intro h w hw
      unfold PrefixCache.touchHot at hw
      split at hw <;> exact hw
    · rename_i p hsource
      rw [hsource] at hagree
      exact ih hc hagree
    · rename_i p hsource
      rw [hsource] at hagree
      simp only [List.all_cons, Bool.and_eq_true] at hagree
      refine ih ((hc.putHotLocked r.hash p hagree.1).touchDisk r.hash) ?_
      rw [List.all_eq_true] at hagree ⊢
      intro x hx
      refine agrees_mono ((SameControl.putHotLocked c r.hash p).trans
        (SameControl.touchDisk _ r.hash)).config ?_ (hagree.2 x hx)
      intro h w hw
      unfold PrefixCache.touchDisk at hw
      split at hw <;> exact putHotLocked_deferred_subset hw
    · exact stores.dropUnreadable r.hash hc

theorem empty (hd : c.deferred = ∅) : Coherent c := by
  refine ⟨?_, ?_, ?_⟩
  · simp [hd]
  · simp [hd]
  · intro h hh
    rw [hd] at hh
    exact absurd hh (AList.notMem_empty h)

theorem openCache (config : Config H) (found : List (FoundBlock H)) :
    Coherent (openCache env config found) := by
  unfold PrefixCache.openCache
  refine stores.enforcing (Enforcing.enforceBudget _ _ _) ?_
  refine List.foldlRecOn found _ (empty rfl) fun c hc b _ => ?_
  unfold scanEntry
  split
  · exact hc
  · exact trimming (Trimming.remember _ _ _ _) ⟨hc.dirty, hc.named, hc.clean⟩

end Coherent

/-! ### Every step, every run -/

theorem coherent_step (s : System H) (a : Action H) (s' : System H) (hs : Coherent s.cache)
    (hok : DirtySafe s a) (hstep : step s a = some s') : Coherent s'.cache := by
  refine Coherent.stores.toKept.step hs ?_ ?_ ?_ hstep
  · rintro call args env rfl hready
    exact Coherent.stores.storeLocked args hs hready hok.1
  · rintro call env load rfl hload hepoch
    exact hs.finishRequests load.requests (loadsMeet_loadFinish hok.2 hload hepoch)
  · rintro env rfl
    exact Coherent.empty rfl

theorem coherent_run {env : Env H} {config : Config H} {found : List (FoundBlock H)}
    {actions : List (Action H)} {s : System H}
    (hok : Meets step DirtySafe (initial env config found) actions)
    (hrun : run step (initial env config found) actions = some s) : Coherent s.cache :=
  run_invariant (I := fun s => Coherent s.cache) coherent_step
    (Coherent.openCache config found) hok hrun

/-! ### What a trim writes -/

/-- A dirty block that a trim takes out of RAM is queued with its dirty request. -/
theorem Trimming.queues_dirty {c c' : Cache H} (ht : Trimming c c')
    (hdisk : 0 < c.config.maxDiskBytes) (hw : c.deferred.lookup h = some w) (hhot : h ∈ c.hot)
    (hgone : h ∉ c'.hot) :
    c'.pending.lookup h = some w.payload ∧ w ∈ c'.writes := by
  -- until its turn comes the block stays dirty and in RAM, from then on it stays queued
  have hinv : 0 < c'.config.maxDiskBytes ∧ ((c'.deferred.lookup h = some w ∧ h ∈ c'.hot) ∨
        (h ∉ c'.deferred ∧ c'.pending.lookup h = some w.payload ∧ w ∈ c'.writes)) := by
    refine keeps (P := fun d => 0 < d.config.maxDiskBytes ∧
      ((d.deferred.lookup h = some w ∧ h ∈ d.hot) ∨
        (h ∉ d.deferred ∧ d.pending.lookup h = some w.payload ∧ w ∈ d.writes)))
      ?_ ht ⟨hdisk, Or.inl ⟨hw, hhot⟩⟩
    rintro d d' hm ⟨hdisk, hd⟩
    cases hm with
    | tails => exact ⟨hdisk, hd⟩
    | evictHot k =>
      rw [dropHot_eq]
      refine ⟨(SameControl.spillDeferred d k).config ▸ hdisk, ?_⟩
      show ((spillDeferred d k).deferred.lookup h = some w ∧
          h ∈ (spillDeferred d k).hot.erase k) ∨ _
      unfold spillDeferred
      by_cases hk : h = k
      · subst hk
        rcases hd with ⟨hdw, -⟩ | ⟨hclean, hq, hmem⟩
        · rw [hdw]
          simp only [gt_iff_lt, hdisk, if_true]
          refine Or.inr ⟨fun hmem => (AList.mem_erase.mp hmem).1 rfl, ?_, ?_⟩
          · exact AList.lookup_insert d.pending
          · exact List.mem_append_right _ List.mem_cons_self
        · rw [AList.lookup_eq_none.mpr hclean]
          exact Or.inr ⟨hclean, hq, hmem⟩
      · have hmem_erase : h ∈ d.hot → h ∈ d.hot.erase k :=
          fun hh => AList.mem_erase.mpr ⟨hk, hh⟩
        split
        · rcases hd with ⟨hdw, hh⟩ | hq
          · exact Or.inl ⟨hdw, hmem_erase hh⟩
          · exact Or.inr hq
        · simp only [gt_iff_lt, hdisk, if_true]
          rcases hd with ⟨hdw, hh⟩ | ⟨hclean, hq, hmem⟩
          · refine Or.inl ⟨?_, hmem_erase hh⟩
            rw [AList.lookup_erase_ne hk]
            exact hdw
          · refine Or.inr ⟨fun hm => hclean (AList.mem_erase.mp hm).2, ?_,
              List.mem_append_left _ hmem⟩
            rw [AList.lookup_insert_ne hk]
            exact hq
  rcases hinv.2 with ⟨-, hh⟩ | ⟨-, hq, hmem⟩
  · exact absurd hh hgone
  · exact ⟨hq, hmem⟩

/-- **Dirty-block coherence.**  In every state of every run without the two slips, each dirty
    block is in RAM with the very payload it will be written with, none is queued at the same
    time, and a trim that takes one out of RAM queues exactly that payload under its hash. -/
theorem dirty_block_coherence (env : Env H) (config : Config H) (found : List (FoundBlock H))
    (actions : List (Action H)) (s : System H)
    (hok : Meets step DirtySafe (initial env config found) actions)
    (hrun : run step (initial env config found) actions = some s) :
    (∀ h w, s.cache.deferred.lookup h = some w →
      (∃ e, s.cache.hot.lookup h = some e ∧ e.payload = w.payload) ∧ h ∉ s.cache.pending) ∧
    ∀ targetBytes h e, 0 < s.cache.config.maxDiskBytes → h ∈ s.cache.deferred →
      s.cache.hot.lookup h = some e → h ∉ (trimHotLocked targetBytes s.cache).1.hot →
      (trimHotLocked targetBytes s.cache).1.pending.lookup h = some e.payload ∧
      ∃ w ∈ (trimHotLocked targetBytes s.cache).1.writes,
        w.hash = h ∧ w.payload = e.payload := by
  have hs := coherent_run hok hrun
  refine ⟨?_, ?_⟩
  · intro h w hw
    exact ⟨hs.dirty h w hw, hs.clean h (Table.mem_of_lookup hw)⟩
  · intro targetBytes h e hdisk hd he hgone
    obtain ⟨w, hw⟩ := (Table.mem_iff _ _).mp hd
    obtain ⟨e', he', hpayload⟩ := hs.dirty h w hw
    have hsame : e = e' := Option.some.inj (he.symm.trans he')
    subst hsame
    obtain ⟨hq, hmem⟩ := (Trimming.trimHotLocked targetBytes s.cache).queues_dirty hdisk hw
      (Table.mem_of_lookup he) hgone
    rw [hpayload]
    exact ⟨hq, w, hmem, hs.named h w hw, rfl⟩

/-- A block in RAM and on a full disk is replaced by a payload too large for RAM. -/
def oversizedReplace : List (Action Nat) :=
  [storeFirst 0 false [1], .trimHot 0] ++ writeThrough ++ coldRead 1 ++
    [.loadFinish 1 {}, storeFirst 2 true [3, 3, 3]]

/-- After that run the block is dirty with its old payload, is not in RAM, and is queued. -/
theorem oversizedReplace_incoherent :
    ∃ s w, run step (initial {} (smallConfig 200 2 true) []) oversizedReplace = some s ∧
      s.cache.deferred.lookup 5 = some w ∧ w.payload = [1] ∧ 5 ∉ s.cache.hot ∧
      s.cache.pending.lookup 5 = some [3, 3, 3] := by
  have hrun : (run step (initial {} (smallConfig 200 2 true) []) oversizedReplace).map
      (fun s => ((s.cache.deferred.lookup 5).map WriteRequest.payload,
        s.cache.hot.lookup 5, s.cache.pending.lookup 5)) =
      some (some [1], none, some [3, 3, 3]) := by
    decide
  obtain ⟨s, hs, hfields⟩ := Option.map_eq_some_iff.mp hrun
  simp only [Prod.mk.injEq, Option.map_eq_some_iff] at hfields
  obtain ⟨⟨w, hw, hpayload⟩, hhot, hpending⟩ := hfields
  exact ⟨s, w, hs, hw, hpayload, AList.lookup_eq_none.mp hhot, hpending⟩

/-- Coherence on a run that leaves a replaced block dirty in RAM over its old file. -/
theorem dirty_block_coherence_replayed :
    ∃ s w, run step (initial {} (smallConfig 1000 2 true) [])
        ([storeFirst 0 false [1], .trimHot 0] ++ writeThrough ++ coldRead 1 ++
          [.loadFinish 1 {}, storeFirst 2 true [2, 2]]) = some s ∧
      s.cache.deferred.lookup 5 = some w ∧
      (∃ e, s.cache.hot.lookup 5 = some e ∧ e.payload = w.payload) ∧ 5 ∉ s.cache.pending := by
  have hrun : ((run step (initial {} (smallConfig 1000 2 true) [])
      ([storeFirst 0 false [1], .trimHot 0] ++ writeThrough ++ coldRead 1 ++
        [.loadFinish 1 {}, storeFirst 2 true [2, 2]])).bind
          fun s => s.cache.deferred.lookup 5).isSome = true := by
    decide
  obtain ⟨w, hw⟩ := Option.isSome_iff_exists.mp hrun
  obtain ⟨s, hs, hdirty⟩ := Option.bind_eq_some_iff.mp hw
  have hcoherent := dirty_block_coherence {} _ [] _ s (by decide) hs
  exact ⟨s, w, hs, hdirty, hcoherent.1 5 w hdirty⟩

end TyloQuant.PrefixCache
