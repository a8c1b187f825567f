import TyloQuant.PrefixCache.Freshness

/-!
# What later loads and matches return

A `load_prefix` that starts after a `replace` takes the new payload from RAM or from the
queue, or leases a file that already holds a fresh payload and will only ever hold fresh ones.
A load or a match that starts after an `invalidate` does not find the block at all.
-/

namespace TyloQuant.PrefixCache

open Lib List

variable {H : Type} [DecidableEq H]

/-! ### One load -/

/-- The file of `h`, if there is one, holds a payload in `F`. -/
def FileFresh (F : Payload → Prop) (h : H) (c : Cache H) : Prop :=
  ∀ q, c.files.lookup h = some q → F q

/-- What a request for `h` has found is in `F`; what it still has to read is a fresh file. -/
def SourceFresh (F : Payload → Prop) (fileFresh : Prop) : LoadSource → Prop
  | .hot q => F q
  | .pending q => F q
  | .disk none => fileFresh
  | .disk (some none) => True
  | .disk (some (some q)) => F q

/-- The requests of a load of `blocks`, as seen from block `h`. -/
def RequestsFresh (F : Payload → Prop) (h : H) (c : Cache H) (blocks : List H)
    (requests : List (LoadRequest H)) : Prop :=
  ∀ (i : Nat) r, requests[i]? = some r →
    blocks[i]? = some r.hash ∧ (r.hash = h → SourceFresh F (FileFresh F h c) r.source)

/-- The answer of a load of `blocks`, as seen from block `h`. -/
def AnswerFresh (F : Payload → Prop) (h : H) (blocks : List H) (payloads : List Payload) : Prop :=
  ∀ (i : Nat) q, blocks[i]? = some h → payloads[i]? = some q → F q

variable {F : Payload → Prop} {c : Cache H}

theorem leaseLocked_fresh {h : H} {fileFresh : Prop}
    (hhot : ∀ e, c.hot.lookup h = some e → F e.payload)
    (hpending : ∀ q, c.pending.lookup h = some q → F q)
    (hcold : h ∉ c.hot → h ∉ c.pending → h ∈ c.disk → fileFresh) (blocks : List H) :
    ∀ (i : Nat) r, (leaseLocked c blocks).2[i]? = some r →
      blocks[i]? = some r.hash ∧ (r.hash = h → SourceFresh F fileFresh r.source) := by
  induction blocks generalizing c with
  | nil =>
    intro i r hr
    simp [leaseLocked] at hr
  | cons b rest ih =>
    have hcons : ∀ (requests : List (LoadRequest H)) r₀, r₀.hash = b →
        (r₀.hash = h → SourceFresh F fileFresh r₀.source) →
        (∀ (i : Nat) r, requests[i]? = some r →
          rest[i]? = some r.hash ∧ (r.hash = h → SourceFresh F fileFresh r.source)) →
        ∀ (i : Nat) r, (r₀ :: requests)[i]? = some r →
          (b :: rest)[i]? = some r.hash ∧ (r.hash = h → SourceFresh F fileFresh r.source) := by
      intro requests r₀ hb hsource hrest i r hr
      cases i with
      | zero =>
        simp only [getElem?_cons_zero, Option.some.injEq] at hr ⊢
        subst hr
        exact ⟨hb.symm, hsource⟩
      | succ i =>
        simp only [getElem?_cons_succ] at hr ⊢
        exact hrest i r hr
    unfold leaseLocked
    split
    · rename_i e he
      refine hcons _ _ rfl ?_ (ih hhot hpending hcold)
      rintro rfl
      exact hhot e he
    · rename_i hnothot
      split
      · rename_i p hp
        refine hcons _ _ rfl ?_ (ih hhot hpending hcold)
        rintro rfl
        exact hpending p hp
      · rename_i hnotpending
        split
        · rename_i e he
          refine hcons _ _ rfl ?_ (ih hhot hpending fun hh hp hd => ?_)
          · rintro rfl
            exact hcold (AList.lookup_eq_none.mp hnothot) (AList.lookup_eq_none.mp hnotpending)
              (Table.mem_of_lookup he)
          · refine hcold hh hp ?_
            rcases (AList.mem_insert _).mp hd with rfl | hold
            · exact Table.mem_of_lookup he
            · exact hold
        · intro i r hr
          simp at hr

theorem finishRequests_answers (env : Env H) (c : Cache H) (requests : List (LoadRequest H))
    (i : Nat) (q : Payload) (hq : (finishRequests env c requests).2[i]? = some q) :
    ∃ r, requests[i]? = some r ∧
      (r.source = .hot q ∨ r.source = .pending q ∨ r.source = .disk (some (some q))) := by
  induction requests generalizing c i with
  | nil => simp [finishRequests] at hq
  | cons r rest ih =>
    have hcons : ∀ (d : Cache H) p, (p :: (finishRequests env d rest).2)[i]? = some q →
        (r.source = .hot p ∨ r.source = .pending p ∨ r.source = .disk (some (some p))) →
        ∃ r', (r :: rest)[i]? = some r' ∧ (r'.source = .hot q ∨ r'.source = .pending q ∨
          r'.source = .disk (some (some q))) := by
      intro d p hp hsource
      cases i with
      | zero =>
        simp only [getElem?_cons_zero, Option.some.injEq] at hp
        subst hp
        exact ⟨r, rfl, hsource⟩
      | succ i =>
        simp only [getElem?_cons_succ] at hp ⊢
        exact ih d i hp
    unfold finishRequests at hq
    split at hq
    · rename_i p hsource
      exact hcons _ p hq (Or.inl hsource)
    · rename_i p hsource
      exact hcons _ p hq (Or.inr (Or.inl hsource))
    · rename_i p hsource
      exact hcons _ p hq (Or.inr (Or.inr hsource))
    · simp at hq

variable {blocks : List H}

/-- What a finishing load returns is fresh if its requests are. -/
theorem finishLoad_fresh {h : H} {load : LoadCall H} (env : Env H)
    (hr : RequestsFresh F h c blocks load.requests) :
    AnswerFresh F h blocks (finishLoad env c load).2 := by
  intro i q hblock hq
  unfold finishLoad at hq
  split at hq
  · obtain ⟨r, hrequest, hsource⟩ := finishRequests_answers env c load.requests i q hq
    obtain ⟨hhash, hfresh⟩ := hr i r hrequest
    have hh : r.hash = h := Option.some.inj (hhash.symm.trans hblock)
    have hall := hfresh hh
    rcases hsource with hs | hs | hs <;>
    · rw [hs] at hall
      exact hall
  · simp at hq

theorem readRequest_fresh {h : H} {requests requests' : List (LoadRequest H)} {readable : Bool}
    {index : Nat} (hr : RequestsFresh F h c blocks requests)
    (hread : readRequest c.files readable index requests = some requests') :
    RequestsFresh F h c blocks requests' := by
  induction requests generalizing index requests' blocks with
  | nil => simp [readRequest] at hread
  | cons r rest ih =>
    have htail : RequestsFresh F h c blocks.tail rest := by
      intro i r' hr'
      obtain ⟨hhash, hsource⟩ := hr (i + 1) r' hr'
      refine ⟨?_, hsource⟩
      rw [getElem?_tail]
      exact hhash
    obtain ⟨hhead, hsource⟩ := hr 0 r rfl
    have hcons : ∀ r', r'.hash = r.hash →
        (r'.hash = h → SourceFresh F (FileFresh F h c) r'.source) → ∀ rest',
        RequestsFresh F h c blocks.tail rest' →
        RequestsFresh F h c blocks (r' :: rest') := by
      intro r' hsame hfresh rest' hrest i x hx
      cases i with
      | zero =>
        simp only [getElem?_cons_zero, Option.some.injEq] at hx
        subst hx
        exact ⟨hsame ▸ hhead, hfresh⟩
      | succ i =>
        simp only [getElem?_cons_succ] at hx
        obtain ⟨hhash, hx'⟩ := hrest i x hx
        rw [getElem?_tail] at hhash
        exact ⟨hhash, hx'⟩
    cases index with
    | zero =>
      unfold readRequest at hread
      split at hread
      · rename_i hnone
        obtain rfl := Option.some.inj hread
        refine hcons ⟨r.hash, .disk (some (readPayload c.files r.hash readable))⟩ rfl
          (fun hh => ?_) _ htail
        have hfile := hsource hh
        rw [hnone] at hfile
        dsimp only at hh ⊢
        unfold readPayload
        cases readable with
        | false => exact trivial
        | true =>
          simp only [if_true]
          rw [hh]
          cases hlookup : c.files.lookup h with
          | none => exact trivial
          | some q => exact hfile q hlookup
      · cases hread
    | succ index =>
      simp only [readRequest, Option.map_eq_some_iff] at hread
      obtain ⟨rest', hrest', rfl⟩ := hread
      exact hcons r rfl hsource rest' (ih htail hrest')

/-- The load with this number runs with fresh requests, or has returned a fresh answer. -/
def Served (F : Payload → Prop) (h : H) (call : Nat) (blocks : List H) (s : System H) : Prop :=
  (∃ load, s.loads.lookup call = some load ∧ s.returned.lookup call = none ∧
    RequestsFresh F h s.cache blocks load.requests) ∨
  (s.loads.lookup call = none ∧ ∃ payloads, s.returned.lookup call = some payloads ∧
    AnswerFresh F h blocks payloads)

variable {a : Action H}

/-- A fresh file stays fresh: what writers publish for `h` is in `F`. -/
theorem fileFresh_step {h : H} {s s' : System H}
    (hstocked : Stocked (fun w => w.hash = h → F w.payload) (fun k q => k = h → F q) s)
    (hstep : step s a = some s') (hf : FileFresh F h s.cache) : FileFresh F h s'.cache := by
  intro q hq
  rcases (step_shrinks hstep).1 h q hq with hold | ⟨writer, outcome, w, -, hw, hhash, rfl⟩
  · exact hf q hold
  · exact hstocked.writers writer _ hw (by simp) hhash

theorem requestsFresh_step {h : H} {s s' : System H} {requests : List (LoadRequest H)}
    (hstocked : Stocked (fun w => w.hash = h → F w.payload) (fun k q => k = h → F q) s)
    (hstep : step s a = some s') (hr : RequestsFresh F h s.cache blocks requests) :
    RequestsFresh F h s'.cache blocks requests := by
  intro i r hrequest
  obtain ⟨hhash, hsource⟩ := hr i r hrequest
  refine ⟨hhash, fun hh => ?_⟩
  have hall := hsource hh
  cases hs : r.source with
  | hot q =>
    rw [hs] at hall
    exact hall
  | pending q =>
    rw [hs] at hall
    exact hall
  | disk read =>
    rw [hs] at hall
    cases read with
    | none => exact fileFresh_step hstocked hstep hall
    | some result =>
      cases result with
      | none => trivial
      | some q => exact hall

variable {call : Nat}

/-- **One step** of the system while a load is served. -/
theorem served_step {h : H} {s s' : System H}
    (hstocked : Stocked (fun w => w.hash = h → F w.payload) (fun k q => k = h → F q) s)
    (hs : Served F h call blocks s) (hstep : step s a = some s') :
    Served F h call blocks s' := by
  have hstay : s'.loads.lookup call = s.loads.lookup call →
      s'.returned.lookup call = s.returned.lookup call → Served F h call blocks s' := by
    intro hloads hreturned
    unfold Served
    rw [hloads, hreturned]
    refine hs.imp_left ?_
    rintro ⟨load, hload, hnone, hr⟩
    exact ⟨load, hload, hnone, requestsFresh_step hstocked hstep hr⟩
  -- a load that ends answers the call it belongs to
  have hend : ∀ c load payloads, s.loads.lookup c = some load → s'.loads = s.loads.erase c →
      s'.returned = s.returned.insert c payloads →
      (RequestsFresh F h s.cache blocks load.requests → AnswerFresh F h blocks payloads) →
      Served F h call blocks s' := by
    intro c load payloads hload hloads hreturned hanswer
    by_cases hc : call = c
    · subst hc
      rcases hs with ⟨load', hload', -, hr⟩ | ⟨hnone, -⟩
      · obtain rfl := Option.some.inj (hload.symm.trans hload')
        refine Or.inr ⟨?_, payloads, ?_, hanswer hr⟩
        · rw [hloads]
          exact AList.lookup_erase call s.loads
        · rw [hreturned]
          exact AList.lookup_insert s.returned
      · rw [hnone] at hload
        cases hload
    · refine hstay ?_ ?_
      · rw [hloads]
        exact AList.lookup_erase_ne hc
      · rw [hreturned]
        exact AList.lookup_insert_ne hc
  obtain ⟨-, -, hreturned, hloads⟩ := step_calls hstep
  cases a with
  | loadBegin c bs =>
    obtain ⟨hnotloading, hnotreturned, rfl⟩ := step_loadBegin hstep
    have hc : call ≠ c := by
      rintro rfl
      rcases hs with ⟨load, hload, -⟩ | ⟨-, payloads, hanswered, -⟩
      · exact hnotloading (Table.mem_of_lookup hload)
      · exact hnotreturned (Table.mem_of_lookup hanswered)
    exact hstay (AList.lookup_insert_ne hc) rfl
  | loadRead c index readable =>
    obtain ⟨load, requests, hload, hread, rfl⟩ := step_loadRead hstep
    by_cases hc : call = c
    · subst hc
      rcases hs with ⟨load', hload', hnone, hr⟩ | ⟨hnone, -⟩
      · obtain rfl := Option.some.inj (hload.symm.trans hload')
        exact Or.inl ⟨_, AList.lookup_insert s.loads, hnone, readRequest_fresh hr hread⟩
      · rw [hnone] at hload
        cases hload
    · exact hstay (AList.lookup_insert_ne hc) rfl
  | loadFinish c env =>
    obtain ⟨load, hload, -, rfl⟩ := step_loadFinish hstep
    exact hend c load _ hload rfl rfl fun hr => finishLoad_fresh env hr
  | loadAbort c env =>
    obtain ⟨load, hload, rfl⟩ := step_loadAbort hstep
    exact hend c load [] hload rfl rfl fun _ i q _ hq => by simp at hq
  | _ => exact hstay (by rw [hloads rfl]) (by rw [hreturned rfl])

theorem served_loadBegin {h : H} {s s' : System H}
    (hhot : ∀ e, s.cache.hot.lookup h = some e → F e.payload)
    (hpending : ∀ q, s.cache.pending.lookup h = some q → F q)
    (hcold : h ∉ s.cache.hot → h ∉ s.cache.pending → h ∈ s.cache.disk → FileFresh F h s.cache)
    (hstep : step s (.loadBegin call blocks) = some s') : Served F h call blocks s' := by
  obtain ⟨-, hnotreturned, rfl⟩ := step_loadBegin hstep
  refine Or.inl ⟨_, AList.lookup_insert s.loads, AList.lookup_eq_none.mpr hnotreturned, ?_⟩
  have hleased : h ∉ s.cache.hot → h ∉ s.cache.pending → h ∈ s.cache.disk →
      FileFresh F h (leaseLocked s.cache blocks).1 :=
    fun hh hp hd q hq => hcold hh hp hd q
      (((Shrinks.sections s.cache).pins.leaseLocked blocks (Shrinks.refl _)).files h q hq)
  exact leaseLocked_fresh hhot hpending hleased blocks

theorem Fresh.served {h : H} {s s' : System H} (hs : Fresh F h s)
    (hstep : PrefixCache.step s (.loadBegin call blocks) = some s') :
    Served F h call blocks s' := by
  refine served_loadBegin (fun e he => hs.stocked.cache.hot h e he rfl)
    (fun q hq => hs.stocked.cache.pending h q hq rfl) (fun hh hp _ => ?_) hstep
  -- a block that is not in RAM is not dirty
  refine hs.file_settled (fun hd => ?_) hp
  obtain ⟨w, hw⟩ := (Table.mem_iff _ _).mp hd
  obtain ⟨e, he, -⟩ := hs.coherent.dirty h w hw
  exact hh (Table.mem_of_lookup he)

/-! ### After an invalidate -/

/-- No tier has the block, and no write of it is under way. -/
structure Gone (h : H) (s : System H) : Prop where
  stocked : Stocked (fun w => w.hash = h → False) (fun k _ => k = h → False) s
  disk : h ∉ s.cache.disk

namespace Gone

variable {h : H} {s s' : System H}

theorem hot (hs : Gone h s) : h ∉ s.cache.hot := by
  intro hmem
  obtain ⟨e, he⟩ := (Table.mem_iff _ _).mp hmem
  exact hs.stocked.cache.hot h e he rfl

theorem pending (hs : Gone h s) : h ∉ s.cache.pending := by
  intro hmem
  obtain ⟨p, hp⟩ := (Table.mem_iff _ _).mp hmem
  exact hs.stocked.cache.pending h p hp rfl

theorem available (hs : Gone h s) : s.cache.available h = false := by
  simp [Cache.available, hs.disk, hs.pending, hs.hot]

theorem current (hs : Gone h s) : s.cache.current h = none := by
  have hd : s.cache.deferred.lookup h = none := by
    refine AList.lookup_eq_none.mpr fun hmem => ?_
    obtain ⟨w, hw⟩ := (Table.mem_iff _ _).mp hmem
    exact (hs.stocked.cache.deferred h w hw).2 rfl
  unfold Cache.current
  rw [hd, AList.lookup_eq_none.mpr hs.pending]
  exact if_neg hs.disk

theorem step (hs : Gone h s) (hsafe : FreshSafe s a)
    (hstore : ∀ call args env, a = .store call args env → args.hash s.cache.config ≠ h)
    (hstep : step s a = some s') : Gone h s' := by
  refine ⟨stocked_step hs.stocked (fun _ _ _ _ hr => hr) ?_ ?_ hstep, fun hmem => ?_⟩
  · intro call args env ha
    exact ⟨hstore call args env ha, hstore call args env ha⟩
  · rintro call env load rfl hload hepoch x hx hk
    have hall := loadsMeet_loadFinish hsafe.2.2 hload hepoch
    rw [all_eq_true] at hall
    have hcurrent : s.cache.current x.1 = some x.2 := by simpa [putsBackCurrent] using hall x hx
    rw [hk, hs.current] at hcurrent
    cases hcurrent
  · rcases (step_shrinks hstep).2 h hmem with hold | ⟨writer, env, w, success, -, hw, hhash⟩
    · exact hs.disk hold
    · exact hs.stocked.writers writer _ hw (by simp) hhash

end Gone

/-- Erasing a block that is not queued leaves nothing of it. -/
theorem Tracked.erase_gone {h : H} {W : H → Nat} {P : H → Prop} (ht : Tracked F h W P c)
    (hp : h ∉ c.pending) (env : Env H) :
    Holds (fun w : WriteRequest H => w.hash = h → False) (fun k _ => k = h → False)
      (PrefixCache.eraseCorruptLocked env c h).1 := by
  have hrest : ∀ d : Cache H, d.pending = c.pending → d.writes = c.writes →
      d.deferred = c.deferred.erase h → h ∉ d.hot →
      Holds (fun w : WriteRequest H => w.hash = h → False) (fun k _ => k = h → False) d := by
    intro d hpending hwrites hdeferred hhot
    refine ⟨?_, ?_, fun k w hw => ?_, fun w hw => ?_⟩
    · rintro k e he rfl
      exact hhot (Table.mem_of_lookup he)
    · rintro k q hq rfl
      rw [hpending] at hq
      exact hp (Table.mem_of_lookup hq)
    · rw [hdeferred, Table.lookup_erase_ite] at hw
      split at hw
      · cases hw
      · rename_i hk
        exact ⟨fun hhash => hk ((ht.named k w hw).symm.trans hhash), hk⟩
    · rw [hwrites] at hw
      exact ht.no_write hp w hw
  have hdropped : ∀ d : Cache H, h ∉ (PrefixCache.dropHot d h).hot := by
    intro d
    rw [dropHot_eq]
    exact fun hmem => (AList.mem_erase.mp hmem).1 rfl
  unfold PrefixCache.eraseCorruptLocked
  dsimp only
  split
  · refine Holds.trimming (Trimming.forget _ h) (hrest _ ?_ ?_ ?_ (hdropped _)) <;>
    · rw [dropHot_eq]
      dsimp only
      split
      · rw [dropDisk_eq]
        rfl
      · rfl
  · rename_i hnone
    exact hrest _ rfl rfl rfl fun hmem => hnone (Or.inr hmem)

/-- **After an `invalidate`** its block is gone. -/
theorem gone_invalidate {h : H} {s s' : System H} {env : Env H} (hw : Watched F h s)
    (hstep : step s (.invalidate h env) = some s') : Gone h s' := by
  obtain ⟨hp, rfl⟩ := step_invalidate hstep
  refine ⟨⟨hw.erase_gone hp env, fun id call hcall hopen hhash => ?_⟩, ?_⟩
  · have hone := hw.one h
    rw [if_neg hp] at hone
    have hpos : 0 < writing s.writers call.request.hash := writing_pos hcall hopen
    rw [hhash] at hpos
    omega
  · rw [← AList.lookup_eq_none]
    exact (eraseCorrupt_disk s.cache h h).trans (if_pos rfl)

theorem Gone.served {h : H} {s s' : System H} (hs : Gone h s)
    (hstep : PrefixCache.step s (.loadBegin call blocks) = some s') :
    Served (fun _ => False) h call blocks s' :=
  served_loadBegin (fun e he => hs.stocked.cache.hot h e he rfl)
    (fun q hq => hs.stocked.cache.pending h q hq rfl) (fun _ _ hd => absurd hd hs.disk) hstep

/-! ### Matches -/

/-- `match` accepts only a block that some tier has. -/
theorem advanceMatch_blocks (env : Env H) (c : Cache H) (m : MatchCall H) :
    (advanceMatch env c m).2.blocks = m.blocks ∨
      ∃ h, (advanceMatch env c m).2.blocks = m.blocks ++ [h] ∧
        (advanceMatch env c m).1.available h = true := by
  have hcheck : ∀ h parent count, (checkBlock env c h parent count).2 =
      (checkBlock env c h parent count).1.available h := by
    intro h parent count
    unfold checkBlock
    split
    · rfl
    · split <;> rfl
  unfold advanceMatch
  split
  · dsimp only
    split
    · exact Or.inl rfl
    · split
      · rename_i havailable
        rw [hcheck] at havailable
        exact Or.inr ⟨_, rfl, havailable⟩
      · exact Or.inl rfl
  · exact Or.inl rfl
  · exact Or.inl rfl
  · dsimp only
    split
    · rename_i havailable
      rw [hcheck] at havailable
      exact Or.inr ⟨_, rfl, havailable⟩
    · exact Or.inl rfl
  · exact Or.inl rfl

/-- The match with this number has not found the block. -/
def Unmatched (h : H) (call : Nat) (s : System H) : Prop :=
  ∃ m, s.matching.lookup call = some m ∧ h ∉ m.blocks

theorem unmatched_step {h : H} {s s' : System H} (hs : Unmatched h call s) (hgone : Gone h s')
    (hstep : step s a = some s') :
    Unmatched h call s' := by
  obtain ⟨m, hm, hnot⟩ := hs
  obtain ⟨-, hmatching, -, -⟩ := step_calls hstep
  cases a with
  | matchBegin c tokens extraKey =>
    obtain ⟨hfresh, rfl⟩ := step_matchBegin hstep
    have hc : call ≠ c := by
      rintro rfl
      exact hfresh (Table.mem_of_lookup hm)
    exact ⟨m, (AList.lookup_insert_ne hc).trans hm, hnot⟩
  | matchStep c env =>
    obtain ⟨m', hm', rfl⟩ := step_matchStep hstep
    by_cases hc : call = c
    · subst hc
      obtain rfl := Option.some.inj (hm.symm.trans hm')
      refine ⟨_, AList.lookup_insert s.matching, ?_⟩
      rcases advanceMatch_blocks env s.cache m with hsame | ⟨k, hpush, havailable⟩
      · rw [hsame]
        exact hnot
      · rw [hpush, mem_append, mem_singleton]
        rintro (hold | rfl)
        · exact hnot hold
        · have hnone := hgone.available
          dsimp only at hnone
          rw [hnone] at havailable
          cases havailable
    · exact ⟨m, (AList.lookup_insert_ne hc).trans hm, hnot⟩
  | _ =>
    refine ⟨m, ?_, hnot⟩
    rw [hmatching rfl]
    exact hm

/-! ### Every run -/

/-- The condition on a run, step by step. -/
def FreshStep (s : System H) (a : Action H) : Prop := FreshSafe s a ∧ a.Regular

variable {actions : List (Action H)}

theorem watched_run {env : Env H} {config : Config H} {found : List (FoundBlock H)} {s : System H}
    (hrem : env.RemovesSucceed) (hfew : found.length < u64Max)
    (hok : Meets step FreshStep (initial env config found) actions)
    (hrun : run step (initial env config found) actions = some s) (h : H) :
    Watched (fun _ => True) h s ∧ Coherent s.cache ∧
      s.cache.config.blockHash = config.blockHash := by
  refine run_invariant (I := fun s => Watched (fun _ => True) h s ∧ Coherent s.cache ∧
    s.cache.config.blockHash = config.blockHash) ?_ ?_ hok hrun
  · rintro s a s' ⟨hwatched, hcoherent, hhash⟩ ⟨hsafe, hregular⟩ hstep
    exact ⟨watched_step hwatched hregular hsafe (fun _ _ _ _ => trivial) hstep,
      coherent_step s a s' hcoherent hsafe.1 hstep, (step_blockHash hstep).trans hhash⟩
  · have hconfig : (openCache env config found).config = config :=
      (Steady.openCache env config found).config
    exact ⟨watched_initial hrem config hfew h, Coherent.openCache config found,
      congrArg Config.blockHash hconfig⟩

omit [DecidableEq H] in
theorem hash_congr {config config' : Config H} (args : StoreArgs H)
    (hhash : config'.blockHash = config.blockHash) : args.hash config' = args.hash config := by
  unfold StoreArgs.hash
  rw [hhash]

/-- Everything stays fresh along a run whose stores of `h` are in `F`, together with what the
    calls of the run have been served. -/
theorem fresh_run {h : H} {config : Config H} {I : System H → Prop} {s s' : System H}
    (hs : Fresh F h s) (hI : I s)
    (hkeep : ∀ s a s', Fresh F h s → I s → step s a = some s' → I s')
    (hhash : s.cache.config.blockHash = config.blockHash) (hok : Meets step FreshStep s actions)
    (hstores : ∀ a ∈ actions, ∀ q, storesPayload config h q a → F q)
    (hrun : run step s actions = some s') :
    Fresh F h s' ∧ I s' ∧ s'.cache.config.blockHash = config.blockHash := by
  refine run_invariant (I := fun s => Fresh F h s ∧ I s ∧
    s.cache.config.blockHash = config.blockHash) ?_ ⟨hs, hI, hhash⟩
    (hok.and_forall hstores) hrun
  rintro s a s' ⟨hfresh, hI, hhash⟩ ⟨⟨hsafe, hregular⟩, hstored⟩ hstep
  refine ⟨hfresh.step hregular hsafe ?_ hstep, hkeep s a s' hfresh hI hstep,
    (step_blockHash hstep).trans hhash⟩
  rintro call args env rfl hargs
  rw [hash_congr args hhash] at hargs
  exact hstored args.payload ⟨hargs, rfl⟩

/-- A block stays gone along a run without a store of it, together with what the loads and
    matches of the run have not found. -/
theorem gone_run {h : H} {config : Config H} {I : System H → Prop} {s s' : System H}
    (hs : Gone h s) (hI : I s)
    (hkeep : ∀ s a s', Gone h s → Gone h s' → I s → step s a = some s' → I s')
    (hhash : s.cache.config.blockHash = config.blockHash) (hok : Meets step FreshStep s actions)
    (hstores : ∀ a ∈ actions, ¬storesBlock config h a) (hrun : run step s actions = some s') :
    Gone h s' ∧ I s' ∧ s'.cache.config.blockHash = config.blockHash := by
  refine run_invariant (I := fun s => Gone h s ∧ I s ∧
    s.cache.config.blockHash = config.blockHash) ?_ ⟨hs, hI, hhash⟩
    (hok.and_forall hstores) hrun
  rintro s a s' ⟨hgone, hI, hhash⟩ ⟨⟨hsafe, -⟩, hstored⟩ hstep
  have hgone' : Gone h s' := by
    refine hgone.step hsafe ?_ hstep
    rintro call args env rfl hargs
    rw [hash_congr args hhash] at hargs
    exact hstored hargs
  exact ⟨hgone', hkeep s a s' hgone hgone' hI hstep, (step_blockHash hstep).trans hhash⟩

theorem Served.answer {h : H} {s : System H} {payloads : List Payload}
    (hs : Served F h call blocks s) (hreturned : s.returned.lookup call = some payloads) :
    AnswerFresh F h blocks payloads := by
  rcases hs with ⟨load, -, hnone, -⟩ | ⟨-, payloads', hanswer, hfresh⟩
  · rw [hnone] at hreturned
    cases hreturned
  · obtain rfl := Option.some.inj (hreturned.symm.trans hanswer)
    exact hfresh

section Runs

variable {env : Env H} {config : Config H} {found : List (FoundBlock H)} {s : System H}
  {before middle after : List (Action H)}

theorem load_after_replace {c : Nat} {args : StoreArgs H} {e : Env H} (hrem : env.RemovesSucceed)
    (hfew : found.length < u64Max)
    (hok : Meets step FreshStep (initial env config found)
      (before ++ .store c args e :: (middle ++ .loadBegin call blocks :: after)))
    (hrun : run step (initial env config found)
      (before ++ .store c args e :: (middle ++ .loadBegin call blocks :: after)) = some s)
    (hreplace : args.replaceExisting = true) :
    Served (fun q => q = args.payload ∨ ∃ a ∈ middle ++ after,
      storesPayload config (args.hash config) q a) (args.hash config) call blocks s := by
  obtain ⟨s₀, s₁, ⟨hbefore, hok₀⟩, ⟨hstore, hoks⟩, hrest, hokrest⟩ := hok.split hrun
  obtain ⟨s₂, s₃, ⟨hmiddle, hok₁⟩, ⟨hbegin, hokb⟩, hafter, hok₃⟩ := hokrest.split hrest
  obtain ⟨hwatched, hcoherent, hhash⟩ := watched_run hrem hfew hok₀ hbefore (args.hash config)
  have hfresh₁ : Fresh (fun q => q = args.payload ∨ ∃ a ∈ middle ++ after,
      storesPayload config (args.hash config) q a) (args.hash config) s₁ :=
    fresh_replace hwatched hcoherent hoks.1 hoks.2.removes (hash_congr args hhash) hreplace
      (Or.inl rfl) hstore
  obtain ⟨hfresh₂, -, hhash₂⟩ := fresh_run (I := fun _ => True) hfresh₁ trivial
    (fun _ _ _ _ _ _ => trivial) ((step_blockHash hstore).trans hhash) hok₁
    (fun a ha q hq => Or.inr ⟨a, mem_append_left _ ha, hq⟩) hmiddle
  have hfresh₃ := hfresh₂.step hokb.2 hokb.1 (fun _ _ _ hfalse => by cases hfalse) hbegin
  exact (fresh_run hfresh₃ (hfresh₂.served hbegin)
    (fun _ _ _ hfresh hserved hstep => served_step hfresh.stocked hserved hstep)
    ((step_blockHash hbegin).trans hhash₂) hok₃
    (fun a ha q hq => Or.inr ⟨a, mem_append_right _ ha, hq⟩) hafter).2.1

/-- After an `invalidate` the block is gone before and after any later action, until it is
    stored again. -/
theorem gone_after_invalidate {h : H} {e : Env H} (hrem : env.RemovesSucceed)
    (hfew : found.length < u64Max)
    (hok : Meets step FreshStep (initial env config found)
      (before ++ .invalidate h e :: (middle ++ a :: after)))
    (hrun : run step (initial env config found)
      (before ++ .invalidate h e :: (middle ++ a :: after)) = some s)
    (hstores : ∀ b ∈ middle ++ a :: after, ¬storesBlock config h b) :
    ∃ s₂ s₃, Gone h s₂ ∧ step s₂ a = some s₃ ∧ ∀ I : System H → Prop, I s₃ →
        (∀ s a s', Gone h s → Gone h s' → I s → step s a = some s' → I s') → I s := by
  obtain ⟨s₀, s₁, ⟨hbefore, hok₀⟩, ⟨hinvalidate, -⟩, hrest, hokrest⟩ := hok.split hrun
  obtain ⟨s₂, s₃, ⟨hmiddle, hok₁⟩, ⟨hstep, hoka⟩, hafter, hok₃⟩ := hokrest.split hrest
  obtain ⟨hwatched, -, hhash⟩ := watched_run hrem hfew hok₀ hbefore h
  obtain ⟨hgone₂, -, hhash₂⟩ := gone_run (I := fun _ => True) (gone_invalidate hwatched hinvalidate)
    trivial (fun _ _ _ _ _ _ _ => trivial) ((step_blockHash hinvalidate).trans hhash) hok₁
    (fun b hb => hstores b (mem_append_left _ hb)) hmiddle
  have hgone₃ : Gone h s₃ := by
    refine hgone₂.step hoka.1 ?_ hstep
    rintro call args env' rfl hargs
    rw [hash_congr args hhash₂] at hargs
    exact hstores _ (mem_append_right _ mem_cons_self) hargs
  refine ⟨s₂, s₃, hgone₂, hstep, fun I hI hkeep => ?_⟩
  exact (gone_run hgone₃ hI hkeep ((step_blockHash hstep).trans hhash₂) hok₃
    (fun b hb => hstores b (mem_append_right _ (mem_cons_of_mem _ hb))) hafter).2.1

end Runs

/-- The condition at one step: no slip is reached, and no removal that is asked for fails. -/
def Undisturbed (s : System H) (a : Action H) : Prop := FreshSafe s a ∧ a.removesSucceed

/-- **Replaced and invalidated blocks stay replaced and invalidated.**  In every run in which
    writes succeed, no removal fails (`hrem`: nor at the start) and the slips are not reached: a
    load that starts after a `replace` of a block returns for it the replaced payload, or one
    stored later, or misses; and a load or match that starts after an `invalidate` of a block
    that is not stored afterwards, also not by a `replace` that was waiting by then, does not
    return it. -/
theorem replaced_and_invalidated_stay {env : Env H} {config : Config H}
    {found : List (FoundBlock H)} {actions : List (Action H)} {s : System H}
    (hrem : env.RemovesSucceed) (hfew : found.length < u64Max)
    (hwrites : ∀ a ∈ actions, a.interleaved ∧ a.writesSucceed)
    (hsafe : Meets step Undisturbed (initial env config found) actions)
    (hrun : run step (initial env config found) actions = some s) :
    (∀ before c args e middle call blocks after payloads (i : Nat) q,
      actions = before ++ .store c args e :: (middle ++ .loadBegin call blocks :: after) →
      args.replaceExisting = true → s.returned.lookup call = some payloads →
      blocks[i]? = some (args.hash config) → payloads[i]? = some q →
      q = args.payload ∨ ∃ a ∈ middle ++ after, storesPayload config (args.hash config) q a) ∧
    (∀ before h e after, actions = before ++ .invalidate h e :: after →
      (∀ a ∈ after, ¬storesBlock config h a) →
      (∀ middle call blocks rest payloads (i : Nat),
        after = middle ++ .loadBegin call blocks :: rest →
        s.returned.lookup call = some payloads → blocks[i]? = some h → payloads[i]? = none) ∧
      ∀ middle call tokens extraKey rest m,
        after = middle ++ .matchBegin call tokens extraKey :: rest →
        s.matching.lookup call = some m → h ∉ m.blocks) := by
  have hok : Meets step FreshStep (initial env config found) actions :=
    (hsafe.and_forall hwrites).mono fun _ _ h => ⟨h.1.1, h.2.1, h.2.2, h.1.2⟩
  refine ⟨?_, ?_⟩
  · rintro before c args e middle call blocks after payloads i q rfl hreplace hreturned
    exact (load_after_replace hrem hfew hok hrun hreplace).answer hreturned i q
  · rintro before h e after rfl hstores
    refine ⟨?_, ?_⟩
    · rintro middle call blocks rest payloads i rfl hreturned hblock
      obtain ⟨s₂, s₃, hgone, hbegin, hkeep⟩ := gone_after_invalidate hrem hfew hok hrun hstores
      have hserved := hkeep (Served (fun _ => False) h call blocks) (hgone.served hbegin)
        fun _ _ _ hgone _ hserved hstep => served_step hgone.stocked hserved hstep
      cases hpayload : payloads[i]? with
      | none => rfl
      | some q => exact (hserved.answer hreturned i q hblock hpayload).elim
    · rintro middle call tokens extraKey rest m rfl hm
      obtain ⟨s₂, s₃, hgone, hbegin, hkeep⟩ := gone_after_invalidate hrem hfew hok hrun hstores
      have hunmatched : Unmatched h call s₃ := by
        obtain ⟨-, rfl⟩ := step_matchBegin hbegin
        exact ⟨_, AList.lookup_insert s₂.matching, not_mem_nil⟩
      obtain ⟨m', hm', hnot⟩ := hkeep (Unmatched h call) hunmatched
        fun _ _ _ _ hgone hun hstep => unmatched_step hun hgone hstep
      obtain rfl := Option.some.inj (hm.symm.trans hm')
      exact hnot

/-- A load reads the first block, a `replace` of it is written to the end, and only then the
    load finishes; another load follows. -/
def staleReinsertion : List (Action Nat) :=
  [storeFirst 0 false [1]] ++ writeThrough ++ [.trimHot 0] ++ coldRead 1 ++
    [storeFirst 2 true [2]] ++ writeThrough ++
    [.loadFinish 1 {}, .loadBegin 3 [5], .loadFinish 3 {}]

/-- In that run the load that started after the `replace` returns the old payload, and no later
    store brought it. -/
theorem staleReinsertion_returns_old :
    (∀ a ∈ staleReinsertion, a.interleaved ∧ a.writesSucceed) ∧
    (∃ before e middle after, staleReinsertion =
      before ++ .store 2 ⟨0, [1, 2, 3, 4], [2], "", true⟩ e ::
        (middle ++ .loadBegin 3 [5] :: after) ∧
      ∀ a ∈ middle ++ after, ¬storesPayload (smallConfig 1000 10 false) 5 [1] a) ∧
    ∃ s, run step (initial {} (smallConfig 1000 10 false) []) staleReinsertion = some s ∧
      s.returned.lookup 3 = some [[1]] := by
  have hrun : (run step (initial {} (smallConfig 1000 10 false) []) staleReinsertion).map
      (fun s => s.returned.lookup 3) = some (some [[1]]) := by
    decide
  obtain ⟨s, hs, hreturned⟩ := Option.map_eq_some_iff.mp hrun
  refine ⟨by decide, ⟨[storeFirst 0 false [1]] ++ writeThrough ++ [.trimHot 0] ++ coldRead 1, {},
    writeThrough ++ [.loadFinish 1 {}], [.loadFinish 3 {}], rfl, ?_⟩, s, hs, hreturned⟩
  simp [writeThrough, storesPayload]

/-- Freshness on a run in which a load spans a `replace` that is still queued when the next
    load starts. -/
theorem replaced_and_invalidated_stay_replayed :
    ∃ s, run step (initial {} (smallConfig 1000 10 false) [])
        ([storeFirst 0 false [1]] ++ writeThrough ++ [storeFirst 2 true [2], .trimHot 0] ++
          [.loadBegin 3 [5], .loadFinish 3 {}]) = some s ∧
      ∀ payloads q, s.returned.lookup 3 = some payloads → payloads[0]? = some q → q = [2] := by
  have hrun : (run step (initial {} (smallConfig 1000 10 false) [])
      ([storeFirst 0 false [1]] ++ writeThrough ++ [storeFirst 2 true [2], .trimHot 0] ++
        [.loadBegin 3 [5], .loadFinish 3 {}])).isSome = true := by
    decide
  obtain ⟨s, hs⟩ := Option.isSome_iff_exists.mp hrun
  have hremoves : ∀ a ∈ [storeFirst 0 false [1]] ++ writeThrough ++
      [storeFirst 2 true [2], .trimHot 0] ++ [.loadBegin 3 [5], .loadFinish 3 {}],
      a.removesSucceed := by
    simp [writeThrough, storeFirst, Action.removesSucceed, Env.RemovesSucceed]
  have hsafe : Meets step FreshSafe (initial {} (smallConfig 1000 10 false) [])
      ([storeFirst 0 false [1]] ++ writeThrough ++ [storeFirst 2 true [2], .trimHot 0] ++
        [.loadBegin 3 [5], .loadFinish 3 {}]) := by
    decide
  have hall := replaced_and_invalidated_stay (fun h => ⟨rfl, rfl⟩) (by decide) (by decide)
    (hsafe.and_forall hremoves) hs
  refine ⟨s, hs, fun payloads q hreturned hq => ?_⟩
  have hfresh := hall.1 ([storeFirst 0 false [1]] ++ writeThrough) 2 _ {} [.trimHot 0] 3 [5]
    [.loadFinish 3 {}] payloads 0 q rfl rfl hreturned rfl hq
  rcases hfresh with hsame | ⟨a, ha, hstores⟩
  · exact hsame
  · simp only [cons_append, List.nil_append, mem_cons, not_mem_nil, or_false] at ha
    rcases ha with rfl | rfl <;> exact hstores.elim

end TyloQuant.PrefixCache
