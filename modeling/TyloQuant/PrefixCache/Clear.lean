import TyloQuant.PrefixCache.Emptied
import TyloQuant.PrefixCache.Files

/-!
# Clear

`clear` empties the maps under the lock, moves to a new epoch and waits for the active writers.
Files that a writer has published but not yet indexed are taken away by the writer itself when it
finds that its epoch is over.  A load from an older epoch puts nothing back.

So once `clear` has returned the cache is empty and stays so until a `store`, whatever the
interleaving and whichever removals fail.  The directory is empty too, if removals succeed and
the two slips that `Files.lean` is about are not reached.
-/

namespace TyloQuant.PrefixCache

open Lib

variable {H : Type} [DecidableEq H]

/-! ### The conditions -/

/-- No `match` is between two of its checks, with blocks already found, when `clear` returns. -/
def MatchesOver (s : System H) : Action H → Prop
  | .clearEnd => ∀ e ∈ s.matching.entries, e.2.phase = .done ∨ e.2.blocks = []
  | _ => True

instance (s : System H) (a : Action H) : Decidable (MatchesOver s a) := by
  apply @Action.casesOn _ (fun a => Decidable (MatchesOver s a)) a <;> intros <;>
    unfold MatchesOver <;> infer_instance

/-- The slips that leave a file behind are not reached. -/
def Paired (s : System H) (a : Action H) : Prop := StatSucceeds s a ∧ TextsPaired s a

instance (s : System H) (a : Action H) : Decidable (Paired s a) :=
  inferInstanceAs (Decidable (_ ∧ _))

/-! ### Every run -/

/-- The number of writers in flight is the active count. -/
def CountsWriters (s : System H) : Prop := s.cache.activeWrites = Table.total (fun _ => 1) s.writers

variable {s : System H}

omit [DecidableEq H] in
theorem countsWriters_addWriter {c' : Cache H} {id : WriterId} {w : Option (WriteRequest H)}
    (hs : CountsWriters s) (hid : id ∉ s.writers)
    (hsteady : Steady { s.cache with activeWrites := s.cache.activeWrites + w.toList.length } c') :
    CountsWriters ({ s with cache := c' }.addWriter id w) := by
  unfold CountsWriters at hs ⊢
  rw [addWriter_cache]
  have hactive := hsteady.active
  cases w with
  | none =>
    simp only [Option.toList_none, List.length_nil, Nat.add_zero] at hactive
    simp only [System.addWriter]
    omega
  | some v =>
    simp only [Option.toList_some, List.length_singleton] at hactive
    have hnone := AList.lookup_eq_none.mpr hid
    simp only [System.addWriter]
    rw [Table.total_insert_of_none _ hnone]
    omega

variable {s' : System H} {a : Action H}

theorem countsWriters_step (hs : CountsWriters s) (hstep : step s a = some s') :
    CountsWriters s' := by
  have hsame : s'.cache.activeWrites = s.cache.activeWrites → s'.writers = s.writers →
      CountsWriters s' := by
    intro hactive hwriters
    unfold CountsWriters at hs ⊢
    rw [hactive, hwriters]
    exact hs
  cases a with
  | store call args env =>
    obtain ⟨-, hid, rfl⟩ := step_store hstep
    exact countsWriters_addWriter hs hid (Steady.storeLocked env s.cache args)
  | writerTick env =>
    obtain ⟨hid, rfl⟩ := step_writerTick hstep
    exact countsWriters_addWriter hs hid (Steady.writerLoopHead env s.cache)
  | publish writer outcome =>
    obtain ⟨w, hw, rfl⟩ := step_publish hstep
    unfold CountsWriters at hs ⊢
    rw [hs]
    exact (Table.total_insert_of_same _ hw rfl).symm
  | finish writer env =>
    obtain ⟨w, success, hw, rfl⟩ := step_finish hstep
    unfold CountsWriters at hs ⊢
    rw [(Steady.finishWrite env s.cache w success).active, hs]
    exact (Table.total_insert_of_same _ hw rfl).symm
  | retire writer =>
    obtain ⟨w, hw, rfl⟩ := step_retire hstep
    unfold CountsWriters at hs ⊢
    rw [Table.total_erase_of_lookup _ hw]
    exact congrArg (· - 1) hs
  | setHotLimit maxBytes =>
    obtain rfl := Option.some.inj hstep
    exact hsame (Steady.trimming (Trimming.trimHotLocked maxBytes _)).active rfl
  | setDiskLimit maxBytes =>
    obtain rfl := Option.some.inj hstep
    refine hsame ?_ rfl
    unfold setDiskLimit
    dsimp only
    split <;> rfl
  | clearBegin env =>
    obtain ⟨-, rfl⟩ := step_clearBegin hstep
    refine hsame ?_ rfl
    exact (Steady.foldl (fun c h => removeText env (removeFile env c h) h)
      (fun _ _ => ⟨rfl, rfl, rfl, rfl⟩) s.cache s.cache.disk.keys).active
  | clearEnd =>
    obtain ⟨-, -, rfl⟩ := step_clearEnd hstep
    exact hsame rfl rfl
  | _ => exact hsame (step_quiet hstep rfl).active ((step_calls hstep).1 rfl)

/-- What a run of the cache keeps, with a `clear` waiting or not: the active count is right,
    nothing is from a later epoch than the cache, and while a `clear` waits for the writers the
    cache stays empty. -/
structure ClearInv (s : System H) : Prop where
  counts : CountsWriters s
  stocked : Stocked (fun w => w.epoch ≤ s.cache.cacheEpoch) (fun _ _ => True) s
  loads : ∀ call load, s.loads.lookup call = some load → load.epoch ≤ s.cache.cacheEpoch
  waiting : s.cache.clearing = true → Drained s

/-- `clear` drains the cache before it starts to wait. -/
theorem drained_clearBegin {env : Env H} (hs : ClearInv s)
    (hstep : step s (.clearBegin env) = some s') : Drained s' := by
  obtain ⟨-, rfl⟩ := step_clearBegin hstep
  refine ⟨⟨rfl, rfl, rfl, rfl, rfl, rfl, rfl, rfl⟩, ?_, ?_⟩
  · exact fun id call hcall hphase =>
      Nat.lt_succ_of_le (hs.stocked.writers id call hcall hphase)
  · exact fun call load hload => Or.inl (Nat.lt_succ_of_le (hs.loads call load hload))

theorem Stocked.mono {Q Q' : WriteRequest H → Prop} {R R' : H → Payload → Prop}
    (hs : Stocked Q R s) (hQ : ∀ w, Q w → Q' w) (hR : ∀ h p, R h p → R' h p) :
    Stocked Q' R' s where
  cache :=
    { hot := fun h e he => hR h _ (hs.cache.hot h e he)
      pending := fun h p hp => hR h p (hs.cache.pending h p hp)
      deferred := fun h w hw => ⟨hQ w (hs.cache.deferred h w hw).1,
        hR h _ (hs.cache.deferred h w hw).2⟩
      writes := fun w hw => hQ w (hs.cache.writes w hw) }
  writers := fun id call hcall hphase => hQ _ (hs.writers id call hcall hphase)

theorem clearInv_step (hs : ClearInv s) (hstep : step s a = some s') : ClearInv s' := by
  have hle : s.cache.cacheEpoch ≤ s'.cache.cacheEpoch := step_epoch_le hstep
  refine ⟨countsWriters_step hs.counts hstep, ?_, loads_epoch_step hs.loads hstep,
    fun hclearing => ?_⟩
  · refine Stocked.mono (stocked_step hs.stocked ?_ ?_ ?_ hstep) (fun w hw => hw.trans hle)
      (fun _ _ _ => trivial)
    · exact fun _ _ _ _ _ => Nat.le_refl _
    · exact fun call args env _ => ⟨Nat.le_refl _, trivial⟩
    · exact fun call env load _ _ _ x _ => trivial
  · by_cases hbegin : ∃ env, a = .clearBegin env
    · obtain ⟨env, rfl⟩ := hbegin
      exact drained_clearBegin hs hstep
    · rw [not_exists] at hbegin
      have hwait : s.cache.clearing = true := step_clearing hstep hbegin hclearing
      refine drained_step (hs.waiting hwait) ?_ hstep
      -- a `store` waits while a `clear` runs
      cases a with
      | store call args env =>
        obtain ⟨hready, -, -⟩ := step_store hstep
        simp [storeReady, hwait] at hready
      | _ => exact id

theorem clearInv_initial (env : Env H) (config : Config H) (found : List (FoundBlock H)) :
    ClearInv (initial env config found) := by
  have hopen := Steady.openCache env config found
  refine ⟨hopen.active, ⟨?_, ?_⟩, ?_, fun hclearing => ?_⟩
  · exact Holds.openCache config found fun _ _ _ _ _ => Nat.zero_le _
  · exact fun id call hcall => nomatch (AList.lookup_empty id).symm.trans hcall
  · exact fun call load hload => nomatch (AList.lookup_empty call).symm.trans hload
  · exact nomatch hopen.clearing.symm.trans hclearing

/-- The state after `clear` has returned in `s₁`, until a `store`. -/
structure Cleared (s₁ s : System H) : Prop where
  drained : Drained s
  writers : s.writers = ∅
  matching : ∀ call m, s.matching.lookup call = some m →
    m.blocks = [] ∨ m.phase = .done ∧ s₁.matching.lookup call = some m
  returned : ∀ call r, s.returned.lookup call = some r → r = [] ∨ s₁.returned.lookup call = some r

variable {s₁ : System H}

theorem cleared_clearEnd (hs : ClearInv s) (hok : MatchesOver s .clearEnd)
    (hstep : step s .clearEnd = some s₁) : Cleared s₁ s₁ := by
  obtain ⟨hwait, hactive, rfl⟩ := step_clearEnd hstep
  have hdrained := drained_step (hs.waiting hwait) id hstep
  refine ⟨hdrained, ?_, fun call m hm => ?_, fun call r hr => Or.inr hr⟩
  · exact Table.eq_empty_of_total_one (hs.counts.symm.trans hactive)
  · rcases hok _ (AList.mem_lookup_iff.mp hm) with hdone | hnil
    · exact Or.inr ⟨hdone, hm⟩
    · exact Or.inl hnil

theorem cleared_step (hs : Cleared s₁ s) (ha : ¬addsBlock s a) (hstep : step s a = some s') :
    Cleared s₁ s' := by
  have hc := hs.drained.cache
  obtain ⟨hwriters, hmatching, hreturned, -⟩ := step_calls hstep
  refine ⟨drained_step hs.drained ha hstep, ?_, ?_, ?_⟩
  · -- no request is handed out, and there is no writer to move
    have hnone : ∀ {id call}, s.writers.lookup id ≠ some call := by
      intro id call hcall
      rw [hs.writers, AList.lookup_empty] at hcall
      cases hcall
    cases a with
    | store call args env =>
      obtain ⟨-, -, rfl⟩ := step_store hstep
      rw [(hc.storeLocked args (Bool.eq_false_iff.mpr ha)).2]
      exact hs.writers
    | writerTick env =>
      obtain ⟨-, rfl⟩ := step_writerTick hstep
      rw [(hc.writerLoopHead env).2]
      exact hs.writers
    | publish writer outcome =>
      obtain ⟨w, hw, -⟩ := step_publish hstep
      exact absurd hw hnone
    | finish writer env =>
      obtain ⟨w, success, hw, -⟩ := step_finish hstep
      exact absurd hw hnone
    | retire writer =>
      obtain ⟨w, hw, -⟩ := step_retire hstep
      exact absurd hw hnone
    | _ => exact (hwriters rfl).trans hs.writers
  · cases a with
    | matchBegin call tokens extraKey =>
      obtain ⟨-, rfl⟩ := step_matchBegin hstep
      exact Table.forall_insert hs.matching (Or.inl rfl)
    | matchStep call env =>
      obtain ⟨m₀, hm₀, rfl⟩ := step_matchStep hstep
      obtain ⟨-, hblocks, hdone⟩ := hc.advanceMatch env m₀
      refine Table.forall_insert hs.matching ?_
      rcases hs.matching call m₀ hm₀ with hnil | ⟨hphase, hold⟩
      · exact Or.inl (hblocks.trans hnil)
      · rw [hdone hphase]
        exact Or.inr ⟨hphase, hold⟩
    | _ =>
      rw [hmatching rfl]
      exact hs.matching
  · have hinsert : ∀ call (r : List Payload), r = [] → ∀ call' r',
        (s.returned.insert call r).lookup call' = some r' →
          r' = [] ∨ s₁.returned.lookup call' = some r' := by
      rintro call r rfl call' r' hr'
      rcases Table.lookup_insert_cases hr' with ⟨-, rfl⟩ | ⟨-, hr'⟩
      · exact Or.inl rfl
      · exact hs.returned call' r' hr'
    cases a with
    | loadFinish call env =>
      obtain ⟨load, hload, -, rfl⟩ := step_loadFinish hstep
      exact hinsert call _ (hs.drained.finishLoad hload)
    | loadAbort call env =>
      obtain ⟨load, -, rfl⟩ := step_loadAbort hstep
      exact hinsert call _ rfl
    | _ =>
      rw [hreturned rfl]
      exact hs.returned

/-- No file is left once every file and text belongs to an indexed block or a writer. -/
theorem Cleared.directory (hs : Cleared s₁ s) (ho : Owned True (published s.writers) s.cache) :
    s.cache.files = ∅ ∧ s.cache.texts = ∅ := by
  refine ⟨eq_empty_of_notMem fun h hmem => ?_, eq_empty_of_notMem fun h hmem => ?_⟩
  · rcases ho.files h hmem with hdisk | ⟨id, w, hw, -⟩
    · exact hs.drained.cache.notMem_disk h hdisk
    · rw [hs.writers, AList.lookup_empty] at hw
      cases hw
  · exact hs.drained.cache.notMem_disk h (ho.texts trivial h hmem)

/-- With no text and no writer left, no slip can be reached. -/
theorem Cleared.paired (hs : Cleared s₁ s) (ho : Owned True (published s.writers) s.cache)
    (a : Action H) : Paired s a := by
  have htexts : ∀ h, h ∉ s.cache.texts := by
    rw [(hs.directory ho).2]
    exact AList.notMem_empty
  have hnone : ∀ {id call}, call ∉ s.writers.lookup id := by
    intro id call hcall
    rw [hs.writers, AList.lookup_empty] at hcall
    cases hcall
  cases a with
  | finish writer env =>
    exact ⟨fun call hcall => absurd hcall hnone, fun call hcall => absurd hcall hnone⟩
  | loadFinish call env => exact ⟨trivial, fun load _ _ h _ hmem => absurd hmem (htexts h)⟩
  | refreshDiskIndex env =>
    exact ⟨trivial, fun h hmem => absurd (AList.mem_keys.mpr hmem) (htexts h)⟩
  | _ => exact ⟨trivial, trivial⟩

/-- **`clear` is complete.**  In every run in which no `match` straddles the end of a `clear`,
    once `clear` has returned in `s₁` and until a `store` adds a block: every index and every
    counter is empty, no block is available, a load that returns returns nothing, and a match
    that is not over by then finds no block.  And the directory is empty, if removals succeed
    and neither slip is reached. -/
theorem clear_complete {env : Env H} {config : Config H} {found : List (FoundBlock H)}
    {before window : List (Action H)} {s₁ s : System H}
    (hover : Meets step MatchesOver (initial env config found) (before ++ [.clearEnd]))
    (hclear : run step (initial env config found) (before ++ [.clearEnd]) = some s₁)
    (hwindow : Meets step (fun s a => ¬addsBlock s a) s₁ window)
    (hrun : run step s₁ window = some s) :
    Emptied s.cache ∧ (∀ h, s.cache.available h = false) ∧
      (∀ call r, s.returned.lookup call = some r → r = [] ∨ s₁.returned.lookup call = some r) ∧
      (∀ call m, s.matching.lookup call = some m →
        m.blocks = [] ∨ m.phase = .done ∧ s₁.matching.lookup call = some m) ∧
      (env.RemovesSucceed → (∀ a ∈ before ++ window, a.removesSucceed) →
        Meets step Paired (initial env config found) before →
        s.cache.files = ∅ ∧ s.cache.texts = ∅) := by
  obtain ⟨s₀, hbefore, hend⟩ := run_append.mp hclear
  obtain ⟨hover₀, hoverEnd⟩ := meets_append hover hbefore
  have hinv : ClearInv s₀ :=
    run_invariant (fun _ _ _ hs _ hstep => clearInv_step hs hstep)
      (clearInv_initial env config found)
      (Meets.of_forall (p := fun _ => True) fun _ _ => trivial) hbefore
  have hstep : step s₀ .clearEnd = some s₁ := by simpa [run_cons] using hend
  have hfirst := cleared_clearEnd hinv hoverEnd.1 hstep
  have hcleared : Cleared s₁ s :=
    run_invariant (fun _ _ _ hs ha hstep => cleared_step hs ha hstep) hfirst hwindow hrun
  have hc := hcleared.drained.cache
  refine ⟨hc, hc.available, hcleared.returned, hcleared.matching, fun hrem hremoves hpaired => ?_⟩
  have ho₀ : Owned True (published s₀.writers) s₀.cache :=
    run_invariant (I := fun s => Owned True (published s.writers) s.cache)
      (fun _ _ _ ho hok hstep => owned_step ho hok.2 hok.1.1 (fun _ => hok.1.2) hstep)
      (Owned.openCache hrem config found)
      (hpaired.and_forall fun a ha => hremoves a (List.mem_append_left _ ha)) hbefore
  have ho₁ : Owned True (published s₁.writers) s₁.cache :=
    owned_step (a := .clearEnd) ho₀ trivial trivial (fun _ => trivial) hstep
  have hboth : Cleared s₁ s ∧ Owned True (published s.writers) s.cache := by
    refine run_invariant (I := fun s => Cleared s₁ s ∧ Owned True (published s.writers) s.cache)
      ?_ ⟨hfirst, ho₁⟩
      (hwindow.and_forall fun a ha => hremoves a (List.mem_append_right _ ha)) hrun
    intro s a s' hs ha hstep
    have hpair := hs.1.paired hs.2 a
    exact ⟨cleared_step hs.1 ha.1 hstep, owned_step hs.2 ha.2 hpair.1 (fun _ => hpair.2) hstep⟩
  exact hboth.1.directory hboth.2

/-- A store in flight, a load in flight and a queued write when `clear` starts; a load and a
    match afterwards. -/
def clearedInFlight : List (Action Nat) :=
  [storeFirst 0 false [1], .writerTick {}, .loadBegin 1 [5], .publish .thread .written,
    .clearBegin {}, .finish .thread {}, .retire .thread]

/-- Every part of the theorem over that run. -/
theorem clear_complete_replayed :
    ∃ s₁ s, run step (initial {} (smallConfig 1000 10 false) [])
        (clearedInFlight ++ [.clearEnd]) = some s₁ ∧
      run step s₁ [.loadFinish 1 {}, .loadBegin 2 [5], .loadFinish 2 {}] = some s ∧
      Emptied s.cache ∧ (s.cache.files = ∅ ∧ s.cache.texts = ∅) ∧
      s.returned.lookup 1 = some [] := by
  have hrun : ((run step (initial {} (smallConfig 1000 10 false) [])
      (clearedInFlight ++ [.clearEnd])).bind fun s₁ =>
        (run step s₁ [.loadFinish 1 {}, .loadBegin 2 [5], .loadFinish 2 {}]).map
          fun s => s.returned.lookup 1) = some (some []) := by
    decide
  obtain ⟨s₁, hclear, hs⟩ := Option.bind_eq_some_iff.mp hrun
  obtain ⟨s, hwindow, hreturned⟩ := Option.map_eq_some_iff.mp hs
  have hremoves : ∀ a ∈ clearedInFlight ++
      [.loadFinish 1 {}, .loadBegin 2 [5], .loadFinish 2 {}], a.removesSucceed := by
    simp [clearedInFlight, storeFirst, Action.removesSucceed, Env.RemovesSucceed]
  have hquiet : Meets step (fun s a => ¬addsBlock s a) s₁
      [.loadFinish 1 {}, .loadBegin 2 [5], .loadFinish 2 {}] :=
    (Meets.of_forall (p := fun a => ∀ s, ¬addsBlock s a) (by simp [addsBlock])).mono
      fun s a ha => ha s
  obtain ⟨hempty, -, -, -, hdirectory⟩ := clear_complete (by decide) hclear hquiet hwindow
  exact ⟨s₁, s, hclear, hwindow, hempty,
    hdirectory (fun h => ⟨rfl, rfl⟩) hremoves (by decide), hreturned⟩

/-- A load leases a corrupt file of the first block, which is then replaced.  The load cannot
    read it and erases the block, new file included; the writer then writes the token text,
    finds no file to index and leaves the text.  Then the cache is cleared. -/
def orphanedText : List (Action Nat) :=
  [.loadBegin 1 [5], .loadRead 1 0 false, storeFirst 0 true [2], .writerTick {},
    .publish .thread .written, .loadFinish 1 {}, .finish .thread {}, .retire .thread,
    .clearBegin {}, .clearEnd]

theorem orphanedText_survives_clear :
    (∀ a ∈ orphanedText, a.removesSucceed) ∧
      ∃ s, run step (initial {} (smallConfig 1000 10 false) [⟨5, 0, 4, [1], none⟩])
          orphanedText = some s ∧ s.cache.texts.lookup 5 = some [1, 2, 3, 4] := by
  refine ⟨by simp [orphanedText, storeFirst, Action.removesSucceed, Env.RemovesSucceed], ?_⟩
  have hrun : (run step (initial {} (smallConfig 1000 10 false) [⟨5, 0, 4, [1], none⟩])
      orphanedText).map (fun s => s.cache.texts.lookup 5) = some (some [1, 2, 3, 4]) := by
    decide
  obtain ⟨s, hs, htext⟩ := Option.map_eq_some_iff.mp hrun
  exact ⟨s, hs, htext⟩

end TyloQuant.PrefixCache
