import TyloQuant.PrefixCache.Contents

/-!
# Who owns a file

A block file is there because the index has an entry for it, or because a writer has published
it and not yet called `finish_write`.  A `.tokens` file belongs to an index entry.  As long as
removals succeed and a finishing write can ask for the size of its file, the first half holds
in every state.  The second half needs two slips not to be reached: `finish_write` writes the
token text before it asks for the size of the published file and forgets the text when that
file is no longer there, and dropping an entry whose file vanished does not remove the text.
-/

namespace TyloQuant.PrefixCache

open Lib

variable {H : Type} [DecidableEq H]

/-! ### Every file has an owner -/

/-- The removals an environment is asked for succeed. -/
def Env.RemovesSucceed (env : Env H) : Prop :=
  ∀ h, env.removeFails h = false ∧ env.textRemoveFails h = false

/-- Every block file is indexed or has a writer that published it and, if `T` is asked for,
    every token text belongs to an indexed block. -/
structure Owned (T : Prop) (W : H → Prop) (c : Cache H) : Prop where
  files : ∀ h, h ∈ c.files → h ∈ c.disk ∨ W h
  texts : T → ∀ h, h ∈ c.texts → h ∈ c.disk

theorem unlinkDisk_removed {env : Env H} (hrem : env.RemovesSucceed) (c : Cache H) (h : H) :
    (unlinkDisk env c h).files = c.files.erase h ∧
      (unlinkDisk env c h).texts = c.texts.erase h := by
  unfold unlinkDisk
  rw [dropDisk_eq]
  simp [removeText, removeFile, (hrem h).1, (hrem h).2]

namespace Owned

variable {T : Prop} {W : H → Prop} {env : Env H} {c c' : Cache H}

section

omit [DecidableEq H]

theorem grow (ho : Owned T W c) (hf : ∀ h, h ∈ c'.files → h ∈ c.files)
    (ht : ∀ h, h ∈ c'.texts → h ∈ c.texts) (hd : ∀ h, h ∈ c.disk → h ∈ c'.disk) :
    Owned T W c' :=
  ⟨fun h hh => (ho.files h (hf h hh)).imp_left (hd h),
    fun hT h hh => hd h (ho.texts hT h (ht h hh))⟩

theorem of_sameDisk (ho : Owned T W c) (hs : SameDisk c c') : Owned T W c' :=
  ho.grow (fun _ hh => hs.files ▸ hh) (fun _ hh => hs.texts ▸ hh) (fun _ hh => hs.disk ▸ hh)

/-- A block leaves the index together with its file and its text. -/
theorem unlink (ho : Owned T W c) (h : H)
    (hf : ∀ k, k ∈ c'.files → k ≠ h ∧ k ∈ c.files)
    (ht : T → ∀ k, k ∈ c'.texts → k ≠ h ∧ k ∈ c.texts)
    (hd : ∀ k, k ≠ h → k ∈ c.disk → k ∈ c'.disk) : Owned T W c' := by
  refine ⟨fun k hk => ?_, fun hT k hk => ?_⟩
  · obtain ⟨hne, hold⟩ := hf k hk
    exact (ho.files k hold).imp_left (hd k hne)
  · obtain ⟨hne, hold⟩ := ht hT k hk
    exact hd k hne (ho.texts hT k hold)

end

theorem mem_unlinkDisk (c : Cache H) {h k : H} (hk : k ≠ h) (hmem : k ∈ c.disk) :
    k ∈ (PrefixCache.unlinkDisk env c h).disk := by
  obtain ⟨e, he⟩ := (Table.mem_iff _ _).mp hmem
  refine Table.mem_of_lookup (v := e) ?_
  rw [unlinkDisk_disk, if_neg hk]
  exact he

theorem unlinkDisk (ho : Owned T W c) (hrem : env.RemovesSucceed) (h : H) :
    Owned T W (unlinkDisk env c h) := by
  obtain ⟨hfiles, htexts⟩ := unlinkDisk_removed hrem c h
  refine ho.unlink h ?_ ?_ (fun k hk hmem => mem_unlinkDisk c hk hmem)
  · intro k hk
    rw [hfiles] at hk
    exact AList.mem_erase.mp hk
  · intro _ k hk
    rw [htexts] at hk
    exact AList.mem_erase.mp hk

theorem setDisk (ho : Owned T W c) (h : H) (e : DiskEntry H) (hdisk : c'.disk = c.disk.insert h e)
    (hfiles : c'.files = c.files) (htexts : c'.texts = c.texts) : Owned T W c' := by
  refine ho.grow (fun k hk => hfiles ▸ hk) (fun k hk => htexts ▸ hk) fun k hk => ?_
  rw [hdisk, AList.mem_insert]
  exact Or.inr hk

theorem touchDisk (ho : Owned T W c) (h : H) : Owned T W (touchDisk c h) := by
  unfold PrefixCache.touchDisk
  split
  · exact ho
  · exact ho.setDisk h _ rfl rfl rfl

theorem move (hrem : env.RemovesSucceed) (hm : Move env c c') (ho : Owned T W c) :
    Owned T W c' := by
  cases hm with
  | ram hm => exact ho.of_sameDisk (SameDisk.trimming (.single hm))
  | disk hm =>
    cases hm with
    | tails => exact ho.of_sameDisk ⟨rfl, rfl, rfl⟩
    | evictDisk h e => exact (ho.of_sameDisk (SameDisk.redefer c h e)).unlinkDisk hrem h
  | touchHot h => exact ho.of_sameDisk (SameDisk.touchHot c h)
  | touchDisk h => exact ho.touchDisk h
  | supersede h =>
    have hrest : ∀ d : Cache H, Owned T W d → Owned T W (dropDeferred (dropHot d h) h) :=
      fun d hd => (hd.of_sameDisk (SameDisk.dropHot d h)).of_sameDisk ⟨rfl, rfl, rfl⟩
    refine hrest _ ?_
    split
    · exact ho.unlinkDisk hrem h
    · exact ho

theorem housekeeping (hrem : env.RemovesSucceed) (ht : Housekeeping env c c')
    (ho : Owned T W c) : Owned T W c' :=
  keeps (fun _ _ hm ho => move hrem hm ho) ht ho

theorem enforcing (hrem : env.RemovesSucceed) (ht : Enforcing env c c') (ho : Owned T W c) :
    Owned T W c' :=
  ho.housekeeping hrem ht.housekeeping

theorem trimming (ht : Trimming c c') (ho : Owned T W c) : Owned T W c' :=
  ho.of_sameDisk (SameDisk.trimming ht)

theorem backstage (hrem : env.RemovesSucceed)
    (ht : Relation.ReflTransGen (Backstage env) c c') (ho : Owned T W c) : Owned T W c' := by
  refine keeps ?_ ht ho
  intro d d' hb hd
  cases hb with
  | move hm => exact hd.move hrem hm
  | ram hsame => exact hd.of_sameDisk hsame

theorem eraseCorruptLocked (hrem : env.RemovesSucceed) (ho : Owned T W c) (h : H) :
    Owned T W (eraseCorruptLocked env c h).1 := by
  have hd : Owned T W (dropDeferred c h) := ho.of_sameDisk ⟨rfl, rfl, rfl⟩
  unfold PrefixCache.eraseCorruptLocked
  dsimp only
  split
  · refine trimming (Trimming.forget _ h) ?_
    split
    · exact (hd.unlinkDisk hrem h).of_sameDisk (SameDisk.dropHot _ h)
    · exact hd.of_sameDisk (SameDisk.dropHot _ h)
  · exact hd

/-- Dropping an entry whose file vanished is clean when it had no text. -/
theorem dropVanished (ho : Owned T W c) (h : H) (hf : h ∉ c.files)
    (ht : T → h ∉ c.texts) : Owned T W (dropDisk c h) := by
  rw [dropDisk_eq]
  refine ho.unlink h ?_ ?_ (fun k hk hmem => AList.mem_erase.mpr ⟨hk, hmem⟩)
  · intro k hk
    refine ⟨?_, hk⟩
    rintro rfl
    exact hf hk
  · intro hT k hk
    refine ⟨?_, hk⟩
    rintro rfl
    exact ht hT hk

theorem dropUnreadable (hrem : env.RemovesSucceed) (ho : Owned T W c) (h : H)
    (hpaired : T → h ∈ c.texts → h ∈ c.files ∨ env.statFails h = true) :
    Owned T W (dropUnreadable env c h) := by
  unfold PrefixCache.dropUnreadable
  split
  · rename_i hgone
    split
    · refine trimming (Trimming.forget _ _) (ho.dropVanished h hgone.1 fun hT ht => ?_)
      rcases hpaired hT ht with hf | hs
      · exact hgone.1 hf
      · rw [hgone.2] at hs
        cases hs
    · exact ho
  · exact ho.eraseCorruptLocked hrem h

/-- A text that has its block file keeps it, or loses it together with itself. -/
theorem paired_backstage (hrem : env.RemovesSucceed) {h : H}
    (ht : Relation.ReflTransGen (Backstage env) c c')
    (hp : h ∈ c.texts → h ∈ c.files ∨ env.statFails h = true) :
    h ∈ c'.texts → h ∈ c'.files ∨ env.statFails h = true := by
  refine keeps (P := fun d => h ∈ d.texts → h ∈ d.files ∨ env.statFails h = true) ?_ ht hp
  have hunlink : ∀ d k, (h ∈ d.texts → h ∈ d.files ∨ env.statFails h = true) →
      h ∈ (PrefixCache.unlinkDisk env d k).texts →
        h ∈ (PrefixCache.unlinkDisk env d k).files ∨ env.statFails h = true := by
    intro d k hd hmem
    obtain ⟨hfiles, htexts⟩ := unlinkDisk_removed hrem d k
    rw [htexts] at hmem
    rw [hfiles]
    obtain ⟨hne, hold⟩ := AList.mem_erase.mp hmem
    exact (hd hold).imp_left fun hf => AList.mem_erase.mpr ⟨hne, hf⟩
  have hsame : ∀ d d' : Cache H, SameDisk d d' →
      (h ∈ d.texts → h ∈ d.files ∨ env.statFails h = true) →
      (h ∈ d'.texts → h ∈ d'.files ∨ env.statFails h = true) := by
    intro d d' hs hd
    rw [hs.texts, hs.files]
    exact hd
  intro d d' hb hd
  cases hb with
  | ram hs => exact hsame d d' hs hd
  | move hm =>
    cases hm with
    | ram hm => exact hsame d d' (SameDisk.trimming (.single hm)) hd
    | disk hm =>
      cases hm with
      | tails => exact hd
      | evictDisk k e => exact hunlink _ k (hsame d _ (SameDisk.redefer d k e) hd)
    | touchHot k => exact hsame d _ (SameDisk.touchHot d k) hd
    | touchDisk k =>
      unfold PrefixCache.touchDisk
      split <;> exact hd
    | supersede k =>
      show h ∈ (dropHot (if k ∈ d.disk then PrefixCache.unlinkDisk env d k else d) k).texts →
        h ∈ (dropHot (if k ∈ d.disk then PrefixCache.unlinkDisk env d k else d) k).files ∨ _
      refine hsame _ _ (SameDisk.dropHot _ k) ?_
      split
      · exact hunlink d k hd
      · exact hd

theorem finishRequests (hrem : env.RemovesSucceed) (ho : Owned T W c)
    (requests : List (LoadRequest H))
    (hpaired : T → ∀ h ∈ unreadableBlock requests,
      h ∈ c.texts → h ∈ c.files ∨ env.statFails h = true) :
    Owned T W (finishRequests env c requests).1 := by
  have hback := finishRequests_backstage env c requests
  cases hblock : unreadableBlock requests with
  | none =>
    rw [hblock] at hback
    exact ho.backstage hrem hback
  | some h =>
    rw [hblock] at hback hpaired
    obtain ⟨d, hd, heq⟩ := hback
    rw [heq]
    exact (ho.backstage hrem hd).dropUnreadable hrem h
      fun hT => paired_backstage hrem hd (hpaired hT h rfl)

/-! ### Writing -/

/-- A finished write has handed its file to the index, or taken it away, or never had one. -/
theorem finishWrite {W' : H → Prop} (hrem : env.RemovesSucceed) (ho : Owned T W c)
    (w : WriteRequest H) (success : Bool)
    (hW : ∀ h, W h → W' h ∨ (success = true ∧ h = w.hash))
    (hstat : success = true → w.epoch = c.cacheEpoch → env.statFails w.hash = false)
    (hfound : T → success = true → w.epoch = c.cacheEpoch → w.hash ∈ c.files) :
    Owned T W' (finishWrite env c w success) := by
  have hsd := SameDisk.settlePending c w.hash
  have hepoch := (SameControl.settlePending c w.hash).epoch
  have hs := ho.of_sameDisk hsd
  unfold PrefixCache.finishWrite
  refine housekeeping hrem (Housekeeping.pruneTailCleanup _) ?_
  refine trimming (Trimming.forget _ _) ?_
  unfold settleFile
  split
  · rename_i hcurrent
    have hstat := hstat hcurrent.1 (hcurrent.2.trans hepoch)
    have hfiles : (writeText env (settlePending c w.hash) w).files = c.files := by
      unfold writeText
      split <;> exact hsd.files
    have hdisk : (writeText env (settlePending c w.hash) w).disk = c.disk := by
      unfold writeText
      split <;> exact hsd.disk
    have htexts : ∀ k, k ∈ (writeText env (settlePending c w.hash) w).texts →
        k = w.hash ∨ k ∈ c.texts := by
      intro k hk
      unfold writeText at hk
      split at hk
      · rw [← hsd.texts]
        exact (AList.mem_insert _).mp hk
      · rw [hsd.texts] at hk
        exact Or.inr hk
    dsimp only
    rw [hfiles]
    cases hfile : c.files.lookup w.hash with
    | none =>
      have hgone : w.hash ∉ c.files := AList.lookup_eq_none.mp hfile
      refine ⟨fun k hk => ?_, fun hT => ?_⟩
      · dsimp only at hk
        rw [hfiles] at hk
        dsimp only
        rw [hdisk]
        refine (ho.files k hk).imp_right fun hw => (hW k hw).resolve_right ?_
        rintro ⟨-, rfl⟩
        exact hgone hk
      · exact absurd (hfound hT hcurrent.1 (hcurrent.2.trans hepoch)) hgone
    | some file =>
      dsimp only
      rw [hstat]
      refine enforcing hrem (Enforcing.enforceBudget _ _ _) ?_
      generalize writeText env (settlePending c w.hash) w = d at *
      have hreg : ∀ k, k = w.hash ∨ k ∈ c.disk → k ∈ (registerFile d w file).disk := by
        intro k hk
        unfold registerFile
        dsimp only
        rw [dropDisk_eq, AList.mem_insert]
        by_cases hkw : k = w.hash
        · exact Or.inl hkw
        · refine Or.inr (AList.mem_erase.mpr ⟨hkw, ?_⟩)
          rw [hdisk]
          exact hk.resolve_left hkw
      have hregFiles : (registerFile d w file).files = d.files := by
        unfold registerFile
        dsimp only
        rw [dropDisk_eq]
      have hregTexts : (registerFile d w file).texts = d.texts := by
        unfold registerFile
        dsimp only
        rw [dropDisk_eq]
      refine ⟨fun k hk => ?_, fun hT k hk => ?_⟩
      · rw [hregFiles, hfiles] at hk
        rcases ho.files k hk with hd | hw
        · exact Or.inl (hreg k (Or.inr hd))
        · rcases hW k hw with hw' | ⟨-, hkw⟩
          · exact Or.inr hw'
          · exact Or.inl (hreg k (Or.inl hkw))
      · rw [hregTexts] at hk
        exact hreg k ((htexts k hk).imp_right (ho.texts hT k))
  · rename_i hnot
    split
    · rename_i hfailed
      refine ⟨fun k hk => ?_, hs.texts⟩
      refine (hs.files k hk).imp_right fun hw => ?_
      rcases hW k hw with hw' | ⟨hsuccess, -⟩
      · exact hw'
      · rw [hfailed] at hsuccess
        cases hsuccess
    · refine ⟨fun k hk => ?_, fun hT k hk => ?_⟩
      · have hk' : k ∈ (settlePending c w.hash).files.erase w.hash := by
          simpa [removeText, removeFile, (hrem w.hash).1] using hk
        obtain ⟨hne, hold⟩ := AList.mem_erase.mp hk'
        refine (hs.files k hold).imp_right fun hw => ?_
        exact (hW k hw).resolve_right fun hkw => hne hkw.2
      · have hk' : k ∈ (settlePending c w.hash).texts.erase w.hash := by
          simpa [removeText, removeFile, (hrem w.hash).2] using hk
        exact hs.texts hT k (AList.mem_erase.mp hk').2

/-! ### Pins, refresh, clear, open -/

theorem sections : Sections Env.RemovesSucceed (Owned T W) where
  limits _ _ ho := ho.of_sameDisk ⟨rfl, rfl, rfl⟩
  vanish h withText ho := by
    refine ho.grow (fun k hk => (AList.mem_erase.mp hk).2) (fun k hk => ?_) (fun _ hk => hk)
    dsimp only at hk
    split at hk
    · exact (AList.mem_erase.mp hk).2
    · exact hk
  pins :=
    { pins := fun _ ho => ho.of_sameDisk ⟨rfl, rfl, rfl⟩
      entry := fun _ ho _ => ho.setDisk _ _ rfl rfl rfl }
  erase h hrem ho := ho.eraseCorruptLocked hrem h
  enforceBudget hrem := enforcing hrem (Enforcing.enforceBudget _ _ _)
  trimHotLocked n := trimming (Trimming.trimHotLocked n _)

theorem refreshDiskIndex (ho : Owned T W c)
    (hpaired : T → ∀ h, h ∈ c.texts → h ∈ c.files ∨ env.statFails h = true) :
    Owned T W (refreshDiskIndex env c) := by
  have hboth : Owned T W (PrefixCache.refreshDiskIndex env c) ∧
      (T → ∀ h, h ∈ (PrefixCache.refreshDiskIndex env c).texts →
        h ∈ (PrefixCache.refreshDiskIndex env c).files ∨ env.statFails h = true) := by
    unfold PrefixCache.refreshDiskIndex
    refine List.foldlRecOn (motive := fun d : Cache H => Owned T W d ∧
      (T → ∀ h, h ∈ d.texts → h ∈ d.files ∨ env.statFails h = true)) _ _ ⟨ho, hpaired⟩ ?_
    rintro d ⟨hd, hp⟩ h -
    unfold refreshEntry
    split
    · exact ⟨hd, hp⟩
    · rename_i hgone
      rw [not_or] at hgone
      have hclean : SameDisk (dropHot (dropDisk d h) h)
          (dropDeferred (dropHot (dropDisk d h) h) h) := ⟨rfl, rfl, rfl⟩
      have hsame := ((SameDisk.dropHot (dropDisk d h) h).trans hclean).trans
        (SameDisk.trimming (Trimming.forget _ h))
      refine ⟨(hd.dropVanished h hgone.1 fun hT ht => ?_).of_sameDisk hsame, fun hT k hk => ?_⟩
      · exact (hp hT h ht).elim hgone.1 hgone.2
      · rw [hsame.texts, dropDisk_eq] at hk
        rw [hsame.files, dropDisk_eq]
        exact hp hT k hk
  exact hboth.1

/-- `clear` sweeps the file and the text of every indexed block. -/
theorem clearBegin (hrem : env.RemovesSucceed) (ho : Owned T W c) :
    Owned T W (clearBegin env c) := by
  have hsweep : ∀ (keys : List H) (d : Cache H) (k : H),
      (k ∈ (keys.foldl (fun c h => removeText env (removeFile env c h) h) d).files →
        k ∉ keys ∧ k ∈ d.files) ∧
      (k ∈ (keys.foldl (fun c h => removeText env (removeFile env c h) h) d).texts →
        k ∉ keys ∧ k ∈ d.texts) := by
    intro keys
    induction keys with
    | nil => exact fun d k => ⟨fun hk => ⟨List.not_mem_nil, hk⟩, fun hk => ⟨List.not_mem_nil, hk⟩⟩
    | cons h keys ih =>
      intro d k
      refine ⟨fun hk => ?_, fun hk => ?_⟩
      · obtain ⟨hnot, hmem⟩ := (ih _ k).1 hk
        have hmem' : k ∈ d.files.erase h := by
          simpa [removeText, removeFile, (hrem h).1] using hmem
        obtain ⟨hne, hold⟩ := AList.mem_erase.mp hmem'
        exact ⟨List.not_mem_cons_of_ne_of_not_mem hne hnot, hold⟩
      · obtain ⟨hnot, hmem⟩ := (ih _ k).2 hk
        have hmem' : k ∈ d.texts.erase h := by
          simpa [removeText, removeFile, (hrem h).2] using hmem
        obtain ⟨hne, hold⟩ := AList.mem_erase.mp hmem'
        exact ⟨List.not_mem_cons_of_ne_of_not_mem hne hnot, hold⟩
  refine ⟨fun h hh => ?_, fun hT h hh => ?_⟩
  · obtain ⟨hnot, hmem⟩ := (hsweep c.disk.keys c h).1 hh
    refine Or.inr ((ho.files h hmem).resolve_left fun hd => ?_)
    exact hnot (AList.mem_keys.mp hd)
  · obtain ⟨hnot, hmem⟩ := (hsweep c.disk.keys c h).2 hh
    exact absurd (AList.mem_keys.mp (ho.texts hT h hmem)) hnot

theorem openCache (hrem : env.RemovesSucceed) (config : Config H)
    (found : List (FoundBlock H)) : Owned T W (openCache env config found) := by
  unfold PrefixCache.openCache
  refine enforcing hrem (Enforcing.enforceBudget _ _ _) ?_
  have hempty : Owned T W ({ config := config } : Cache H) :=
    ⟨fun h hh => absurd hh (AList.notMem_empty h), fun _ h hh => absurd hh (AList.notMem_empty h)⟩
  refine List.foldlRecOn found _ hempty fun c hc b _ => ?_
  unfold scanEntry
  split
  · exact hc
  · refine trimming (Trimming.remember _ _ _ _) ⟨fun h hh => ?_, fun hT h hh => ?_⟩
    · rw [AList.mem_insert] at hh ⊢
      rcases hh with rfl | hold
      · exact Or.inl (Or.inl rfl)
      · exact (hc.files h hold).imp_left Or.inr
    · rw [AList.mem_insert]
      dsimp only at hh
      split at hh
      · exact Or.inr (hc.texts hT h hh)
      · rcases (AList.mem_insert _).mp hh with rfl | hold
        · exact Or.inl rfl
        · exact Or.inr (hc.texts hT h hold)

end Owned

/-! ### The conditions -/

/-- The removals of an action succeed. -/
def Action.removesSucceed : Action H → Prop
  | .store _ _ env => env.RemovesSucceed
  | .writerTick env => env.RemovesSucceed
  | .finish _ env => env.RemovesSucceed
  | .loadFinish _ env => env.RemovesSucceed
  | .loadAbort _ env => env.RemovesSucceed
  | .invalidate _ env => env.RemovesSucceed
  | .unpin _ env => env.RemovesSucceed
  | .refreshDiskIndex env => env.RemovesSucceed
  | .clearBegin env => env.RemovesSucceed
  | .matchStep _ env => env.RemovesSucceed
  | _ => True

omit [DecidableEq H] in
theorem Action.removesSucceed.env {a : Action H} (h : a.removesSucceed) :
    ∀ env ∈ a.env?, env.RemovesSucceed := by
  cases a <;> rintro env ⟨⟩ <;> exact h

/-- A finishing write of the current epoch can ask for the size of its file. -/
def StatSucceeds (s : System H) : Action H → Prop
  | .finish writer env =>
    ∀ call ∈ s.writers.lookup writer, call.phase = .published true →
      call.request.epoch = s.cache.cacheEpoch → env.statFails call.request.hash = false
  | _ => True

instance (s : System H) (a : Action H) : Decidable (StatSucceeds s a) := by
  apply @Action.casesOn _ (fun a => Decidable (StatSucceeds s a)) a <;> intros <;>
    unfold StatSucceeds <;> infer_instance

/-- A finishing write of the current epoch still finds the file it published, and an entry
    dropped because its file vanished has no text. -/
def TextsPaired (s : System H) : Action H → Prop
  | .finish writer _ =>
    ∀ call ∈ s.writers.lookup writer, call.phase = .published true →
      call.request.epoch = s.cache.cacheEpoch → call.request.hash ∈ s.cache.files
  | .loadFinish call env =>
    ∀ load ∈ s.loads.lookup call, load.epoch = s.cache.cacheEpoch →
      ∀ h ∈ unreadableBlock load.requests,
        h ∈ s.cache.texts → h ∈ s.cache.files ∨ env.statFails h = true
  | .refreshDiskIndex env =>
    ∀ h ∈ s.cache.texts.keys, h ∈ s.cache.files ∨ env.statFails h = true
  | _ => True

instance (s : System H) (a : Action H) : Decidable (TextsPaired s a) := by
  apply @Action.casesOn _ (fun a => Decidable (TextsPaired s a)) a <;> intros <;>
    unfold TextsPaired <;> infer_instance

/-! ### Every step -/

/-- Some writer has published the block's file and not yet finished. -/
def published (writers : Table WriterId (WriteCall H)) (h : H) : Prop :=
  ∃ id w, writers.lookup id = some ⟨w, .published true⟩ ∧ w.hash = h

section

omit [DecidableEq H]

theorem Owned.mono {T : Prop} {W W' : H → Prop} {c : Cache H} (ho : Owned T W c)
    (hW : ∀ h, W h → W' h) :
    Owned T W' c :=
  ⟨fun h hh => (ho.files h hh).imp_right (hW h), ho.texts⟩

/-- A writer that moves from one phase to another leaves what the others published. -/
theorem published_insert {writers : Table WriterId (WriteCall H)} {h : H} (id : WriterId)
    (call : WriteCall H) (hp : published writers h) :
    published (writers.insert id call) h ∨
      ∃ w, writers.lookup id = some ⟨w, .published true⟩ ∧ w.hash = h := by
  obtain ⟨id', w, hw, hhash⟩ := hp
  by_cases hid : id' = id
  · subst hid
    exact Or.inr ⟨w, hw, hhash⟩
  · refine Or.inl ⟨id', w, ?_, hhash⟩
    rw [AList.lookup_insert_ne hid]
    exact hw

theorem published_addWriter {s : System H} {id : WriterId} {w : Option (WriteRequest H)}
    (hid : id ∉ s.writers) {h : H} (hp : published s.writers h) :
    published (s.addWriter id w).writers h := by
  cases w with
  | none => exact hp
  | some v =>
    rcases published_insert id ⟨v, .unwritten⟩ hp with hins | ⟨w, hw, -⟩
    · exact hins
    · exact absurd (Table.mem_of_lookup hw) hid

end

theorem owned_publish {T : Prop} {s : System H} {id : WriterId} {w : WriteRequest H}
    (ho : Owned T (published s.writers) s.cache)
    (hw : s.writers.lookup id = some ⟨w, .unwritten⟩) (outcome : WriteOutcome) :
    Owned T (published (s.writers.insert id
        ⟨w, .published (writeFile s.cache.files w outcome).2⟩))
      { s.cache with files := (writeFile s.cache.files w outcome).1 } := by
  have hkeep : ∀ call h, published s.writers h → published (s.writers.insert id call) h := by
    intro call h hp
    rcases published_insert id call hp with hins | ⟨v, hv, -⟩
    · exact hins
    · rw [hw] at hv
      cases hv
  have hold : ∀ call, Owned T (published (s.writers.insert id call)) s.cache :=
    fun call => ho.mono (hkeep call)
  cases outcome with
  | written =>
    unfold writeFile
    dsimp only
    split
    · exact ⟨(hold _).files, ho.texts⟩
    · exact ⟨Table.forall_mem_insert (hold _).files
        (Or.inr ⟨id, w, AList.lookup_insert s.writers, rfl⟩), ho.texts⟩
  | failed => exact ⟨(hold _).files, ho.texts⟩
  | lost =>
    unfold writeFile
    dsimp only
    split
    · exact ⟨fun h hh => (hold _).files h (AList.mem_erase.mp hh).2, ho.texts⟩
    · exact ⟨(hold _).files, ho.texts⟩

/-- **One step** leaves no file without an owner. -/
theorem owned_step {T : Prop} {s s' : System H} {a : Action H}
    (ho : Owned T (published s.writers) s.cache) (hrem : a.removesSucceed)
    (hstat : StatSucceeds s a) (hok : T → TextsPaired s a)
    (hstep : step s a = some s') : Owned T (published s'.writers) s'.cache := by
  by_cases hwriting : a.writing = true
  · cases a with
    | store call args env =>
      obtain ⟨-, hid, rfl⟩ := step_store hstep
      rw [addWriter_cache, addWriter_writers]
      exact (ho.backstage hrem (Backstage.storeLocked env s.cache args)).mono
        fun h hp => published_addWriter hid hp
    | writerTick env =>
      obtain ⟨hid, rfl⟩ := step_writerTick hstep
      rw [addWriter_cache, addWriter_writers]
      exact (ho.backstage hrem (Backstage.writerLoopHead env s.cache)).mono
        fun h hp => published_addWriter hid hp
    | publish writer outcome =>
      obtain ⟨w, hw, rfl⟩ := step_publish hstep
      exact owned_publish ho hw outcome
    | finish writer env =>
      obtain ⟨w, success, hw, rfl⟩ := step_finish hstep
      refine ho.finishWrite hrem w success ?_ ?_ ?_
      · intro h hp
        rcases published_insert writer ⟨w, .finished⟩ hp with hins | ⟨v, hv, hhash⟩
        · exact Or.inl hins
        · rw [hw] at hv
          obtain ⟨rfl, hphase⟩ := WriteCall.mk.inj (Option.some.inj hv)
          exact Or.inr ⟨by simpa using hphase, hhash.symm⟩
      · rintro rfl hepoch
        exact hstat _ hw rfl hepoch
      · rintro hT rfl hepoch
        exact hok hT _ hw rfl hepoch
    | retire writer =>
      obtain ⟨w, hw, rfl⟩ := step_retire hstep
      refine (ho.mono ?_).of_sameDisk ⟨rfl, rfl, rfl⟩
      rintro h ⟨id, v, hv, hhash⟩
      refine ⟨id, v, ?_, hhash⟩
      have hne : id ≠ writer := by
        rintro rfl
        rw [hw] at hv
        cases hv
      rw [AList.lookup_erase_ne hne]
      exact hv
    | _ => cases hwriting
  · rw [(step_calls hstep).1 (Bool.eq_false_iff.mpr hwriting)]
    refine Owned.sections.step ho hrem.env (fun ha => absurd ha hwriting)
      (fun _ _ => ho.of_sameDisk ⟨rfl, rfl, rfl⟩) ?_ ?_ ?_ hstep
    · rintro call env load rfl hload hepoch
      exact ho.finishRequests hrem load.requests fun hT => hok hT load hload hepoch
    · rintro env rfl
      exact ho.refreshDiskIndex fun hT h hh => hok hT h (AList.mem_keys.mp hh)
    · rintro env rfl
      exact ho.clearBegin hrem

/-! ### Entries and files that only go -/

/-- No file is new or rewritten and no entry is new. -/
structure Shrinks (c c' : Cache H) : Prop where
  files : ∀ k q, c'.files.lookup k = some q → c.files.lookup k = some q
  disk : ∀ k, k ∈ c'.disk → k ∈ c.disk

namespace Shrinks

variable {env : Env H} {c c' c'' : Cache H}

theorem refl (c : Cache H) : Shrinks c c := ⟨fun _ _ hq => hq, fun _ hk => hk⟩

theorem trans (hs : Shrinks c c') (hs' : Shrinks c' c'') : Shrinks c c'' :=
  ⟨fun k q hq => hs.files k q (hs'.files k q hq), fun k hk => hs.disk k (hs'.disk k hk)⟩

theorem of_sameDisk (hs : SameDisk c c') : Shrinks c c' :=
  ⟨fun _ _ hq => hs.files ▸ hq, fun _ hk => hs.disk ▸ hk⟩

theorem setDisk {h : H} {e : DiskEntry H} (e' : DiskEntry H) (he : c.disk.lookup h = some e)
    (hdisk : c'.disk = c.disk.insert h e') (hfiles : c'.files = c.files) : Shrinks c c' := by
  refine ⟨fun _ _ hq => hfiles ▸ hq, fun k hk => ?_⟩
  rw [hdisk, AList.mem_insert] at hk
  rcases hk with rfl | hold
  · exact Table.mem_of_lookup he
  · exact hold

theorem dropDisk (c : Cache H) (h : H) : Shrinks c (dropDisk c h) := by
  rw [dropDisk_eq]
  exact ⟨fun _ _ hq => hq, fun _ hk => (AList.mem_erase.mp hk).2⟩

theorem removeFile (env : Env H) (c : Cache H) (h : H) : Shrinks c (removeFile env c h) := by
  refine ⟨fun k q hq => ?_, fun _ hk => hk⟩
  change (if env.removeFails h then c.files else c.files.erase h).lookup k = some q at hq
  split at hq
  · exact hq
  · exact Table.lookup_of_erase hq

theorem removeBoth (env : Env H) (c : Cache H) (h : H) :
    Shrinks c (removeText env (PrefixCache.removeFile env c h) h) :=
  (removeFile env c h).trans ⟨fun _ _ hq => hq, fun _ hk => hk⟩

theorem unlinkDisk (env : Env H) (c : Cache H) (h : H) : Shrinks c (unlinkDisk env c h) :=
  (removeBoth env c h).trans (dropDisk _ h)

theorem foldl {α : Type} (f : Cache H → α → Cache H) (hf : ∀ c x, Shrinks c (f c x))
    (c : Cache H) (xs : List α) : Shrinks c (xs.foldl f c) :=
  List.foldlRecOn xs f (refl c) fun d hd x _ => hd.trans (hf d x)

theorem move (hm : Move env c c') : Shrinks c c' := by
  cases hm with
  | ram hm => exact of_sameDisk (SameDisk.trimming (.single hm))
  | disk hm =>
    cases hm with
    | tails => exact of_sameDisk ⟨rfl, rfl, rfl⟩
    | evictDisk h e => exact (of_sameDisk (SameDisk.redefer c h e)).trans (unlinkDisk env _ h)
  | touchHot h => exact of_sameDisk (SameDisk.touchHot c h)
  | touchDisk h =>
    unfold touchDisk
    split
    · exact refl c
    · rename_i e he
      exact setDisk _ he rfl rfl
  | supersede h =>
    refine .trans ?_ ((of_sameDisk (SameDisk.dropHot _ h)).trans (of_sameDisk ⟨rfl, rfl, rfl⟩))
    split
    · exact unlinkDisk env c h
    · exact refl c

theorem backstage (ht : Relation.ReflTransGen (Backstage env) c c') : Shrinks c c' := by
  refine keeps (P := Shrinks c) (fun d d' hb hd => hd.trans ?_) ht (refl c)
  cases hb with
  | move hm => exact move hm
  | ram hsame => exact of_sameDisk hsame

theorem housekeeping (ht : Housekeeping env c c') : Shrinks c c' :=
  backstage (Backstage.housekeeping ht)

theorem trimming (ht : Trimming c c') : Shrinks c c' := of_sameDisk (SameDisk.trimming ht)

theorem enforceBudget (env : Env H) (reserved : Nat) (c : Cache H) :
    Shrinks c (enforceBudget env reserved c) :=
  housekeeping (Enforcing.enforceBudget env reserved c).housekeeping

theorem eraseCorruptLocked (env : Env H) (c : Cache H) (h : H) :
    Shrinks c (eraseCorruptLocked env c h).1 := by
  have hd : Shrinks c (dropDeferred c h) := of_sameDisk ⟨rfl, rfl, rfl⟩
  unfold PrefixCache.eraseCorruptLocked
  dsimp only
  split
  · refine .trans ?_ ((of_sameDisk (SameDisk.dropHot _ h)).trans (trimming (Trimming.forget _ h)))
    split
    · exact hd.trans (unlinkDisk env _ h)
    · exact hd
  · exact hd

theorem dropUnreadable (env : Env H) (c : Cache H) (h : H) :
    Shrinks c (dropUnreadable env c h) := by
  unfold PrefixCache.dropUnreadable
  split
  · split
    · exact (dropDisk c h).trans (trimming (Trimming.forget _ h))
    · exact refl c
  · exact eraseCorruptLocked env c h

theorem finishRequests (env : Env H) (c : Cache H) (requests : List (LoadRequest H)) :
    Shrinks c (finishRequests env c requests).1 := by
  have hback := finishRequests_backstage env c requests
  cases hblock : unreadableBlock requests with
  | none =>
    rw [hblock] at hback
    exact backstage hback
  | some h =>
    rw [hblock] at hback
    obtain ⟨d, hd, heq⟩ := hback
    rw [heq]
    exact (backstage hd).trans (dropUnreadable env d h)

theorem sections (c : Cache H) : Sections (fun _ => True) (Shrinks c) where
  limits _ _ hs := hs.trans (of_sameDisk ⟨rfl, rfl, rfl⟩)
  vanish _ _ hs := hs.trans ⟨fun _ _ hq => Table.lookup_of_erase hq, fun _ hk => hk⟩
  pins :=
    { pins := fun _ hs => hs.trans (of_sameDisk ⟨rfl, rfl, rfl⟩)
      entry := fun _ hs he => hs.trans (setDisk _ he rfl rfl) }
  erase h _ hs := hs.trans (eraseCorruptLocked _ _ h)
  enforceBudget _ hs := hs.trans (enforceBudget _ 0 _)
  trimHotLocked n hs := hs.trans (trimming (Trimming.trimHotLocked n _))

theorem refreshEntry (env : Env H) (c : Cache H) (h : H) : Shrinks c (refreshEntry env c h) := by
  unfold PrefixCache.refreshEntry
  split
  · exact refl c
  · have hram : SameDisk (PrefixCache.dropDisk c h)
        (dropDeferred (dropHot (PrefixCache.dropDisk c h) h) h) :=
      (SameDisk.dropHot _ h).trans ⟨rfl, rfl, rfl⟩
    exact ((dropDisk c h).trans (of_sameDisk hram)).trans (trimming (Trimming.forget _ h))

theorem finishWrite (env : Env H) (c : Cache H) (w : WriteRequest H) (success : Bool) :
    (∀ k q, (finishWrite env c w success).files.lookup k = some q → c.files.lookup k = some q) ∧
      ∀ k, k ∈ (finishWrite env c w success).disk → k ∈ c.disk ∨ k = w.hash := by
  have hsettled := SameDisk.settlePending c w.hash
  have hrest : ∀ d : Cache H, Shrinks d (pruneTailCleanupLocked env
      (forgetTailIfUnusedLocked d w.hash)) :=
    fun d => (trimming (Trimming.forget d w.hash)).trans
      (housekeeping (Housekeeping.pruneTailCleanup _))
  have hfrom : ∀ d : Cache H, (∀ k q, d.files.lookup k = some q → c.files.lookup k = some q) →
      (∀ k, k ∈ d.disk → k ∈ c.disk ∨ k = w.hash) →
      (∀ k q, (pruneTailCleanupLocked env (forgetTailIfUnusedLocked d w.hash)).files.lookup k =
        some q → c.files.lookup k = some q) ∧
      ∀ k, k ∈ (pruneTailCleanupLocked env (forgetTailIfUnusedLocked d w.hash)).disk →
        k ∈ c.disk ∨ k = w.hash :=
    fun d hf hd => ⟨fun k q hq => hf k q ((hrest d).files k q hq),
      fun k hk => hd k ((hrest d).disk k hk)⟩
  unfold PrefixCache.finishWrite
  have hkeep : ∀ d : Cache H, Shrinks (settlePending c w.hash) d →
      (∀ k q, d.files.lookup k = some q → c.files.lookup k = some q) ∧
        ∀ k, k ∈ d.disk → k ∈ c.disk ∨ k = w.hash :=
    fun d hd => ⟨fun k q hq => hsettled.files ▸ hd.files k q hq,
      fun k hk => Or.inl (hsettled.disk ▸ hd.disk k hk)⟩
  have htext : Shrinks (settlePending c w.hash) (writeText env (settlePending c w.hash) w) := by
    unfold writeText
    split <;> exact ⟨fun _ _ hq => hq, fun _ hk => hk⟩
  unfold settleFile
  split
  · dsimp only
    split
    · split
      · exact hfrom _ (hkeep _ htext).1 (hkeep _ htext).2
      · rename_i file _ _
        have hbudget := enforceBudget env 0
          (registerFile (writeText env (settlePending c w.hash) w) w file)
        refine hfrom _ (fun k q hq => ?_) (fun k hk => ?_)
        · refine (hkeep _ htext).1 k q ?_
          have hq' := hbudget.files k q hq
          unfold registerFile at hq'
          dsimp only at hq'
          rw [dropDisk_eq] at hq'
          exact hq'
        · have hk' := hbudget.disk k hk
          unfold registerFile at hk'
          dsimp only at hk'
          rw [dropDisk_eq, AList.mem_insert] at hk'
          rcases hk' with rfl | hold
          · exact Or.inr rfl
          · exact (hkeep _ htext).2 k (AList.mem_erase.mp hold).2
    · exact hfrom _ (hkeep _ htext).1 (hkeep _ htext).2
  · split
    · exact hfrom _ (hkeep _ (refl _)).1 (hkeep _ (refl _)).2
    · have hremoved := hkeep _ (removeBoth env (settlePending c w.hash) w.hash)
      exact hfrom _ hremoved.1 hremoved.2

end Shrinks

/-- Only publishing changes a file otherwise than by removing it, and only a finished write
    adds an entry. -/
def StepShrinks (s : System H) (a : Action H) (s' : System H) : Prop :=
  (∀ k q, s'.cache.files.lookup k = some q → s.cache.files.lookup k = some q ∨
    ∃ writer outcome w, a = .publish writer outcome ∧
      s.writers.lookup writer = some ⟨w, .unwritten⟩ ∧ w.hash = k ∧ w.payload = q) ∧
  ∀ k, k ∈ s'.cache.disk → k ∈ s.cache.disk ∨ ∃ writer env w success, a = .finish writer env ∧
    s.writers.lookup writer = some ⟨w, .published success⟩ ∧ w.hash = k

theorem step_shrinks {s s' : System H} {a : Action H} (hstep : step s a = some s') :
    StepShrinks s a s' := by
  have hshrink : Shrinks s.cache s'.cache → StepShrinks s a s' := fun hs =>
    ⟨fun k q hq => Or.inl (hs.files k q hq), fun k hk => Or.inl (hs.disk k hk)⟩
  by_cases hwriting : a.writing = true
  · cases a with
    | store call args env =>
      obtain ⟨-, -, rfl⟩ := step_store hstep
      refine hshrink ?_
      rw [addWriter_cache]
      exact Shrinks.backstage (Backstage.storeLocked env s.cache args)
    | writerTick env =>
      obtain ⟨-, rfl⟩ := step_writerTick hstep
      refine hshrink ?_
      rw [addWriter_cache]
      exact Shrinks.backstage (Backstage.writerLoopHead env s.cache)
    | publish writer outcome =>
      obtain ⟨w, hw, rfl⟩ := step_publish hstep
      refine ⟨fun k q hq => ?_, fun k hk => Or.inl hk⟩
      cases outcome with
      | written =>
        unfold writeFile at hq
        dsimp only at hq
        split at hq
        · exact Or.inl hq
        · rcases Table.lookup_insert_cases hq with ⟨hk, hp⟩ | ⟨-, hq⟩
          · exact Or.inr ⟨writer, _, w, rfl, hw, hk.symm, hp.symm⟩
          · exact Or.inl hq
      | failed => exact Or.inl hq
      | lost =>
        unfold writeFile at hq
        dsimp only at hq
        split at hq
        · exact Or.inl (Table.lookup_of_erase hq)
        · exact Or.inl hq
    | finish writer env =>
      obtain ⟨w, success, hw, rfl⟩ := step_finish hstep
      obtain ⟨hfiles, hdisk⟩ := Shrinks.finishWrite env s.cache w success
      refine ⟨fun k q hq => Or.inl (hfiles k q hq), fun k hk => ?_⟩
      exact (hdisk k hk).imp_right fun hkw => ⟨writer, env, w, success, rfl, hw, hkw.symm⟩
    | retire writer =>
      obtain ⟨w, -, rfl⟩ := step_retire hstep
      exact hshrink (Shrinks.of_sameDisk ⟨rfl, rfl, rfl⟩)
    | _ => cases hwriting
  · refine hshrink ((Shrinks.sections s.cache).step (Shrinks.refl _) (fun _ _ => trivial)
      (fun ha => absurd ha hwriting) (fun _ _ => Shrinks.of_sameDisk ⟨rfl, rfl, rfl⟩) ?_ ?_ ?_ hstep)
    · exact fun _ env load _ _ _ => Shrinks.finishRequests env s.cache load.requests
    · exact fun env _ => Shrinks.foldl _ (Shrinks.refreshEntry env) s.cache _
    · intro env _
      have hsweep := Shrinks.foldl (fun c h => removeText env (removeFile env c h) h)
        (Shrinks.removeBoth env) s.cache s.cache.disk.keys
      exact ⟨hsweep.files, fun k hk => absurd hk (AList.notMem_empty k)⟩

end TyloQuant.PrefixCache
