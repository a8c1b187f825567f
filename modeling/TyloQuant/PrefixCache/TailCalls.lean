import TyloQuant.PrefixCache.TailIndex

/-!
# Tails and calls

What each public call does to the tail invariant.  Three of them can break it: a finishing load
puts a block into RAM without remembering its tail, a `replace` without a disk tier drops the RAM
copy of a tail without forgetting it, and a finishing write indexes a file without remembering
its tail.  Each does so only to a block that no other tier holds.
-/

namespace TyloQuant.PrefixCache

open Lib

variable {H : Type} [DecidableEq H]

/-! ### What breaks the invariant -/

/-- Putting this payload into RAM makes a tail resident that no tier holds. -/
def hidesTail (base : Config H) (shape : H → H × Nat) (c : Cache H) (x : H × Payload) : Bool :=
  decide (IsTail base shape x.1) && fitsHot c x.2 && !decide (Held c x.1)

/-- Putting this payload into RAM drops the last copy of a tail: it is too large, and the block
    is in no other tier. -/
def losesTail (base : Config H) (shape : H → H × Nat) (c : Cache H) (x : H × Payload) : Bool :=
  decide (IsTail base shape x.1) && !fitsHot c x.2 &&
    decide (x.1 ∈ c.hot) && decide (x.1 ∉ c.disk) && decide (x.1 ∉ c.pending)

/-- Every block that a finishing load puts back is safe when its turn comes. -/
def reinsertsTails (base : Config H) (shape : H → H × Nat) (env : Env H) :
    Cache H → List (LoadRequest H) → Bool
  | _, [] => true
  | c, r :: rest =>
    match r.source with
    | .hot _ => reinsertsTails base shape env (touchHot c r.hash) rest
    | .pending _ => reinsertsTails base shape env c rest
    | .disk (some (some p)) =>
      !hidesTail base shape c (r.hash, p) && !losesTail base shape c (r.hash, p) &&
        reinsertsTails base shape env (touchDisk (putHotLocked c r.hash p) r.hash) rest
    | .disk _ => true

/-- `finish_write` indexes the file of a tail that no tier holds. -/
def indexesTail (base : Config H) (shape : H → H × Nat) (env : Env H) (c : Cache H)
    (w : WriteRequest H) (success : Bool) : Bool :=
  success && decide (w.epoch = c.cacheEpoch) && decide (w.hash ∈ c.files) &&
    !env.statFails w.hash && decide (IsTail base shape w.hash) && !decide (Held c w.hash)

/-- A `replace` without a disk tier drops the last copy of a tail. -/
def replacesTail (base : Config H) (shape : H → H × Nat) (c : Cache H) (a : StoreArgs H) : Bool :=
  decide (c.config.maxDiskBytes = 0) && a.replaceExisting &&
    losesTail base shape c (a.hash c.config, a.payload)

/-- The action does none of the three. -/
def keepsTails (base : Config H) (shape : H → H × Nat) (s : System H) : Action H → Bool
  | .store _ args _ => !replacesTail base shape s.cache args
  | .finish writer env =>
    match s.writers.lookup writer with
    | some ⟨w, .published success⟩ => !indexesTail base shape env s.cache w success
    | _ => true
  | .loadFinish call env =>
    match s.loads.lookup call with
    | some load =>
      !decide (load.epoch = s.cache.cacheEpoch) ||
        reinsertsTails base shape env s.cache load.requests
    | none => true
  | _ => true

/-! ### The newest block stays -/

theorem evictHot_hot (c : Cache H) (h : H) : (evictHot c h).hot = c.hot.erase h := by
  have hspill : (spillDeferred c h).hot = c.hot := by
    unfold spillDeferred dropDeferred
    split
    · rfl
    · split <;> rfl
  unfold evictHot
  obtain ⟨lengths, metadata, heq⟩ := forgetTailIfUnusedLocked_eq (dropHot (spillDeferred c h) h) h
  rw [heq, dropHot_eq]
  show (spillDeferred c h).hot.erase h = _
  rw [hspill]

theorem evictHot_config (c : Cache H) (h : H) : (evictHot c h).config = c.config := by
  unfold evictHot
  obtain ⟨lengths, metadata, heq⟩ := forgetTailIfUnusedLocked_eq (dropHot (spillDeferred c h) h) h
  rw [heq]
  exact ((SameControl.spillDeferred c h).trans (SameControl.dropHot _ h)).config

variable {h : H} {e : HotEntry}

/-- A RAM tier with more bytes than one of its blocks has another block. -/
theorem exists_other {c : Cache H} (he : c.hot.lookup h = some e)
    (hmore : e.payload.length < hotTotal c.hot) :
    ∃ k e', c.hot.lookup k = some e' ∧ k ≠ h := by
  by_contra hnone
  simp only [not_exists, not_and, not_not] at hnone
  have hrest : Table.total (fun e : HotEntry => e.payload.length) (c.hot.erase h) = 0 := by
    apply Table.total_eq_zero
    intro k e' hk
    rw [Table.lookup_erase_ite] at hk
    split at hk
    · cases hk
    · rename_i hne
      exact absurd (hnone k e' hk) hne
  have hsum := Table.total_eq_erase (fun e : HotEntry => e.payload.length) c.hot h
  rw [he, hrest] at hsum
  unfold hotTotal at hmore
  simp only [Option.map_some, Option.getD_some] at hsum
  omega

variable {missing : H → Prop}

/-- When every RAM block may be spilled, the newest one outlives the others. -/
theorem trimHotLoop_newest {base : Config H} {shape : H → H × Nat} {stale : H → Prop}
    {c : Cache H} {targetBytes fuel : Nat} (hc : Tails base shape stale missing c)
    (hspill : c.config.spillHotOnEviction = true) (he : c.hot.lookup h = some e)
    (hfits : e.payload.length ≤ targetBytes)
    (hnewest : ∀ k e', c.hot.lookup k = some e' → k ≠ h → e'.lastUsed < e.lastUsed) :
    h ∈ (trimHotLoop targetBytes fuel c).hot := by
  induction fuel generalizing c with
  | zero => exact Table.mem_of_lookup he
  | succ fuel ih =>
    unfold trimHotLoop
    split
    · exact Table.mem_of_lookup he
    · rename_i htoomuch
      split
      · exact Table.mem_of_lookup he
      · rename_i victim hvictim
        have hmem := (Table.leastRecent_some hvictim).1
        have hne : h ≠ victim.1 := by
          rintro rfl
          have hvictim' : e = victim.2 := Option.some.inj (he.symm.trans hmem)
          have hmore : e.payload.length < hotTotal c.hot := by
            rw [← hc.ram.bytes]
            omega
          obtain ⟨k, e', hk, hkh⟩ := exists_other he hmore
          have hevictable : hotEvictable c k = true := by
            simp [hotEvictable, hspill]
          have hold := Table.leastRecent_oldest hvictim hk hevictable
          have hnew := hnewest k e' hk hkh
          rw [← hvictim'] at hold
          omega
        apply ih (hc.evictHot (Table.mem_of_lookup hmem))
        · rw [evictHot_config]
          exact hspill
        · rw [evictHot_hot, AList.lookup_erase_ne hne]
          exact he
        · intro k e' hk hkh
          rw [evictHot_hot] at hk
          exact hnewest k e' (Table.lookup_of_erase hk) hkh

variable {p : Payload}

/-- In spill mode a payload that fits is resident once it is put there. -/
theorem mem_putHot {base : Config H} {shape : H → H × Nat} {stale : H → Prop} {c : Cache H}
    (hc : Tails base shape stale (fun _ => False) c) (hspill : c.config.spillHotOnEviction = true)
    (hfits : fitsHot c p = true) : h ∈ (putHotLocked c h p).hot := by
  have hlength : p.length ≤ c.config.maxHotBytes := by
    unfold fitsHot at hfits
    simp only [Bool.not_eq_true', Bool.or_eq_false_iff, decide_eq_false_iff_not] at hfits
    omega
  have hconfig : (insertHot (dropHot c h) h p).config = c.config := (SameControl.dropHot c h).config
  have hput : Tails base shape stale (fun k => False ∨ k = h)
      (insertHot (dropHot c h) h p) :=
    (hc.dropHot h).insertHot (Tails.notMem_dropHot c h) p (fun _ => Or.inl) (Or.inl (Or.inr rfl))
  unfold putHotLocked trimHotLocked
  rw [if_pos hfits]
  apply trimHotLoop_newest hput (by rw [hconfig]; exact hspill)
    (e := ⟨p, (dropHot c h).clock + 1⟩) (AList.lookup_insert _) hlength
  intro k e' hk hkh
  simp only [insertHot] at hk
  rw [AList.lookup_insert_ne hkh] at hk
  exact Nat.lt_succ_of_le ((hc.dropHot h).ram.recent k e' hk)

namespace Tails

variable {base : Config H} {shape : H → H × Nat} {stale : H → Prop} {c c' : Cache H}
  {env : Env H}

/-! ### Storing -/

theorem storeDeferred (hc : Tails base shape stale (fun _ => False) c) (a : StoreArgs H)
    (hshape : shape (a.hash c.config) = (a.parent, a.tokens.length))
    (hspill : c.config.spillHotOnEviction = true) (hfits : fitsHot c a.payload = true) :
    Tails base shape stale (fun _ => False) (storeDeferred env c a) := by
  have hdefer : Tails base shape stale (fun _ => False)
      { c with deferred := c.deferred.insert (a.hash c.config) (a.request c) } :=
    hc.of_same rfl rfl rfl (fun _ => Iff.rfl) rfl rfl rfl le_rfl
  have hput := hdefer.putHot_fits (h := a.hash c.config)
    (M := fun k => False ∨ k = a.hash c.config) hfits (fun _ => Or.inl)
    (Or.inl (Or.inr rfl))
  unfold PrefixCache.storeDeferred
  apply Tails.ramPressure
  apply Tails.pruneTailCleanup
  apply hput.remember _ hshape
  exact Or.inr (Or.inr (mem_putHot hdefer hspill hfits))

/-- A tail whose RAM copy went away is still held, or was never one. -/
theorem settle (hc : Tails base shape (fun k => stale k ∨ k = h) (fun _ => False) c)
    (hh : stale h ∨ (IsTail base shape h → Held c h)) :
    Tails base shape stale (fun _ => False) c := by
  refine ⟨hc.hash, hc.size, hc.named, hc.counts, ?_, hc.known, hc.ram⟩
  intro k hk hstale
  by_cases hkh : k = h
  · subst hkh
    exact hh.resolve_left hstale (hc.isTail hk)
  · exact hc.listed k hk fun h => h.elim hstale hkh

/-- A payload too large for RAM, put over a block that is safe. -/
theorem putHot_safe (hc : Tails base shape stale (fun _ => False) c) (hfits : ¬fitsHot c p = true)
    (hsafe : stale h ∨ losesTail base shape c (h, p) = false) :
    Tails base shape stale (fun _ => False) (putHotLocked c h p) := by
  by_cases hhot : h ∈ c.hot
  · apply (hc.putHot_drops hfits).settle
    apply hsafe.imp id
    intro hsafe htail
    have hother : h ∈ c.disk ∨ h ∈ c.pending := by
      by_contra hnone
      rw [not_or] at hnone
      simp [losesTail, htail, hfits, hhot, hnone.1, hnone.2] at hsafe
    unfold putHotLocked
    rw [if_neg hfits, dropHot_eq]
    rcases hother with hd | hp
    · exact Or.inl hd
    · exact Or.inr (Or.inl hp)
  · have hsame : putHotLocked c h p = c := by
      unfold putHotLocked PrefixCache.dropHot
      rw [if_neg hfits, AList.lookup_eq_none.mpr hhot]
    rw [hsame]
    exact hc

theorem putHot_back (hc : Tails base shape stale (fun _ => False) c)
    (hhides : hidesTail base shape c (h, p) = false)
    (hsafe : stale h ∨ losesTail base shape c (h, p) = false) :
    Tails base shape stale (fun _ => False) (putHotLocked c h p) := by
  by_cases hfits : fitsHot c p = true
  · apply hc.putHot_fits hfits (fun _ => id)
    right
    by_cases htail : IsTail base shape h
    · left
      apply hc.known _ _ htail id
      by_contra hheld
      simp [hidesTail, htail, hfits, hheld] at hhides
    · exact Or.inr htail
  · exact hc.putHot_safe hfits hsafe

/-- A block that no tier holds is not missing. -/
theorem settleMissing (hc : Tails base shape stale (fun k => missing k ∨ k = h) c)
    (hh : ¬Held c h) :
    Tails base shape stale missing c := by
  refine ⟨hc.hash, hc.size, hc.named, hc.counts, hc.listed, ?_, hc.ram⟩
  intro k hk htail hm
  apply hc.known k hk htail
  rintro (hold | rfl)
  · exact hm hold
  · exact hh hk

theorem storeHotOnly (hc : Tails base shape stale (fun _ => False) c) (a : StoreArgs H)
    (hshape : shape (a.hash c.config) = (a.parent, a.tokens.length))
    (hclean : a.hash c.config ∉ c.deferred ∧ a.hash c.config ∉ c.pending)
    (hsafe : stale (a.hash c.config) ∨
      losesTail base shape c (a.hash c.config, a.payload) = false) :
    Tails base shape stale (fun _ => False) (storeHotOnly env c a) := by
  have hkept : ∀ d, Tails base shape stale (fun _ => False) d → Held d (a.hash c.config) →
      Tails base shape stale (fun _ => False)
        (rememberTailLocked d (a.hash c.config) a.parent a.tokens.length) := by
    intro d hd hheld
    exact (hd.mono (fun _ => id) (fun _ => Or.inl)).remember hheld hshape
  unfold PrefixCache.storeHotOnly
  apply Tails.pruneTailCleanup
  by_cases hfits : fitsHot c a.payload = true
  · have hput := hc.putHot_fits (h := a.hash c.config)
      (M := fun k => False ∨ k = a.hash c.config) hfits (fun _ => Or.inl)
      (Or.inl (Or.inr rfl))
    split
    · rename_i hhot
      exact hput.remember (Or.inr (Or.inr hhot)) hshape
    · rename_i hhot
      by_cases hdisk : a.hash c.config ∈ c.disk
      · -- It was held before, so its tail was known all along.
        apply hc.putHot_fits hfits (fun _ => id)
        by_cases htail : IsTail base shape (a.hash c.config)
        · exact Or.inr (Or.inl (hc.known _ (Or.inl hdisk) htail id))
        · exact Or.inr (Or.inr htail)
      · apply hput.settleMissing
        rintro (hd | hp | hh)
        · rw [(SameDisk.putHotLocked c _ _).disk] at hd
          exact hdisk hd
        · exact (putHotLocked_untouched _ _ hclean).2 hp
        · exact hhot hh
  · have hput := hc.putHot_safe hfits hsafe
    split
    · rename_i hhot
      exact hkept _ hput (Or.inr (Or.inr hhot))
    · exact hput

variable {w : WriteRequest H}

theorem addPending
    (hc : Tails base shape (fun k => stale k ∨ k = w.hash) (fun k => missing k ∨ k = w.hash) c) :
    Tails base shape stale (fun k => missing k ∨ k = w.hash) (addPending c w) := by
  refine hc.enter rfl rfl rfl rfl (hc.ram.of_same rfl rfl le_rfl) ?_ (fun _ => id)
    (Or.inl (Or.inr rfl))
  intro k
  simp only [Held, PrefixCache.addPending, AList.mem_insert]
  tauto

theorem held_addPending (c : Cache H) (w : WriteRequest H) :
    Held (PrefixCache.addPending c w) w.hash :=
  Or.inr (Or.inl ((AList.mem_insert _).mpr (Or.inl rfl)))

theorem storeWrite (hc : Tails base shape stale (fun _ => False) c) (a : StoreArgs H)
    (hshape : shape (a.hash c.config) = (a.parent, a.tokens.length)) :
    Tails base shape stale (fun _ => False) (storeWrite env c a).1 := by
  have hbudget : Tails base shape stale (fun _ => False)
      (PrefixCache.enforceBudget env (reservedBytes c a.payload.length) c) :=
    hc.enforceBudget _
  have hput := hbudget.putHot (a.hash c.config) a.payload
  have hconfig : (putHotLocked (PrefixCache.enforceBudget env (reservedBytes c a.payload.length) c)
      (a.hash c.config) a.payload).config = c.config :=
    (SameControl.putHotLocked _ _ _).config.trans
      (SameControl.enforcing (Enforcing.enforceBudget env _ c)).config
  unfold PrefixCache.storeWrite
  dsimp only
  generalize putHotLocked (PrefixCache.enforceBudget env (reservedBytes c a.payload.length) c)
    (a.hash c.config) a.payload = c₂ at *
  have hhash : (a.request c₂).hash = a.hash c.config := by
    unfold StoreArgs.request
    rw [hconfig]
  have hadd : Tails base shape stale (fun k => False ∨ k = a.hash c.config)
      (PrefixCache.addPending c₂ (a.request c₂)) := by
    rw [← hhash] at hput ⊢
    exact hput.addPending
  have hheld : Held (PrefixCache.addPending c₂ (a.request c₂)) (a.hash c.config) := by
    rw [← hhash]
    exact held_addPending c₂ (a.request c₂)
  split
  · exact (hadd.remember hheld hshape).of_same rfl rfl rfl (fun _ => Iff.rfl) rfl rfl rfl le_rfl
  · have hqueued : Tails base shape stale (fun k => False ∨ k = a.hash c.config)
        { PrefixCache.addPending c₂ (a.request c₂) with
          writes := c₂.writes ++ [a.request c₂] } :=
      hadd.of_same rfl rfl rfl (fun _ => Iff.rfl) rfl rfl rfl le_rfl
    exact hqueued.remember hheld hshape

theorem storeLocked (hc : Tails base shape stale (fun _ => False) c) (a : StoreArgs H)
    (hshape : shape (a.hash c.config) = (a.parent, a.tokens.length))
    (hready : storeReady c a = true)
    (hsafe : stale (a.hash c.config) ∨ replacesTail base shape c a = false) :
    Tails base shape stale (fun _ => False) (storeLocked env c a).1 := by
  obtain ⟨cleanup, heq⟩ := scheduleTailCleanupLocked_eq c (a.hash c.config) a.parent a.tokens
    a.extraKey
  have hc₁ := hc.schedule (a.hash c.config) a.parent a.tokens a.extraKey
  rw [heq] at hc₁
  unfold PrefixCache.storeLocked
  dsimp only
  split
  · exact hc
  · rename_i hnew
    have hp := storeReady_notMem hready hnew
    rw [heq]
    split
    · rename_i hspill
      split
      · rename_i e he
        split
        · have htouch := hc₁.touchHot (a.hash c.config)
          unfold PrefixCache.touchHot at htouch
          rw [he] at htouch
          exact htouch
        · exact hc₁.storeDeferred a hshape hspill.1 hspill.2
      · exact hc₁.storeDeferred a hshape hspill.1 hspill.2
    · split
      · rename_i hram
        split
        · exact hc₁.dropDeferred _
        · rename_i hstored
          apply (hc₁.dropDeferred _).storeHotOnly a hshape
          · exact ⟨fun hd => (AList.mem_erase.mp hd).1 rfl, hp⟩
          · -- A block in RAM gets here only to be replaced.
            apply hsafe.imp id
            intro hsafe
            by_cases hhot : a.hash c.config ∈ c.hot
            · have hreplace : a.replaceExisting = true := by
                cases hr : a.replaceExisting with
                | true => rfl
                | false => exact absurd ⟨hr, hhot⟩ hstored
              have hzero : c.config.maxDiskBytes = 0 := hram
              unfold replacesTail at hsafe
              rw [hreplace, decide_eq_true hzero, Bool.true_and, Bool.true_and] at hsafe
              exact hsafe
            · unfold losesTail
              have hout : decide (a.hash c.config ∈ c.hot) = false := decide_eq_false hhot
              show (_ && _ && decide (a.hash c.config ∈ c.hot) && _ && _) = false
              rw [hout, Bool.and_false, Bool.false_and, Bool.false_and]
      · exact (hc₁.dropDeferred _).storeWrite a hshape

/-! ### Writing -/

theorem registerFile (hc : Tails base shape (fun k => stale k ∨ k = w.hash) (fun _ => False) c)
    (hknown : w.hash ∈ c.tailMetadata ∨ ¬IsTail base shape w.hash) (file : Payload) :
    Tails base shape stale (fun _ => False) (registerFile c w file) := by
  have hdrop := (hc.dropDisk w.hash).mono (S := fun k => stale k ∨ k = w.hash)
    (fun _ h => h.elim id Or.inr) (fun _ => id)
  have hram : RamCounted (PrefixCache.registerFile c w file) := by
    exact hdrop.ram.of_same rfl rfl (Nat.le_succ _)
  have hmetadata : (PrefixCache.dropDisk c w.hash).tailMetadata = c.tailMetadata := by
    rw [dropDisk_eq]
  refine hdrop.enter rfl rfl rfl rfl hram ?_ (fun _ => id) (Or.inr ?_)
  · intro k
    simp only [Held, PrefixCache.registerFile, AList.mem_insert]
    tauto
  · rw [hmetadata]
    exact hknown

theorem finishWrite (hc : Tails base shape stale (fun _ => False) c) (w : WriteRequest H)
    (success : Bool)
    (hsafe : indexesTail base shape env c w success = false) :
    Tails base shape stale (fun _ => False) (finishWrite env c w success) := by
  have hsettle := hc.settlePending w.hash
  have hmetadata : (PrefixCache.settlePending c w.hash).tailMetadata = c.tailMetadata := by
    unfold PrefixCache.settlePending
    split <;> rfl
  have hepoch : (PrefixCache.settlePending c w.hash).cacheEpoch = c.cacheEpoch :=
    (SameControl.settlePending c w.hash).epoch
  have hfiles : (PrefixCache.settlePending c w.hash).files = c.files :=
    (SameDisk.settlePending c w.hash).files
  unfold PrefixCache.finishWrite
  apply Tails.pruneTailCleanup
  unfold settleFile
  split
  · rename_i hsuccess
    rw [hepoch] at hsuccess
    have htext : Tails base shape (fun k => stale k ∨ k = w.hash) (fun _ => False)
        (writeText env (PrefixCache.settlePending c w.hash) w) := by
      unfold writeText
      split
      · exact hsettle.of_same rfl rfl rfl (fun _ => Iff.rfl) rfl rfl rfl le_rfl
      · exact hsettle
    have hsame : (writeText env (PrefixCache.settlePending c w.hash) w).files = c.files ∧
        (writeText env (PrefixCache.settlePending c w.hash) w).tailMetadata = c.tailMetadata := by
      unfold writeText
      split
      · exact ⟨hfiles, hmetadata⟩
      · exact ⟨hfiles, hmetadata⟩
    dsimp only
    split
    · rename_i file hfile
      split
      · exact htext.forget
      · rename_i hstat
        apply Tails.forget_settled
        apply Tails.enforceBudget
        apply htext.registerFile
        rw [hsame.2]
        rw [hsame.1] at hfile
        by_cases htail : IsTail base shape w.hash
        · left
          apply hc.known _ _ htail id
          by_contra hheld
          simp [indexesTail, hsuccess.1, hsuccess.2, Table.mem_of_lookup hfile, hstat, htail,
            hheld] at hsafe
        · exact Or.inr htail
    · exact htext.forget
  · split
    · exact hsettle.forget
    · exact (hsettle.removed w.hash).forget

theorem writerLoopHead (hc : Tails base shape stale (fun _ => False) c) :
    Tails base shape stale (fun _ => False) (writerLoopHead env c).1 := by
  have hr : Tails base shape stale (fun _ => False)
      (if c.clearing then c else trimForRamPressureLocked env c) := by
    split
    · exact hc
    · exact hc.ramPressure
  unfold PrefixCache.writerLoopHead
  dsimp only
  generalize (if c.clearing then c else trimForRamPressureLocked env c) = c₁ at *
  split
  · exact (hr.enforceDiskBudget 0 1).of_same rfl rfl rfl (fun _ => Iff.rfl) rfl rfl rfl le_rfl
  · split
    · exact hr
    · exact hr.of_same rfl rfl rfl (fun _ => Iff.rfl) rfl rfl rfl le_rfl

/-! ### Loading -/

theorem dropUnreadable (hc : Tails base shape stale (fun _ => False) c) (h : H) :
    Tails base shape stale (fun _ => False) (dropUnreadable env c h) := by
  unfold PrefixCache.dropUnreadable
  split
  · split
    · exact (hc.dropDisk h).forget
    · exact hc
  · exact hc.eraseCorruptLocked h

theorem finishRequests (hc : Tails base shape stale (fun _ => False) c)
    (requests : List (LoadRequest H))
    (hsafe : reinsertsTails base shape env c requests = true) :
    Tails base shape stale (fun _ => False) (finishRequests env c requests).1 := by
  induction requests generalizing c with
  | nil => exact hc
  | cons r rest ih =>
    obtain ⟨h, source⟩ := r
    unfold reinsertsTails at hsafe
    unfold PrefixCache.finishRequests
    cases source with
    | hot p => exact ih (hc.touchHot h) hsafe
    | pending p => exact ih hc hsafe
    | disk read =>
      cases read with
      | none => exact hc.dropUnreadable h
      | some q =>
        cases q with
        | none => exact hc.dropUnreadable h
        | some p =>
          simp only [Bool.and_eq_true, Bool.not_eq_true'] at hsafe
          obtain ⟨⟨hhides, hloses⟩, hrest⟩ := hsafe
          apply ih _ hrest
          apply Tails.touchDisk
          exact hc.putHot_back hhides (Or.inr hloses)

/-! ### Index refresh, clear, opening -/

theorem refreshEntry (hc : Tails base shape stale (fun _ => False) c) (h : H) :
    Tails base shape stale (fun _ => False) (refreshEntry env c h) := by
  unfold PrefixCache.refreshEntry
  split
  · exact hc
  · apply Tails.forget
    apply Tails.dropDeferred
    apply ((hc.dropDisk h).dropHot h).mono _ (fun _ => id)
    rintro k ((hold | hk) | hk)
    · exact Or.inl hold
    · exact Or.inr hk
    · exact Or.inr hk

theorem clearBegin (hc : Tails base shape stale (fun _ => False) c) :
    Tails base shape stale (fun _ => False) (clearBegin env c) := by
  have hconfig : (PrefixCache.clearBegin env c).config = c.config :=
    (Steady.foldl (fun c h => removeText env (removeFile env c h) h)
      (fun _ _ => ⟨rfl, rfl, rfl, rfl⟩) c c.disk.keys).config
  constructor
  · rw [hconfig]
    exact hc.hash
  · rw [hconfig]
    exact hc.size
  · intro h m hm
    cases hm
  · exact Indexed.empty
  · intro h hh
    exact absurd hh (AList.notMem_empty h)
  · rintro h (hd | hp | hh)
    · exact absurd hd (AList.notMem_empty h)
    · exact absurd hp (AList.notMem_empty h)
    · exact absurd hh (AList.notMem_empty h)
  · exact RamCounted.empty rfl rfl

theorem opened (shape : H → H × Nat) (config : Config H) :
    TailsSettled config shape ({ config := config } : Cache H) := by
  constructor
  · rfl
  · rfl
  · intro h m hm
    cases hm
  · exact Indexed.empty
  · intro h hh
    exact absurd hh (AList.notMem_empty h)
  · rintro h (hd | hp | hh)
    · exact absurd hd (AList.notMem_empty h)
    · exact absurd hp (AList.notMem_empty h)
    · exact absurd hh (AList.notMem_empty h)
  · exact RamCounted.empty rfl rfl

theorem scanEntry (hc : Tails base shape stale (fun _ => False) c) {b : FoundBlock H}
    (hshape : shape b.hash = (b.parent, b.tokenCount)) :
    Tails base shape stale (fun _ => False) (scanEntry c b) := by
  unfold PrefixCache.scanEntry
  split
  · exact hc
  · dsimp only
    have hstale : Tails base shape (fun k => stale k ∨ k = b.hash) (fun _ => False) c :=
      hc.mono (fun _ => Or.inl) (fun _ => id)
    -- The text side table is no part of what the tables say.
    have hinsert := fun texts => hstale.enter
      (d := { c with
        disk := c.disk.insert b.hash
          { parent := b.parent, tokenCount := b.tokenCount, payloadBytes := b.payload.length,
            fileBytes := kHeaderBytes + b.payload.length, lastUsed := c.clock + 1, pins := 0 }
        clock := c.clock + 1
        diskBytes := c.diskBytes + (kHeaderBytes + b.payload.length)
        files := c.files.insert b.hash b.payload
        texts := texts })
      (M := fun k => False ∨ k = b.hash) rfl rfl rfl rfl
      (hc.ram.of_same rfl rfl (Nat.le_succ _))
      (by
        intro k
        simp only [Held, AList.mem_insert]
        tauto)
      (fun _ => Or.inl) (Or.inl (Or.inr rfl))
    exact (hinsert _).remember (Or.inl ((AList.mem_insert _).mpr (Or.inl rfl))) hshape

theorem openCache {config : Config H} {found : List (FoundBlock H)}
    (hfound : ∀ b ∈ found, shape b.hash = (b.parent, b.tokenCount)) :
    TailsSettled config shape (openCache env config found) := by
  unfold PrefixCache.openCache
  apply Tails.enforceBudget
  exact List.foldlRecOn found _ (opened shape config) fun _ hd b hb => hd.scanEntry (hfound b hb)

end Tails

end TyloQuant.PrefixCache
