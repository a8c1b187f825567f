import TyloQuant.PrefixCache.TailTables

/-!
# Tails and tiers

A tail is listed in the tail tables exactly while some tier holds it.  Inside a locked section
the two drift apart for a moment: a block leaves a tier before its tail is forgotten, and enters
one before its tail is remembered.  `Tails` is the invariant with the blocks for which either is
still to be done.
-/

namespace TyloQuant.PrefixCache

open Lib

variable {H : Type} [DecidableEq H]

/-- Some tier holds the block. -/
def Held (c : Cache H) (h : H) : Prop := h ∈ c.disk ∨ h ∈ c.pending ∨ h ∈ c.hot

instance (c : Cache H) (h : H) : Decidable (Held c h) := inferInstanceAs (Decidable (_ ∨ _ ∨ _))

/-- The block is shorter than a full one.  `shape` gives the parent and the length of a block. -/
def IsTail (base : Config H) (shape : H → H × Nat) (h : H) : Prop :=
  (shape h).2 < base.blockSizeTokens

instance (base : Config H) (shape : H → H × Nat) (h : H) : Decidable (IsTail base shape h) :=
  inferInstanceAs (Decidable (_ < _))

/-- The tail tables list the partial blocks that some tier holds, each with its parent and its
    length, and count them. -/
structure TailIndexExact (base : Config H) (shape : H → H × Nat) (c : Cache H) : Prop where
  keys : ∀ h, h ∈ c.tailMetadata ↔ Held c h ∧ IsTail base shape h
  shapes : ∀ h m, c.tailMetadata.lookup h = some m → m = shape h
  counts : Indexed c.tailLengths c.tailMetadata

/-! ### The RAM counter and the clock -/

/-- The RAM counter is exact, and no RAM block is from the future. -/
structure RamCounted (c : Cache H) : Prop where
  bytes : c.hotBytes = hotTotal c.hot
  recent : ∀ h e, c.hot.lookup h = some e → e.lastUsed ≤ c.clock

variable {h : H}

namespace RamCounted

variable {c c' : Cache H}

omit [DecidableEq H] in
theorem empty (hhot : c.hot = ∅) (hbytes : c.hotBytes = 0) [DecidableEq H] : RamCounted c := by
  constructor
  · rw [hbytes, hhot]
    rfl
  · intro h e he
    rw [hhot] at he
    cases he

theorem of_same (hc : RamCounted c) (hhot : c'.hot = c.hot) (hbytes : c'.hotBytes = c.hotBytes)
    (hclock : c.clock ≤ c'.clock) : RamCounted c' := by
  constructor
  · rw [hbytes, hhot]
    exact hc.bytes
  · intro h e he
    rw [hhot] at he
    exact (hc.recent h e he).trans hclock

theorem dropHot (hc : RamCounted c) (h : H) : RamCounted (dropHot c h) := by
  rw [dropHot_eq]
  have hle : hotSize c h ≤ c.hotBytes := hc.bytes ▸ hotSize_le h
  constructor
  · show subU64 c.hotBytes (hotSize c h) = hotTotal (c.hot.erase h)
    rw [subU64_of_le hle, hotTotal_erase, hc.bytes]
  · intro k e he
    exact hc.recent k e (Table.lookup_of_erase he)

theorem insertHot (hc : RamCounted c) (hnew : h ∉ c.hot) (p : Payload) :
    RamCounted (insertHot c h p) := by
  constructor
  · show c.hotBytes + p.length = hotTotal (c.hot.insert h ⟨p, c.clock + 1⟩)
    unfold hotTotal
    rw [Table.total_insert_of_none _ (AList.lookup_eq_none.mpr hnew), hc.bytes, Nat.add_comm]
    rfl
  · exact Table.forall_insert (fun k e he => (hc.recent k e he).trans (Nat.le_succ _)) le_rfl

theorem refreshHot (hc : RamCounted c) {e : HotEntry} (he : c.hot.lookup h = some e) :
    RamCounted { c with
      hot := c.hot.insert h { e with lastUsed := c.clock + 1 }, clock := c.clock + 1 } := by
  constructor
  · show c.hotBytes = hotTotal (c.hot.insert h { e with lastUsed := c.clock + 1 })
    unfold hotTotal
    have hsame := Table.total_insert_of_same (fun e : HotEntry => e.payload.length)
      (v := { e with lastUsed := c.clock + 1 }) he rfl
    rw [hsame]
    exact hc.bytes
  · exact Table.forall_insert (fun k d hd => (hc.recent k d hd).trans (Nat.le_succ _)) le_rfl

end RamCounted

/-! ### The invariant inside a locked section -/

/-- Blocks in `stale` may be listed though no tier holds them, blocks in `missing` may be held
    without being listed. -/
structure Tails (base : Config H) (shape : H → H × Nat) (stale missing : H → Prop)
    (c : Cache H) : Prop where
  hash : c.config.blockHash = base.blockHash
  size : c.config.blockSizeTokens = base.blockSizeTokens
  named : ∀ h m, c.tailMetadata.lookup h = some m → m = shape h ∧ IsTail base shape h
  counts : Indexed c.tailLengths c.tailMetadata
  listed : ∀ h, h ∈ c.tailMetadata → ¬stale h → Held c h
  known : ∀ h, Held c h → IsTail base shape h → ¬missing h → h ∈ c.tailMetadata
  ram : RamCounted c

/-- The invariant between locked sections. -/
abbrev TailsSettled (base : Config H) (shape : H → H × Nat) (c : Cache H) : Prop :=
  Tails base shape (fun _ => False) (fun _ => False) c

namespace Tails

variable {base : Config H} {shape : H → H × Nat} {stale missing S M : H → Prop}
  {c c' d : Cache H} {env : Env H}

theorem isTail (hc : Tails base shape stale missing c) (hh : h ∈ c.tailMetadata) :
    IsTail base shape h := by
  obtain ⟨m, hm⟩ := (Table.mem_iff _ _).mp hh
  exact (hc.named h m hm).2

theorem exact (hc : TailsSettled base shape c) : TailIndexExact base shape c := by
  constructor
  · intro h
    constructor
    · intro hh
      exact ⟨hc.listed h hh id, hc.isTail hh⟩
    · rintro ⟨hheld, htail⟩
      exact hc.known h hheld htail id
  · intro h m hm
    exact (hc.named h m hm).1
  · exact hc.counts

/-- A change of the tiers.  What some tier held it still holds, or it is stale; and what is new to
    the tiers is listed, or no tail, or missing. -/
theorem retier (hc : Tails base shape stale missing c)
    (hhash : c'.config.blockHash = c.config.blockHash)
    (hsize : c'.config.blockSizeTokens = c.config.blockSizeTokens)
    (hlengths : c'.tailLengths = c.tailLengths) (hmetadata : c'.tailMetadata = c.tailMetadata)
    (hram : RamCounted c')
    (hlost : ∀ h, stale h ∨ Held c h → S h ∨ Held c' h)
    (hnew : ∀ h, Held c' h → ¬M h →
      (Held c h ∧ ¬missing h) ∨ h ∈ c.tailMetadata ∨ ¬IsTail base shape h) :
    Tails base shape S M c' where
  hash := hhash.trans hc.hash
  size := hsize.trans hc.size
  named := by
    intro h m hm
    rw [hmetadata] at hm
    exact hc.named h m hm
  counts := by
    rw [hlengths, hmetadata]
    exact hc.counts
  listed := by
    intro h hh hstale
    rw [hmetadata] at hh
    by_cases hold : stale h
    · exact (hlost h (Or.inl hold)).resolve_left hstale
    · exact (hlost h (Or.inr (hc.listed h hh hold))).resolve_left hstale
  known := by
    intro h hheld htail hmissing
    rw [hmetadata]
    rcases hnew h hheld hmissing with ⟨hold, hm⟩ | hin | hfull
    · exact hc.known h hold htail hm
    · exact hin
    · exact absurd htail hfull
  ram := hram

theorem mono (hc : Tails base shape stale missing c) (hstale : ∀ h, stale h → S h)
    (hmissing : ∀ h, missing h → M h) : Tails base shape S M c := by
  apply hc.retier rfl rfl rfl rfl hc.ram
  · rintro h (hold | hheld)
    · exact Or.inl (hstale h hold)
    · exact Or.inr hheld
  · intro h hheld hm
    exact Or.inl ⟨hheld, fun hold => hm (hmissing h hold)⟩

/-- A change that leaves the tiers' blocks, the RAM tier and the tail tables as they are. -/
theorem of_same (hc : Tails base shape stale missing c)
    (hconfig : c'.config = c.config) (hlengths : c'.tailLengths = c.tailLengths)
    (hmetadata : c'.tailMetadata = c.tailMetadata) (hdisk : ∀ h, h ∈ c'.disk ↔ h ∈ c.disk)
    (hpending : c'.pending = c.pending) (hhot : c'.hot = c.hot)
    (hbytes : c'.hotBytes = c.hotBytes) (hclock : c.clock ≤ c'.clock) :
    Tails base shape stale missing c' := by
  have hheld : ∀ h, Held c' h ↔ Held c h := by
    intro h
    unfold Held
    rw [hdisk, hpending, hhot]
  apply hc.retier (by rw [hconfig]) (by rw [hconfig]) hlengths hmetadata
    (hc.ram.of_same hhot hbytes hclock)
  · intro h hh
    rw [hheld]
    exact hh
  · intro h hh hm
    rw [hheld] at hh
    exact Or.inl ⟨hh, hm⟩

/-! ### The tail tables -/

theorem forget (hc : Tails base shape (fun k => stale k ∨ k = h) missing c) :
    Tails base shape stale missing (forgetTailIfUnusedLocked c h) := by
  unfold forgetTailIfUnusedLocked
  split
  · rename_i hheld
    apply hc.retier rfl rfl rfl rfl hc.ram
    · rintro k ((hold | rfl) | hk)
      · exact Or.inl hold
      · exact Or.inr hheld
      · exact Or.inr hk
    · intro k hk hm
      exact Or.inl ⟨hk, hm⟩
  · rename_i hheld
    split
    · rename_i hnone
      have hout : h ∉ c.tailMetadata := AList.lookup_eq_none.mp hnone
      refine ⟨hc.hash, hc.size, hc.named, hc.counts, ?_, hc.known, hc.ram⟩
      intro k hk hstale
      apply hc.listed k hk
      rintro (hold | rfl)
      · exact hstale hold
      · exact hout hk
    · rename_i parent count hsome
      constructor
      · exact hc.hash
      · exact hc.size
      · intro k m hm
        exact hc.named k m (Table.lookup_of_erase hm)
      · exact hc.counts.forget hsome
      · intro k hk hstale
        obtain ⟨hne, hk⟩ := AList.mem_erase.mp hk
        apply hc.listed k hk
        rintro (hold | rfl)
        · exact hstale hold
        · exact hne rfl
      · intro k hk htail hm
        refine AList.mem_erase.mpr ⟨?_, hc.known k hk htail hm⟩
        rintro rfl
        exact hheld hk
      · exact hc.ram.of_same rfl rfl le_rfl

theorem forget_settled (hc : Tails base shape stale missing c) (h : H) :
    Tails base shape stale missing (forgetTailIfUnusedLocked c h) :=
  (hc.mono (S := fun k => stale k ∨ k = h) (fun _ => Or.inl) (fun _ => id)).forget

theorem remember {parent : H} {count : Nat}
    (hc : Tails base shape stale (fun k => missing k ∨ k = h) c) (hheld : Held c h)
    (hshape : shape h = (parent, count)) :
    Tails base shape stale missing (rememberTailLocked c h parent count) := by
  unfold rememberTailLocked
  split
  · rename_i hskip
    apply hc.retier rfl rfl rfl rfl hc.ram
    · exact fun _ => id
    · intro k hk hm
      by_cases hkh : k = h
      · subst hkh
        right
        rcases hskip with hfull | hin
        · right
          unfold IsTail
          rw [hshape, ← hc.size]
          exact not_lt.mpr hfull
        · exact Or.inl hin
      · exact Or.inl ⟨hk, fun h => h.elim hm hkh⟩
  · rename_i hskip
    simp only [not_or, not_le, ge_iff_le] at hskip
    obtain ⟨hshort, hnew⟩ := hskip
    have htail : IsTail base shape h := by
      unfold IsTail
      rw [hshape, ← hc.size]
      exact hshort
    constructor
    · exact hc.hash
    · exact hc.size
    · exact Table.forall_insert hc.named ⟨hshape.symm, htail⟩
    · exact hc.counts.remember hnew parent count
    · exact Table.forall_mem_insert hc.listed fun _ => hheld
    · intro k hk htail hm
      apply (AList.mem_insert _).mpr
      by_cases hkh : k = h
      · exact Or.inl hkh
      · right
        exact hc.known k hk htail fun h => h.elim hm hkh
    · exact hc.ram.of_same rfl rfl le_rfl

theorem schedule (hc : Tails base shape stale missing c) (h parent : H) (tokens : List Int)
    (extraKey : String) :
    Tails base shape stale missing (scheduleTailCleanupLocked c h parent tokens extraKey) := by
  obtain ⟨cleanup, heq⟩ := scheduleTailCleanupLocked_eq c h parent tokens extraKey
  rw [heq]
  exact hc.of_same rfl rfl rfl (fun _ => Iff.rfl) rfl rfl rfl le_rfl

/-! ### One block leaves or enters one tier -/

theorem dropHot (hc : Tails base shape stale missing c) (h : H) :
    Tails base shape (fun k => stale k ∨ k = h) missing (dropHot c h) := by
  have hram := hc.ram.dropHot h
  rw [dropHot_eq] at hram ⊢
  refine hc.retier rfl rfl rfl rfl hram ?_ ?_
  · rintro k (hold | hd | hp | hh)
    · exact Or.inl (Or.inl hold)
    · exact Or.inr (Or.inl hd)
    · exact Or.inr (Or.inr (Or.inl hp))
    · by_cases hkh : k = h
      · exact Or.inl (Or.inr hkh)
      · exact Or.inr (Or.inr (Or.inr (AList.mem_erase.mpr ⟨hkh, hh⟩)))
  · rintro k (hd | hp | hh) hm
    · exact Or.inl ⟨Or.inl hd, hm⟩
    · exact Or.inl ⟨Or.inr (Or.inl hp), hm⟩
    · exact Or.inl ⟨Or.inr (Or.inr (AList.mem_erase.mp hh).2), hm⟩

theorem dropDisk (hc : Tails base shape stale missing c) (h : H) :
    Tails base shape (fun k => stale k ∨ k = h) missing (dropDisk c h) := by
  have hram : RamCounted (PrefixCache.dropDisk c h) := by
    rw [dropDisk_eq]
    exact hc.ram.of_same rfl rfl le_rfl
  rw [dropDisk_eq] at hram ⊢
  refine hc.retier rfl rfl rfl rfl hram ?_ ?_
  · rintro k (hold | hd | hp | hh)
    · exact Or.inl (Or.inl hold)
    · by_cases hkh : k = h
      · exact Or.inl (Or.inr hkh)
      · exact Or.inr (Or.inl (AList.mem_erase.mpr ⟨hkh, hd⟩))
    · exact Or.inr (Or.inr (Or.inl hp))
    · exact Or.inr (Or.inr (Or.inr hh))
  · rintro k (hd | hp | hh) hm
    · exact Or.inl ⟨Or.inl (AList.mem_erase.mp hd).2, hm⟩
    · exact Or.inl ⟨Or.inr (Or.inl hp), hm⟩
    · exact Or.inl ⟨Or.inr (Or.inr hh), hm⟩

theorem settlePending (hc : Tails base shape stale missing c) (h : H) :
    Tails base shape (fun k => stale k ∨ k = h) missing (settlePending c h) := by
  unfold PrefixCache.settlePending
  split
  · exact hc.mono (fun _ => Or.inl) (fun _ => id)
  · refine hc.retier rfl rfl rfl rfl (hc.ram.of_same rfl rfl le_rfl) ?_ ?_
    · rintro k (hold | hd | hp | hh)
      · exact Or.inl (Or.inl hold)
      · exact Or.inr (Or.inl hd)
      · by_cases hkh : k = h
        · exact Or.inl (Or.inr hkh)
        · exact Or.inr (Or.inr (Or.inl (AList.mem_erase.mpr ⟨hkh, hp⟩)))
      · exact Or.inr (Or.inr (Or.inr hh))
    · rintro k (hd | hp | hh) hm
      · exact Or.inl ⟨Or.inl hd, hm⟩
      · exact Or.inl ⟨Or.inr (Or.inl (AList.mem_erase.mp hp).2), hm⟩
      · exact Or.inl ⟨Or.inr (Or.inr hh), hm⟩

/-- A block enters a tier: it is no longer stale, and missing unless it is listed or no tail. -/
theorem enter (hc : Tails base shape (fun k => stale k ∨ k = h) missing c)
    (hhash : d.config.blockHash = c.config.blockHash)
    (hsize : d.config.blockSizeTokens = c.config.blockSizeTokens)
    (hlengths : d.tailLengths = c.tailLengths) (hmetadata : d.tailMetadata = c.tailMetadata)
    (hram : RamCounted d) (hheld : ∀ k, Held d k ↔ k = h ∨ Held c k)
    (hmissing : ∀ k, missing k → M k) (hknown : M h ∨ h ∈ c.tailMetadata ∨ ¬IsTail base shape h) :
    Tails base shape stale M d := by
  apply hc.retier hhash hsize hlengths hmetadata hram
  · rintro k ((hold | rfl) | hk)
    · exact Or.inl hold
    · exact Or.inr ((hheld k).mpr (Or.inl rfl))
    · exact Or.inr ((hheld k).mpr (Or.inr hk))
  · intro k hk hm
    rcases (hheld k).mp hk with rfl | hk
    · exact Or.inr (hknown.resolve_left hm)
    · exact Or.inl ⟨hk, fun hold => hm (hmissing k hold)⟩

theorem spillDeferred (hc : Tails base shape stale missing c) (hh : h ∈ c.hot) :
    Tails base shape stale missing (spillDeferred c h) := by
  unfold PrefixCache.spillDeferred
  split
  · exact hc
  · split
    · -- The block is queued while it is in RAM.
      refine hc.retier rfl rfl rfl rfl (hc.ram.of_same rfl rfl le_rfl) ?_ ?_
      · rintro k (hold | hd | hp | hk)
        · exact Or.inl hold
        · exact Or.inr (Or.inl hd)
        · exact Or.inr (Or.inr (Or.inl ((AList.mem_insert _).mpr (Or.inr hp))))
        · exact Or.inr (Or.inr (Or.inr hk))
      · rintro k (hd | hp | hk) hm
        · exact Or.inl ⟨Or.inl hd, hm⟩
        · rcases (AList.mem_insert _).mp hp with rfl | hp
          · exact Or.inl ⟨Or.inr (Or.inr hh), hm⟩
          · exact Or.inl ⟨Or.inr (Or.inl hp), hm⟩
        · exact Or.inl ⟨Or.inr (Or.inr hk), hm⟩
    · exact hc.of_same rfl rfl rfl (fun _ => Iff.rfl) rfl rfl rfl le_rfl

theorem dropDeferred (hc : Tails base shape stale missing c) (h : H) :
    Tails base shape stale missing (dropDeferred c h) :=
  hc.of_same rfl rfl rfl (fun _ => Iff.rfl) rfl rfl rfl le_rfl

theorem redefer (hc : Tails base shape stale missing c) (h : H) (e : DiskEntry H) :
    Tails base shape stale missing (redefer c h e) := by
  unfold PrefixCache.redefer
  split
  · exact hc
  · split
    · exact hc.of_same rfl rfl rfl (fun _ => Iff.rfl) rfl rfl rfl le_rfl
    · exact hc

theorem removed (hc : Tails base shape stale missing c) (h : H) :
    Tails base shape stale missing (removeText env (removeFile env c h) h) :=
  hc.of_same rfl rfl rfl (fun _ => Iff.rfl) rfl rfl rfl le_rfl

/-- The index entry of a block changes, but not its being there. -/
theorem setDisk (hc : Tails base shape stale missing c) {e e' : DiskEntry H} {clock : Nat}
    (he : c.disk.lookup h = some e) (hclock : c.clock ≤ clock) :
    Tails base shape stale missing { c with disk := c.disk.insert h e', clock := clock } := by
  refine hc.of_same rfl rfl rfl ?_ rfl rfl rfl hclock
  exact fun k => Table.mem_insert_of_mem (Table.mem_of_lookup he)

/-! ### The RAM tier -/

theorem evictHot (hc : Tails base shape stale missing c) (hh : h ∈ c.hot) :
    Tails base shape stale missing (evictHot c h) :=
  ((hc.spillDeferred hh).dropHot h).forget

theorem trimHotLoop (hc : Tails base shape stale missing c) (targetBytes fuel : Nat) :
    Tails base shape stale missing (trimHotLoop targetBytes fuel c) := by
  induction fuel generalizing c with
  | zero => exact hc
  | succ fuel ih =>
    unfold PrefixCache.trimHotLoop
    split
    · exact hc
    · split
      · exact hc
      · rename_i victim hvictim
        exact ih (hc.evictHot (Table.mem_of_lookup (Table.leastRecent_some hvictim).1))

theorem trimHotLocked (hc : Tails base shape stale missing c) (targetBytes : Nat) :
    Tails base shape stale missing (trimHotLocked targetBytes c).1 :=
  hc.trimHotLoop targetBytes _

theorem ramPressure (hc : Tails base shape stale missing c) :
    Tails base shape stale missing (trimForRamPressureLocked env c) := by
  unfold trimForRamPressureLocked
  split
  · exact hc
  · split
    · exact hc
    · exact hc.trimHotLocked _

theorem touchHot (hc : Tails base shape stale missing c) (h : H) :
    Tails base shape stale missing (touchHot c h) := by
  unfold PrefixCache.touchHot
  split
  · exact hc
  · rename_i e he
    have hheld : ∀ k,
        k ∈ c.hot.insert h { e with lastUsed := c.clock + 1 } ↔ k ∈ c.hot :=
      fun k => Table.mem_insert_of_mem (Table.mem_of_lookup he)
    refine hc.retier rfl rfl rfl rfl (hc.ram.refreshHot he) ?_ ?_
    · intro k hk
      simpa only [Held, hheld] using hk
    · intro k hk hm
      simp only [Held, hheld] at hk
      exact Or.inl ⟨hk, hm⟩

theorem touchDisk (hc : Tails base shape stale missing c) (h : H) :
    Tails base shape stale missing (touchDisk c h) := by
  unfold PrefixCache.touchDisk
  split
  · exact hc
  · rename_i e he
    exact hc.setDisk he (Nat.le_succ _)

theorem insertHot (hc : Tails base shape (fun k => stale k ∨ k = h) missing c) (hnew : h ∉ c.hot)
    (p : Payload) (hmissing : ∀ k, missing k → M k)
    (hknown : M h ∨ h ∈ c.tailMetadata ∨ ¬IsTail base shape h) :
    Tails base shape stale M (insertHot c h p) := by
  refine hc.enter rfl rfl rfl rfl (hc.ram.insertHot hnew p) ?_ hmissing hknown
  intro k
  simp only [Held, PrefixCache.insertHot, AList.mem_insert]
  tauto

theorem notMem_dropHot (c : Cache H) (h : H) : h ∉ (PrefixCache.dropHot c h).hot := by
  rw [dropHot_eq]
  intro hh
  exact (AList.mem_erase.mp hh).1 rfl

theorem dropHot_metadata (c : Cache H) (h : H) :
    (PrefixCache.dropHot c h).tailMetadata = c.tailMetadata := by
  rw [dropHot_eq]

theorem putHot_fits (hc : Tails base shape stale missing c) {p : Payload}
    (hfits : fitsHot c p = true) (hmissing : ∀ k, missing k → M k)
    (hknown : M h ∨ h ∈ c.tailMetadata ∨ ¬IsTail base shape h) :
    Tails base shape stale M (putHotLocked c h p) := by
  unfold putHotLocked
  rw [if_pos hfits]
  apply Tails.trimHotLocked
  apply (hc.dropHot h).insertHot (notMem_dropHot c h) p hmissing
  rw [dropHot_metadata]
  exact hknown

/-- A payload that does not fit takes the RAM copy away. -/
theorem putHot_drops (hc : Tails base shape stale missing c) {p : Payload}
    (hfits : ¬fitsHot c p = true) :
    Tails base shape (fun k => stale k ∨ k = h) missing (putHotLocked c h p) := by
  unfold putHotLocked
  rw [if_neg hfits]
  exact hc.dropHot h

theorem putHot (hc : Tails base shape stale missing c) (h : H) (p : Payload) :
    Tails base shape (fun k => stale k ∨ k = h) (fun k => missing k ∨ k = h)
      (putHotLocked c h p) := by
  by_cases hfits : fitsHot c p = true
  · have hput := hc.putHot_fits (M := fun k => missing k ∨ k = h) hfits
      (fun _ => Or.inl) (Or.inl (Or.inr rfl))
    exact hput.mono (fun _ => Or.inl) (fun _ => id)
  · exact (hc.putHot_drops hfits).mono (fun _ => id) (fun _ => Or.inl)

/-! ### The disk tier -/

theorem evictDisk (hc : Tails base shape stale missing c) (h : H) (e : DiskEntry H) :
    Tails base shape stale missing (evictDisk env c h e) :=
  ((hc.removed h).redefer h e |>.dropDisk h).forget

theorem enforceLoop (hc : Tails base shape stale missing c)
    (target maxEvictions fuel evicted : Nat) :
    Tails base shape stale missing (enforceLoop env target maxEvictions fuel evicted c).1 := by
  induction fuel generalizing c evicted with
  | zero => exact hc
  | succ fuel ih =>
    unfold PrefixCache.enforceLoop
    split
    · exact hc
    · split
      · exact hc
      · split
        · exact hc
        · split
          · exact hc.evictDisk _ _
          · exact ih (hc.evictDisk _ _) (evicted + 1)

theorem enforceDiskBudget (hc : Tails base shape stale missing c) (reserved maxEvictions : Nat) :
    Tails base shape stale missing (enforceDiskBudgetLocked env reserved maxEvictions c).1 :=
  hc.enforceLoop _ _ _ _

theorem enforceBudget (hc : Tails base shape stale missing c) (reserved : Nat) :
    Tails base shape stale missing (enforceBudget env reserved c) :=
  hc.enforceDiskBudget reserved u64Max

theorem unlinkDisk (hc : Tails base shape stale missing c) (h : H) :
    Tails base shape (fun k => stale k ∨ k = h) missing (unlinkDisk env c h) :=
  (hc.removed h).dropDisk h

theorem eraseCorruptLocked (hc : Tails base shape stale missing c) (h : H) :
    Tails base shape stale missing (eraseCorruptLocked env c h).1 := by
  have hstay := (hc.dropDeferred h).mono (S := fun k => stale k ∨ k = h) (fun _ => Or.inl)
    (fun _ => id)
  have hdrop : Tails base shape (fun k => stale k ∨ k = h) missing
      (if h ∈ (PrefixCache.dropDeferred c h).disk then
        PrefixCache.unlinkDisk env (PrefixCache.dropDeferred c h) h
        else PrefixCache.dropDeferred c h) := by
    split
    · exact (hc.dropDeferred h).unlinkDisk h
    · exact hstay
  unfold PrefixCache.eraseCorruptLocked
  dsimp only
  split
  · apply Tails.forget
    apply (hdrop.dropHot h).mono _ (fun _ => id)
    rintro k ((hold | hk) | hk)
    · exact Or.inl hold
    · exact Or.inr hk
    · exact Or.inr hk
  · exact hc.dropDeferred h

/-! ### Superseded tails -/

theorem supersede (hc : Tails base shape stale missing c) (h : H) :
    Tails base shape stale missing (supersede env c h) := by
  have hdrop : Tails base shape (fun k => stale k ∨ k = h) missing
      (if h ∈ c.disk then PrefixCache.unlinkDisk env c h else c) := by
    split
    · exact hc.unlinkDisk h
    · exact hc.mono (fun _ => Or.inl) (fun _ => id)
  unfold PrefixCache.supersede
  dsimp only
  apply Tails.forget
  apply Tails.dropDeferred
  apply (hdrop.dropHot h).mono _ (fun _ => id)
  rintro k ((hold | hk) | hk)
  · exact Or.inl hold
  · exact Or.inr hk
  · exact Or.inr hk

theorem pruneVictims (hc : Tails base shape stale missing c) (victims : List H) :
    Tails base shape stale missing (pruneVictims env c victims).1 := by
  induction victims generalizing c with
  | nil => exact hc
  | cons victim rest ih =>
    unfold PrefixCache.pruneVictims
    split
    · exact ih hc
    · exact ih (hc.supersede victim)

theorem setCleanup (hc : Tails base shape stale missing c) (cleanup : Table H (List H)) :
    Tails base shape stale missing { c with tailCleanup := cleanup } :=
  hc.of_same rfl rfl rfl (fun _ => Iff.rfl) rfl rfl rfl le_rfl

theorem pruneEntry (hc : Tails base shape stale missing c) (key : H) :
    Tails base shape stale missing (pruneEntry env c key) := by
  unfold PrefixCache.pruneEntry
  split
  · exact hc
  · split
    · split
      · exact hc
      · exact hc.setCleanup _
    · split
      · exact hc.setCleanup _
      · exact (hc.pruneVictims _).setCleanup _

theorem pruneTailCleanup (hc : Tails base shape stale missing c) :
    Tails base shape stale missing (pruneTailCleanupLocked env c) :=
  List.foldlRecOn _ _ hc fun _ hd key _ => hd.pruneEntry key

end Tails

end TyloQuant.PrefixCache
