import TyloQuant.PrefixCache.TailCalls

/-!
# The tail tables over whole runs

In every run in which no action hides, loses or indexes a tail behind the tables' back, the tail
tables are exact in every state between locked sections.  A short run shows that a load can hide
one.
-/

namespace TyloQuant.PrefixCache

open Lib

variable {H : Type} [DecidableEq H] {base : Config H} {shape : H → H × Nat}

theorem Tails.sections {stale : H → Prop} :
    Sections (fun _ => True) (Tails base shape stale fun _ => False) where
  limits _ _ hc := ⟨hc.hash, hc.size, hc.named, hc.counts, hc.listed, hc.known,
    hc.ram.bytes, hc.ram.recent⟩
  vanish _ _ hc := ⟨hc.hash, hc.size, hc.named, hc.counts, hc.listed, hc.known,
    hc.ram.bytes, hc.ram.recent⟩
  pins :=
    { pins := fun _ hc => hc.of_same rfl rfl rfl (fun _ => Iff.rfl) rfl rfl rfl le_rfl
      entry := fun _ hc he => hc.setDisk he le_rfl }
  erase h _ hc := hc.eraseCorruptLocked h
  enforceBudget _ hc := hc.enforceBudget 0
  trimHotLocked n hc := hc.trimHotLocked n

/-- The shapes of the blocks an action stores are those their hashes stand for. -/
def Shaped (base : Config H) (shape : H → H × Nat) : Action H → Prop
  | .store _ args _ => shape (args.hash base) = (args.parent, args.tokens.length)
  | _ => True

/-- **The step lemma.** -/
theorem tails_step (s : System H) (a : Action H) (s' : System H)
    (hs : TailsSettled base shape s.cache) (hok : keepsTails base shape s a = true)
    (hshape : Shaped base shape a) (hstep : step s a = some s') :
    TailsSettled base shape s'.cache := by
  refine Tails.sections.step hs (fun _ _ => trivial) (fun ha => step_writing ha ?_
    (fun _ _ => hs.writerLoopHead) (fun _ _ => ⟨hs.hash, hs.size, hs.named, hs.counts, hs.listed,
      hs.known, hs.ram.bytes, hs.ram.recent⟩) ?_ hstep)
    (fun _ _ => ⟨hs.hash, hs.size, hs.named, hs.counts, hs.listed, hs.known, hs.ram.bytes,
      hs.ram.recent⟩) ?_
    (fun _ _ => List.foldlRecOn _ _ hs fun _ hc h _ => hc.refreshEntry h) (fun _ _ => hs.clearBegin)
    hstep
  · rintro call args env rfl hready
    have hhash : args.hash s.cache.config = args.hash base := by
      unfold StoreArgs.hash
      rw [hs.hash]
    refine hs.storeLocked args (hhash ▸ hshape) hready (Or.inr ?_)
    simpa [keepsTails] using hok
  · rintro writer env w success rfl hw
    refine hs.finishWrite w success ?_
    simpa [keepsTails, hw] using hok
  · rintro call env load rfl hload hepoch
    refine hs.finishRequests load.requests ?_
    simpa [keepsTails, hload, hepoch] using hok

/-- **The tail index.**  Let `shape` give the parent and the length of every block found at the
    start or stored in the run: no two of them have one hash and different shapes.  Then in
    every state of every run none of whose actions touches a tail behind the tables' back,
    `tail_metadata_` lists exactly the partial blocks that some tier holds, with their parents
    and lengths, and `tail_lengths_` counts them. -/
theorem tail_index_exact (env : Env H) (config : Config H) (shape : H → H × Nat)
    (found : List (FoundBlock H)) (actions : List (Action H)) (s : System H)
    (hshape : ∀ a ∈ actions, Shaped config shape a)
    (hfound : ∀ b ∈ found, shape b.hash = (b.parent, b.tokenCount))
    (hok : Meets step (fun s a => keepsTails config shape s a = true)
      (initial env config found) actions)
    (hrun : run step (initial env config found) actions = some s) :
    TailIndexExact config shape s.cache :=
  Tails.exact (run_invariant (I := fun s => TailsSettled config shape s.cache)
    (fun s a s' hs hok hstep => tails_step s a s' hs hok.1 hok.2 hstep) (Tails.openCache hfound)
    (hok.and_forall hshape) hrun)

/-! ### A hidden tail -/

/-- Blocks of four tokens; a hash is one of 256, so that many blocks share one. -/
def byteConfig (maxDiskBytes maxHotBytes : Nat) : Config (Fin 256) where
  blockHash := fun parent tokens _ => parent + Fin.ofNat 256 tokens.length
  root := 0
  blockSizeTokens := 4
  maxDiskBytes := maxDiskBytes
  maxHotBytes := maxHotBytes
  maxPendingWrites := 4
  maxPendingBytes := 1000
  retainTailVersions := 0
  spillHotOnEviction := false
  minFreeRamBytes := 0

/-- The parent and the length of the first blocks that `byteConfig` hashes. -/
def firstShape (h : Fin 256) : Fin 256 × Nat := (0, h)

/-- Store a first block of two tokens. -/
def storeTail (call : Nat) (replace : Bool) (payload : Payload) : Action (Fin 256) :=
  .store call { parent := 0, tokens := [1, 2], payload := payload, replaceExisting := replace } {}

/-- The tail is written to the end, and a load reads its file. -/
def tailRead : List (Action (Fin 256)) :=
  [storeTail 0 false [1], .writerTick {}, .publish .thread .written, .finish .thread {},
    .retire .thread, .trimHot 0, .loadBegin 1 [2], .loadRead 1 0 true]

/-- When the tail is invalidated before the load ends, the load leaves it in RAM and unlisted,
    where no `match` finds it. -/
theorem invalidatedLoad_hides :
    ∃ s, run step (initial {} (byteConfig 1000 10) [])
        (tailRead ++ [.invalidate 2 {}, .loadFinish 1 {}]) = some s ∧
      ¬TailIndexExact (byteConfig 1000 10) firstShape s.cache := by
  have hrun : (run step (initial {} (byteConfig 1000 10) [])
      (tailRead ++ [.invalidate 2 {}, .loadFinish 1 {}])).map
      (fun s => (decide (2 ∈ s.cache.hot), decide (2 ∈ s.cache.tailMetadata))) =
      some (true, false) := by
    decide
  obtain ⟨s, hs, hfields⟩ := Option.map_eq_some_iff.mp hrun
  simp only [Prod.mk.injEq, decide_eq_true_eq, decide_eq_false_iff_not] at hfields
  refine ⟨s, hs, ?_⟩
  intro hexact
  apply hfields.2
  apply (hexact.keys 2).mpr
  exact ⟨Or.inr (Or.inr hfields.1), by decide⟩

/-- The index on a run with a tail on disk, read back and replaced. -/
theorem tail_index_exact_replayed :
    ∃ s, run step (initial {} (byteConfig 1000 10) [])
        (tailRead ++ [.loadFinish 1 {}, storeTail 2 true [7]]) = some s ∧
      TailIndexExact (byteConfig 1000 10) firstShape s.cache ∧ 2 ∈ s.cache.tailMetadata := by
  have hrun : (run step (initial {} (byteConfig 1000 10) [])
      (tailRead ++ [.loadFinish 1 {}, storeTail 2 true [7]])).map
        (fun s => decide (2 ∈ s.cache.tailMetadata)) = some true := by
    decide
  obtain ⟨s, hs, hmem⟩ := Option.map_eq_some_iff.mp hrun
  refine ⟨s, hs, ?_, of_decide_eq_true hmem⟩
  refine tail_index_exact {} (byteConfig 1000 10) firstShape [] _ s ?_ (by simp) (by decide) hs
  simp [tailRead, storeTail, Shaped, StoreArgs.hash, byteConfig, firstShape]

end TyloQuant.PrefixCache
