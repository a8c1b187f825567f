import TyloQuant.ContinuousBatch.Steps

/-!
# Prefills keep the batch consistent

A prefill takes several requests, each with its chunk, and works them off one by one.  Until its
turn a request keeps the chunk that it waits for (`Pending`), since the turn of another one changes
neither its flags nor its object.
-/

namespace TyloQuant.ContinuousBatch

open Lib List
open Lib.Call (Triple)

variable {I : Type} [DecidableEq I] {P : Batch I → Prop} {s s' : Batch I} {id : I} {p : Nat}
  {work : Work} {r : BatchRequest I} {ops : Ops} {replaying : Bool} {chunk : PrefillChunk}
  {item : I × PrefillChunk} {items : List (I × PrefillChunk)}

/-! ### Requests that wait for their turn -/

/-- The request still waits for the chunk. -/
def Pending (s : Batch I) (replaying : Bool) (item : I × PrefillChunk) : Prop :=
  ∃ work c r, s.requests.lookup item.1 = some work ∧ work.prefill = some c ∧
    c.offset = item.2.offset ∧ s.heap.lookup work.request = some r ∧
    (replaying = true → r.replayOffset ≠ none)

structure Waiting (replaying : Bool) (items : List (I × PrefillChunk)) (s : Batch I) : Prop where
  kept : s.Kept
  nodup : (items.map Prod.fst).Nodup
  pending : ∀ item ∈ items, Pending s replaying item

theorem Waiting.unscripted : Unscripted (fun s : Batch I => Waiting replaying items s) :=
  fun s script h => ⟨Batch.Kept.unscripted s script h.kept, h.nodup, h.pending⟩

theorem Pending.of_same (h : Pending s replaying item)
    (hrequests : s'.requests.lookup item.1 = s.requests.lookup item.1)
    (hheap : ∀ work, s.requests.lookup item.1 = some work →
      s'.heap.lookup work.request = s.heap.lookup work.request) : Pending s' replaying item := by
  obtain ⟨work, c, r, hwork, hprefill, hoffset, hr, hreplay⟩ := h
  exact ⟨work, c, r, hrequests.trans hwork, hprefill, hoffset, (hheap work hwork).trans hr, hreplay⟩

theorem Waiting.setWork {f : Work → Work} (h : Waiting replaying items s)
    (hid : ∀ item ∈ items, item.1 ≠ id) (hk : (s.setWork id f).Kept) :
    Waiting replaying items (s.setWork id f) :=
  ⟨hk, h.nodup, fun item hitem => (h.pending item hitem).of_same
    (by rw [Batch.lookup_setWork, if_neg (hid item hitem)]) fun _ _ => rfl⟩

/-- The turn of `id`, whose object is `p`: the others wait. -/
structure Turn (replaying : Bool) (id : I) (p : Nat) (items : List (I × PrefillChunk))
    (s : Batch I) : Prop where
  waiting : Waiting replaying items s
  others : ∀ item ∈ items, item.1 ≠ id
  objects : ∀ item ∈ items, ∀ work, s.requests.lookup item.1 = some work → work.request ≠ p

theorem Waiting.turn (h : Waiting replaying ((id, chunk) :: items) s)
    (hwork : s.requests.lookup id = some work) : Turn replaying id work.request items s := by
  have hothers : ∀ item ∈ items, item.1 ≠ id := by
    intro item hitem heq
    exact (nodup_cons.mp h.nodup).1 (mem_map.mpr ⟨item, hitem, heq⟩)
  refine ⟨⟨h.kept, (nodup_cons.mp h.nodup).2, fun item hitem =>
    h.pending item (mem_cons_of_mem _ hitem)⟩, hothers, ?_⟩
  intro item hitem work' hwork' heq
  exact hothers item hitem (h.kept.consistent.named.inj hwork' hwork heq)

namespace Turn

variable {f : Work → Work} {g : BatchRequest I → BatchRequest I}

theorem unscripted : Unscripted (fun s : Batch I => Turn replaying id p items s) :=
  fun s script h => ⟨Waiting.unscripted s script h.waiting, h.others, h.objects⟩

theorem setWork (h : Turn replaying id p items s) (hk : (s.setWork id f).Kept) :
    Turn replaying id p items (s.setWork id f) := by
  refine ⟨h.waiting.setWork h.others hk, h.others, fun item hitem work hwork => ?_⟩
  rw [Batch.lookup_setWork, if_neg (h.others item hitem)] at hwork
  exact h.objects item hitem work hwork

theorem setRequest (h : Turn replaying id p items s) (hk : (s.setRequest p g).Kept) :
    Turn replaying id p items (s.setRequest p g) :=
  ⟨⟨hk, h.waiting.nodup, fun item hitem => (h.waiting.pending item hitem).of_same rfl
    fun work hwork => by rw [Batch.lookup_setRequest, if_neg (h.objects item hitem work hwork)]⟩,
    h.others, h.objects⟩

theorem activate (h : Turn replaying id p items s) (hk : (s.activate id p f).Kept) :
    Waiting replaying items (s.activate id p f) :=
  ⟨hk, h.waiting.nodup, fun item hitem => (h.waiting.pending item hitem).of_same
    (by
      refine (Table.lookup_adjust _ _ _ _).trans ?_
      rw [if_neg (h.others item hitem)])
    fun _ _ => rfl⟩

end Turn

/-! ### One row -/

/-- The turn of a request that still waits for its chunk. -/
structure Due (replaying : Bool) (id : I) (work : Work) (chunk : PrefillChunk)
    (items : List (I × PrefillChunk)) (s : Batch I) : Prop where
  turn : Turn replaying id work.request items s
  registered : s.requests.lookup id = some work
  pending : ∃ c, work.prefill = some c ∧ c.offset = chunk.offset
  replay : replaying = true → ∃ r, s.heap.lookup work.request = some r ∧ r.replayOffset ≠ none

theorem Due.unscripted : Unscripted (fun s : Batch I => Due replaying id work chunk items s) :=
  fun s script h => ⟨Turn.unscripted s script h.turn, h.registered, h.pending, h.replay⟩

theorem Due.kept (h : Due replaying id work chunk items s) : s.Kept := h.turn.waiting.kept

theorem Due.idle (h : Due replaying id work chunk items s) : work.active = false := by
  obtain ⟨c, hc, -⟩ := h.pending
  apply Bool.eq_false_iff.mpr
  intro hactive
  rw [h.kept.consistent.exclusive h.registered hactive] at hc
  cases hc

theorem triple_due : Triple (fun s => Waiting replaying ((id, chunk) :: items) s) (workAt id)
    (fun work s => Due replaying id work chunk items s) fun s => s.Kept := by
  refine triple_workAt.weaken (fun _ h => h) ?_ fun _ h => h.kept
  rintro work s ⟨h, hwork⟩
  obtain ⟨work', c, r, hwork', hc, hoffset, hr, hreplay⟩ := h.pending (id, chunk) mem_cons_self
  cases hwork.symm.trans hwork'
  exact ⟨h.turn hwork, hwork, ⟨c, hc, hoffset⟩, fun hyes => ⟨r, hr, hreplay hyes⟩⟩

theorem Due.setRequest {g : BatchRequest I → BatchRequest I}
    (h : Due replaying id work chunk items s) (hid : ∀ r, (g r).id = r.id)
    (hsize : ∀ r, (g r).promptSize = r.promptSize)
    (hreplay : ∀ r, (g r).replayOffset = r.replayOffset) :
    Due replaying id work chunk items (s.setRequest work.request g) := by
  have hk : (s.setRequest work.request g).Kept := by
    refine h.kept.setRequest hid fun _ _ r q _ _ _ _ hphase => ?_
    cases q with
    | prefilling offset stop c =>
      simp only [Phase, hsize, hreplay]
      exact hphase
    | progress offset stop =>
      simp only [Phase, hsize, hreplay]
      exact hphase
    | delta => trivial
    | decodeWait => trivial
    | drafting => trivial
  refine ⟨h.turn.setRequest hk, h.registered, h.pending, fun hyes => ?_⟩
  obtain ⟨r, hr, hsome⟩ := h.replay hyes
  refine ⟨g r, ?_, by rw [hreplay]; exact hsome⟩
  rw [Batch.lookup_setRequest, if_pos rfl, hr, Option.map_some]

/-- The prompt is complete, and its request becomes a row. -/
theorem Due.activate (h : Due replaying id work chunk items s) (token : Nat)
    (hr : ∃ r, s.heap.lookup work.request = some r ∧ chunk.offset + chunk.count = r.promptSize) :
    Waiting replaying items (s.activate id work.request fun work => { work with
      completedPrefill := some chunk, result := some token }) := by
  refine h.turn.activate (h.kept.activate h.registered h.idle (fun _ => rfl) ?_)
  intro r' q hr' _ hphase
  obtain ⟨r, hr, hsize⟩ := hr
  cases hr.symm.trans hr'
  obtain ⟨c, hc, hoffset⟩ := h.pending
  cases q with
  | prefilling offset stop c' =>
    obtain ⟨hd, hreplay, hchunk, -⟩ := hphase
    refine ⟨hd, hreplay, by simp, fun _ => ⟨chunk, rfl, ?_⟩⟩
    rw [← (hchunk c hc).1, hoffset]
    exact hsize
  | progress offset stop =>
    rw [hphase.2.2.1] at hc
    cases hc
  | delta => trivial
  | decodeWait => trivial
  | drafting => trivial

theorem Due.complete (h : Due replaying id work chunk items s) (token : Nat) :
    Waiting replaying items (s.setWork id fun work => { work with
      completedPrefill := some chunk, result := some token, prefill := none }) := by
  refine (h.turn.setWork (h.kept.setWork fun work' hwork' => ?_)).waiting
  cases h.registered.symm.trans hwork'
  refine ⟨rfl, rfl, fun _ => rfl, fun {r q} _ _ hphase => ?_⟩
  have hidle := h.idle
  cases q with
  | prefilling offset stop c =>
    exact ⟨hphase.1, hphase.2.1, by simp, fun hactive => by simp [hidle] at hactive⟩
  | progress offset stop => exact ⟨hphase.1, hphase.2.1, rfl, hphase.2.2.2⟩
  | delta => trivial
  | decodeWait => trivial
  | drafting => trivial

theorem Batch.Kept.failing (h : s.Kept) (error : Failure) :
    (s.setWork id fun work => { work with failure := some error }).Kept :=
  h.setWork fun _ hwork => Work.Fits.cleared rfl rfl (h.consistent.exclusive hwork) (fun h => h)
    (Or.inr ⟨rfl, rfl⟩) rfl

theorem Batch.Kept.withheld (h : s.Kept) :
    (s.setWork id fun work => { work with prefill := none }).Kept :=
  h.setWork fun _ hwork => Work.Fits.cleared rfl rfl (h.consistent.exclusive hwork) (fun h => h)
    (Or.inl rfl) rfl

theorem triple_prefillRow (result : Except Failure Nat) :
    Triple (fun s => Waiting replaying ((id, chunk) :: items) s) (prefillRow id chunk result)
      (fun _ s => Waiting replaying items s) fun s => s.Kept := by
  refine triple_due.bind fun work => ?_
  cases result with
  | error e =>
    refine Triple.modify_bind (M := fun s => Turn replaying id work.request items s)
      (fun s h => h.turn.setWork (h.kept.failing e)) ?_
    refine ((maintains_askIf Turn.unscripted _).of_threw fun _ h => h.waiting.kept).bind
      fun _ => ?_
    exact Triple.modify fun s h => (h.setWork h.waiting.kept.withheld).waiting
  | ok token =>
    refine Triple.modify_bind (M := fun s => Due replaying id work chunk items s)
      (fun s h => h.setRequest (fun _ => rfl) (fun _ => rfl) fun _ => rfl) ?_
    refine (triple_requestAt.of_threw fun _ h => h.kept).bind fun r => ?_
    split
    · next hsize =>
      have hscript : Unscripted fun s : Batch I => Due replaying id work chunk items s ∧
          ∃ r, s.heap.lookup work.request = some r ∧
            chunk.offset + chunk.count = r.promptSize :=
        Due.unscripted.and fun _ _ h => h
      refine Triple.modify_bind (M := fun s => Due replaying id work chunk items s ∧
        ∃ r, s.heap.lookup work.request = some r ∧ chunk.offset + chunk.count = r.promptSize)
        (fun s h => ⟨h.1.setRequest (fun _ => rfl) (fun _ => rfl) fun _ => rfl,
          { r with cacheLength := r.promptSize }, ?_, hsize⟩) ?_
      · rw [Batch.lookup_setRequest, if_pos rfl, h.2, Option.map_some]
      refine ((maintains_askIf hscript _).of_threw fun _ h => h.1.kept).bind fun _ => ?_
      exact Triple.modify fun s h => h.1.activate token h.2
    · exact Triple.modify fun s h => h.1.complete token

/-! ### One replayed row -/

/-- The coroutine, if there is one, has left the prefill loop. -/
def Settled (id : I) (s : Batch I) : Prop :=
  ∀ q, s.sequences.lookup id = some q → ∀ work (r : BatchRequest I), Phase work r q

/-- The turn of a retracted request. -/
structure Replay (id : I) (work : Work) (items : List (I × PrefillChunk)) (s : Batch I) : Prop where
  turn : Turn true id work.request items s
  registered : s.requests.lookup id = some work
  settled : Settled id s
  idle : work.active = false

theorem Due.replayed (h : Due true id work chunk items s) : Replay id work items s := by
  refine ⟨h.turn, h.registered, fun q hq => ?_, h.idle⟩
  obtain ⟨r, hr, hsome⟩ := h.replay rfl
  obtain ⟨work', r', hwork', hr', hphase⟩ := h.kept.phases hq
  cases h.registered.symm.trans hwork'
  cases hr.symm.trans hr'
  cases q with
  | prefilling offset stop c => exact (hsome hphase.2.1).elim
  | progress offset stop => exact (hsome hphase.2.1).elim
  | delta => exact fun _ _ => trivial
  | decodeWait => exact fun _ _ => trivial
  | drafting => exact fun _ _ => trivial

theorem Replay.setRequest {g : BatchRequest I → BatchRequest I} (h : Replay id work items s)
    (hid : ∀ r, (g r).id = r.id) : Replay id work items (s.setRequest work.request g) := by
  have hkept := h.turn.waiting.kept
  refine ⟨h.turn.setRequest (hkept.setRequest hid ?_), h.registered, h.settled, h.idle⟩
  intro j work' r q hwork' heq _ hq _
  have hj : j = id := hkept.consistent.named.inj hwork' h.registered heq
  exact h.settled q (hj ▸ hq) _ _

theorem triple_replayRow :
    Triple (fun s => Waiting true ((id, chunk) :: items) s) (replayRow ops id chunk)
      (fun _ s => Waiting true items s) fun s => s.Kept := by
  refine triple_due.bind fun work => ?_
  refine Triple.modify_bind (M := fun s => Replay id work items s)
    (fun s h => h.replayed.setRequest fun _ => rfl) ?_
  refine Triple.bind (Q := fun _ s => Replay id work items s)
    (triple_requestAt.weaken (fun _ h => h) (fun _ _ h => h.1) fun _ h => h.turn.waiting.kept)
    fun r => ?_
  split
  · refine Triple.modify_bind (M := fun s => Replay id work items s)
      (fun s h => h.setRequest fun _ => rfl) ?_
    refine Triple.modify fun s h => h.turn.activate (h.turn.waiting.kept.activate h.registered
      h.idle (fun _ => rfl) fun r q _ hq _ => h.settled q hq _ _)
  · refine Triple.modify fun s h => (h.turn.setWork (h.turn.waiting.kept.setWork ?_)).waiting
    intro work' hwork'
    cases h.registered.symm.trans hwork'
    refine ⟨rfl, rfl, fun hactive => ?_, fun {r q} _ hq _ => h.settled q hq _ _⟩
    exact absurd hactive (by simp [h.idle])

theorem triple_prefillRows (rows : List ((I × PrefillChunk) × Except Failure Nat)) :
    Triple (fun s => Waiting replaying (rows.map Prod.fst) s) (prefillRows ops replaying rows)
      (fun _ s => s.Kept) fun s => s.Kept := by
  induction rows with
  | nil => exact Triple.pure fun s h => h.kept
  | cons row rows ih =>
    obtain ⟨⟨id, chunk⟩, result⟩ := row
    rw [prefillRows]
    split
    · next hreplay =>
      obtain rfl : replaying = true := (Bool.and_eq_true _ _ ▸ hreplay).1
      exact triple_replayRow.bind fun _ => ih
    · exact (triple_prefillRow result).bind fun _ => ih

/-! ### Packing -/

theorem triple_shorten (hP : Unscripted P) (present : Bool) :
    Triple P (shorten present chunk) (fun chunk' s => P s ∧ chunk'.offset = chunk.offset) P := by
  unfold shorten
  split
  · exact (maintains_ask hP).bind fun count => Triple.pure fun s h => ⟨h, rfl⟩
  · exact Triple.pure fun s h => ⟨h, rfl⟩

theorem Batch.Kept.admitted (h : s.Kept) :
    (s.setWork id fun work => { work with admitted := true }).Kept :=
  h.setWork fun _ hwork => Work.Fits.cleared rfl rfl (h.consistent.exclusive hwork) (fun h => h)
    (Or.inr ⟨rfl, rfl⟩) rfl

/-- The requests of the items are those that the handlers know. -/
def Packed (replaying : Bool) (items : List (I × PrefillChunk)) (s : Batch I) : Prop :=
  Waiting replaying items s ∧ s.prefillWork = items.map Prod.fst

theorem Packed.unscripted : Unscripted (fun s : Batch I => Packed replaying items s) :=
  Waiting.unscripted.and fun _ _ h => h

theorem triple_packRows (limit : Nat) (eligible : List I) (items : List (I × PrefillChunk))
    (remaining : Int) :
    Triple (fun s => Packed false items s) (packRows ops limit eligible items remaining)
      (fun items' s => Waiting false items' s) fun s => s.Kept := by
  induction eligible generalizing items remaining with
  | nil => exact Triple.pure fun s h => h.1
  | cons id rest ih =>
    refine Triple.get_bind fun s hs => ?_
    split
    · exact (ih items remaining).of_state hs
    next work hwork =>
    split
    · exact (ih items remaining).of_state hs
    next chunk hchunk =>
    have hbefore : Triple (fun t => t = s) (requestAt work.request) (fun r t => Packed false items t ∧
        t.requests.lookup id = some work ∧ t.heap.lookup work.request = some r) fun t => t.Kept :=
      triple_requestAt.weaken (fun _ h => h)
        (fun r t h => ⟨h.1 ▸ hs, h.1 ▸ hwork, h.2⟩) fun t h => h ▸ hs.1.kept
    refine hbefore.bind fun r => ?_
    split
    · exact (ih items remaining).weaken (fun _ h => h.1) (fun _ _ h => h) fun _ h => h
    next hfresh =>
    have hnew : ∀ item ∈ items, item.1 ≠ id := by
      intro item hitem heq
      apply hfresh
      left
      rw [hs.2, ← heq]
      exact mem_map_of_mem hitem
    have hscript : Unscripted fun t : Batch I =>
        t.requests.lookup id = some work ∧ t.heap.lookup work.request = some r :=
      fun _ _ h => h
    refine ((triple_canAdmit Packed.unscripted hscript fun t ht =>
      ⟨ht.1.setWork hnew ht.1.kept.refused, ht.2⟩).of_threw fun _ h => h.1.kept).bind
      fun admitted => ?_
    split
    · exact (ih items remaining).weaken (fun _ h => h.1) (fun _ _ h => h) fun _ h => h
    next hadmitted =>
    refine Triple.modify_bind (M := fun t => Packed false items t ∧
      t.requests.lookup id = some { work with admitted := true } ∧
      t.heap.lookup work.request = some r) (fun t ht => ?_) ?_
    · obtain ⟨hw, hr⟩ := ht.2 (by simpa using hadmitted)
      refine ⟨⟨ht.1.1.setWork hnew ht.1.1.kept.admitted, ht.1.2⟩, ?_, hr⟩
      rw [Batch.lookup_setWork, if_pos rfl, hw, Option.map_some]
    refine ((triple_shorten (Packed.unscripted.and fun _ _ h => h) _).of_threw
      fun _ h => h.1.1.kept).bind fun chunk' => ?_
    refine Triple.modify_bind (M := fun t => Packed false (items ++ [(id, chunk')]) t)
      (fun t ht => ?_) (ih _ _)
    obtain ⟨⟨hpacked, hw, hr⟩, hoffset⟩ := ht
    refine ⟨⟨hpacked.1.kept.of_eq rfl rfl rfl rfl rfl, ?_, ?_⟩, ?_⟩
    · rw [map_append]
      refine nodup_append.mpr ⟨hpacked.1.nodup, nodup_singleton _, ?_⟩
      intro a ha b hb heq
      obtain ⟨item, hitem, rfl⟩ := mem_map.mp ha
      exact hnew item hitem (heq.trans (mem_singleton.mp hb))
    · refine forall_mem_append.mpr ⟨hpacked.1.pending, forall_mem_singleton.mpr ?_⟩
      exact ⟨_, chunk, r, hw, hchunk, hoffset.symm, hr, fun h => Bool.noConfusion h⟩
    · rw [map_append, ← hpacked.2]
      rfl

theorem triple_packItems (eligible : List I) :
    Triple (fun s => Packed replaying [(id, chunk)] s) (packItems ops eligible id chunk replaying)
      (fun items s => Waiting replaying items s) fun s => s.Kept := by
  unfold packItems
  split
  · exact Triple.pure fun s h => h.1
  refine ((maintains_askOr Packed.unscripted _ _).of_threw fun _ h => h.1.kept).bind fun budget => ?_
  refine ((maintains_askOr Packed.unscripted _ _).of_threw fun _ h => h.1.kept).bind fun limit => ?_
  cases replaying with
  | true => exact Triple.pure fun s h => h.1
  | false => exact triple_packRows _ _ _ _

theorem maintains_askRows (hP : Unscripted P) (n : Nat) : Maintains P (askRows (I := I) n) := by
  induction n with
  | zero => exact maintains_pure
  | succ n ih => exact (maintains_askRow hP).bind fun _ => ih.bind fun _ => maintains_pure

theorem maintains_prefillOperation (hP : Unscripted P) :
    Maintains P (prefillOperation ops items replaying) := by
  unfold prefillOperation packedSamples
  split
  · exact (maintains_ask hP).bind fun _ => maintains_pure
  refine Triple.bind (Q := fun _ => P) ?_ fun samples => ?_
  · split
    · exact (maintains_ask hP).bind fun count => maintains_askRows hP count
    · exact maintains_pure
  · split
    · exact (maintains_ask hP).bind fun _ => maintains_pure
    · exact maintains_pure

theorem triple_prefillChunks (eligible : List I) :
    Maintains (fun s => s.Kept) (prefillChunks ops eligible id) := by
  refine (maintains_askIf Batch.Kept.unscripted _).bind fun _ => ?_
  refine Triple.modify_bind (M := fun s => s.Kept ∧ s.prefillWork = [id])
    (fun s h => ⟨h.noted _ _, rfl⟩) ?_
  refine Triple.modify_bind (M := fun s => s.Kept ∧ s.prefillWork = [id])
    (fun s h => ⟨h.1.admitted, h.2⟩) ?_
  refine (triple_workAt.of_threw fun _ h => h.1).bind fun work => ?_
  refine (triple_requestAt.of_threw fun _ h => h.1.1).bind fun r => ?_
  split
  · exact Triple.throw fun _ h => h.1.1.1
  next chunk hchunk =>
  have hscript : Unscripted fun s : Batch I => ((s.Kept ∧ s.prefillWork = [id]) ∧
      s.requests.lookup id = some work) ∧ s.heap.lookup work.request = some r :=
    ((Batch.Kept.unscripted.and fun _ _ h => h).and fun _ _ h => h).and fun _ _ h => h
  refine ((triple_shorten hscript _).of_threw fun _ h => h.1.1.1).bind fun chunk' => ?_
  refine Triple.modify_bind (M := fun s => Packed r.replayOffset.isSome [(id, chunk')] s)
    (fun s hs => ?_) ?_
  · obtain ⟨⟨⟨⟨hkept, hnames⟩, hwork⟩, hr⟩, hoffset⟩ := hs
    have hexclusive := hkept.consistent.exclusive hwork
    have hidle : work.active ≠ true := by
      intro hactive
      rw [hexclusive hactive] at hchunk
      cases hchunk
    have hkept' : (s.setWork id fun work => { work with prefill := some chunk' }).Kept := by
      refine hkept.setWork fun work' hwork' => ?_
      cases hwork.symm.trans hwork'
      refine ⟨rfl, rfl, fun hactive => (hidle hactive).elim, fun {r' q} _ _ hphase => ?_⟩
      cases q with
      | prefilling offset stop c =>
        obtain ⟨hd, hreplay, hc, hdone⟩ := hphase
        refine ⟨hd, hreplay, fun c' hc' => ?_, hdone⟩
        cases hc'
        rw [hoffset]
        exact hc chunk hchunk
      | progress offset stop =>
        rw [hphase.2.2.1] at hchunk
        cases hchunk
      | delta => trivial
      | decodeWait => trivial
      | drafting => trivial
    refine ⟨⟨hkept', nodup_singleton _, fun item hitem => ?_⟩, hnames⟩
    obtain rfl := mem_singleton.mp hitem
    refine ⟨{ work with prefill := some chunk' }, chunk', r, ?_, rfl, rfl, hr,
      fun hyes => Option.isSome_iff_ne_none.mp hyes⟩
    rw [Batch.lookup_setWork, if_pos rfl, hwork, Option.map_some]
  refine (triple_packItems eligible).bind fun items => ?_
  refine ((maintains_prefillOperation Waiting.unscripted).of_threw fun _ h => h.kept).bind
    fun samples => ?_
  refine Triple.modify_bind (M := fun s => Waiting r.replayOffset.isSome items s)
    (fun s h => ⟨h.kept.framed _, h.nodup, h.pending⟩) ?_
  split
  · exact Triple.throw fun _ h => h.kept
  next hlength =>
  refine Triple.bind (Q := fun _ s => s.Kept) ?_ fun _ => maintains_askIf Batch.Kept.unscripted _
  have hitems : (items.zip samples).map Prod.fst = items := map_fst_zip (by omega)
  refine (triple_prefillRows (items.zip samples)).weaken (fun s h => ?_) (fun _ _ h => h)
    fun _ h => h
  rw [hitems]
  exact h

end TyloQuant.ContinuousBatch
