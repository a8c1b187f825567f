import TyloQuant.ContinuousBatch.Failures

/-!
# Runs of a batch

A coroutine changes its request only between two suspensions, and what it leaves fits the point
at which it is suspended next.  So every action keeps the batch consistent, and with it every run.
-/

namespace TyloQuant.ContinuousBatch

open Lib
open Lib.Call (Triple)

variable {I : Type} [DecidableEq I] {P : Batch I → Prop} {s s' : Batch I} {id : I} {p : Nat}
  {work : Work} {r : BatchRequest I} {ops : Ops}

/-! ### A running coroutine -/

/-- The coroutine of `id` runs, and its request is registered. -/
structure Batch.Running (id : I) (s : Batch I) : Prop where
  kept : s.Kept
  awake : s.Awake id
  registered : ∃ work, s.requests.lookup id = some work

theorem Batch.Running.unscripted : Unscripted (fun s : Batch I => s.Running id) :=
  fun s script h => ⟨Batch.Kept.unscripted s script h.kept, h.awake, h.registered⟩

/-- The flags of a running coroutine are free, but for a prefill of a row. -/
theorem Batch.Running.setWork {f : Work → Work} (h : s.Running id)
    (hrequest : ∀ work, (f work).request = work.request)
    (hactive : ∀ work, (f work).active = work.active)
    (hprefill : ∀ work, s.requests.lookup id = some work → work.active = true →
      (f work).prefill = none) : (s.setWork id f).Running id := by
  refine ⟨h.kept.setWork fun work hwork => ⟨hrequest work, hactive work, ?_, ?_⟩, h.awake, ?_⟩
  · intro hact
    exact hprefill work hwork ((hactive work).symm.trans hact)
  · intro r q _ hq _
    rw [h.awake] at hq
    cases hq
  · obtain ⟨work, hwork⟩ := h.registered
    exact ⟨f work, by simp [hwork]⟩

theorem Batch.Running.setRequest {g : BatchRequest I → BatchRequest I} (h : s.Running id)
    (hwork : s.requests.lookup id = some work) (hid : ∀ r, (g r).id = r.id) :
    (s.setRequest work.request g).Running id := by
  refine ⟨h.kept.setRequest hid fun j work' r q hwork' heq _ hq _ => ?_, h.awake, h.registered⟩
  rw [h.kept.consistent.named.inj hwork' hwork heq, h.awake] at hq
  cases hq

theorem Batch.Running.scheduled (h : s.Running id) :
    (s.setWork id fun work => { work with result := none, decode := true }).Running id := by
  refine h.setWork (fun _ => rfl) (fun _ => rfl) fun work hwork hactive => ?_
  have hprefill := h.kept.consistent.exclusive hwork hactive
  exact hprefill

theorem maintains_stopped (hP : Unscripted P) : Maintains P (stopped (I := I)) :=
  (maintains_ask hP).bind fun _ => maintains_pure

theorem triple_sample : Triple P (sample id)
    (fun _ s => P s ∧ ∃ work, s.requests.lookup id = some work ∧ work.result ≠ none) P := by
  refine (triple_workAt.of_threw fun _ h => h).bind fun work => ?_
  split
  · exact Triple.throw fun _ h => h.1
  · next hresult => exact Triple.pure fun _ h => ⟨h.1, work, h.2, by simp [hresult]⟩
  · exact Triple.throw fun _ h => h.1

theorem maintains_sample : Maintains P (sample id) :=
  triple_sample.weaken (fun _ h => h) (fun _ _ h => h.1) fun _ h => h

/-! ### Suspensions -/

/-- The coroutine is over, or its flags fit where it is suspended. -/
def Suspends (id : I) (next : Option Sequence) (s : Batch I) : Prop :=
  s.Running id ∧ ∀ q, next = some q → ∀ work r, s.requests.lookup id = some work →
    s.heap.lookup work.request = some r → Phase work r q

/-- A point outside the prefill loop. -/
def Late : Sequence → Prop
  | .prefilling .. => False
  | .progress .. => False
  | _ => True

/-- The part of the coroutine up to its next suspension. -/
abbrev Continues (id : I) (x : Run I (Option Sequence)) : Prop :=
  Triple (fun s => s.Running id) x (Suspends id) fun s => s.Running id

theorem continues_over : Continues id (pure none : Run I (Option Sequence)) :=
  Triple.pure fun _ h => ⟨h, fun q hq => by cases hq⟩

theorem continues_late {q : Sequence} (hq : Late q) :
    Continues id (pure (some q) : Run I (Option Sequence)) := by
  refine Triple.pure fun s h => ⟨h, fun q' hq' work r _ _ => ?_⟩
  cases hq'
  cases q with
  | prefilling offset stop c => exact hq.elim
  | progress offset stop => exact hq.elim
  | delta => trivial
  | decodeWait => trivial
  | drafting => trivial

/-! ### The token loop -/

theorem maintains_accept : Maintains (fun s : Batch I => s.Running id) (accept id) := by
  refine (triple_workAt.of_threw fun _ h => h).bind fun work => ?_
  refine Triple.bind (Q := fun _ s => s.Running id ∧ s.requests.lookup id = some work)
    (triple_requestAt.weaken (fun _ h => h) (fun _ _ h => h.1) fun _ h => h.1) fun r => ?_
  have hpre : Unscripted fun s : Batch I => s.Running id ∧ s.requests.lookup id = some work :=
    Batch.Running.unscripted.and fun _ _ h => h
  have hsample : Maintains (fun s : Batch I => s.Running id ∧ s.requests.lookup id = some work)
      (acceptSample id r) := by
    unfold acceptSample
    split
    · exact maintains_sample.bind fun _ => maintains_askIf hpre _
    · exact maintains_pure
  refine (hsample.of_threw fun _ h => h.1).bind fun _ => ?_
  exact Triple.modify fun s h => h.1.setRequest h.2 fun _ => rfl

theorem maintains_runDraft (d : Draft) :
    Maintains (fun s : Batch I => s.Running id) (runDraft id d) := by
  cases d with
  | schedule => exact Triple.modify fun s h => h.scheduled
  | check => exact maintains_sample.bind fun _ => maintains_pure
  | accepted n =>
    refine (triple_workAt.of_threw fun _ h => h).bind fun work => ?_
    exact Triple.modify fun s h => h.1.setRequest h.2 fun _ => rfl

theorem continues_draft (drafts : List Draft) : Continues id (draft id drafts) := by
  refine Triple.bind (Q := fun _ s => s.Running id)
    (maintains_forEach fun d _ => maintains_runDraft d) fun _ => ?_
  refine (maintains_ask Batch.Running.unscripted).bind fun done => ?_
  split
  · exact continues_over
  · exact continues_late trivial

theorem continues_tokenLoop : Continues id (tokenLoop id) := by
  refine (maintains_stopped Batch.Running.unscripted).bind fun halted => ?_
  split
  · exact continues_over
  refine (maintains_askIf Batch.Running.unscripted _).bind fun _ => ?_
  refine maintains_accept.bind fun _ => ?_
  refine (maintains_stopped Batch.Running.unscripted).bind fun halted => ?_
  split
  · exact continues_late trivial
  · exact Triple.modify_bind (fun s h => h.scheduled) (continues_late trivial)

theorem continues_enterDecode (drafts : List Draft) : Continues id (enterDecode ops id drafts) := by
  refine (maintains_askOr Batch.Running.unscripted _ _).bind fun drafting => ?_
  split
  · exact continues_draft drafts
  · exact maintains_sample.bind fun _ => continues_tokenLoop

theorem continues_awaitToken : Continues id (awaitToken id) := by
  refine (maintains_stopped Batch.Running.unscripted).bind fun halted => ?_
  split
  · exact continues_over
  refine Triple.bind (Q := fun _ s => s.Running id)
    (triple_workAt.weaken (fun _ h => h) (fun _ _ h => h.1) fun _ h => h) fun work => ?_
  split
  · exact continues_late trivial
  · exact maintains_sample.bind fun _ => continues_tokenLoop

/-! ### The prefill loop -/

/-- At the head of the prefill loop a request whose prompt is not complete is no row. -/
def Incomplete (offset : Nat) (work : Work) (r : BatchRequest I) : Prop :=
  work.decode = false ∧ r.replayOffset = none ∧ (work.active = true → offset = r.promptSize)

def AtHead (id : I) (offset : Nat) (s : Batch I) : Prop :=
  s.Running id ∧ ∀ work r, s.requests.lookup id = some work →
    s.heap.lookup work.request = some r → Incomplete offset work r

theorem triple_nextPrefillChunk {offset : Nat} (total : Nat) {size : Nat} :
    Triple P (nextPrefillChunk total offset size) (fun chunk s => P s ∧ chunk.offset = offset)
      P := by
  unfold nextPrefillChunk
  split
  · exact Triple.throw fun _ h => h
  · exact Triple.pure fun _ h => ⟨h, rfl⟩

theorem continues_prefillLoop (drafts : List Draft) (offset stop : Nat) :
    Triple (AtHead id offset) (prefillLoop ops id drafts offset stop) (Suspends id)
      fun s => s.Running id := by
  refine (triple_workAt.of_threw fun _ h => h.1).bind fun work => ?_
  refine (triple_requestAt.of_threw fun _ h => h.1.1).bind fun r => ?_
  have hpre : Unscripted fun s : Batch I => ((AtHead id offset s ∧
      s.requests.lookup id = some work) ∧ s.heap.lookup work.request = some r) :=
    ((Batch.Running.unscripted.and fun _ _ h => h).and fun _ _ h => h).and fun _ _ h => h
  refine ((maintains_stopped hpre).of_threw fun _ h => h.1.1.1).bind fun halted => ?_
  split
  · exact continues_over.weaken (fun _ h => h.1.1.1) (fun _ _ h => h) fun _ h => h
  split
  · next hmore =>
    refine ((triple_nextPrefillChunk _).of_threw fun _ h => h.1.1.1).bind fun chunk => ?_
    refine ((triple_shorten (hpre.and fun _ _ h => h) _).of_threw fun _ h => h.1.1.1.1).bind
      fun chunk' => ?_
    -- the chunk is handed to the scheduler, which no row may wait for
    refine Triple.modify_bind (M := fun s => Suspends id (some (.prefilling offset stop chunk')) s)
      (fun s hs => ?_) (Triple.pure fun _ h => h)
    obtain ⟨⟨⟨⟨hhead, hwork⟩, hr⟩, hchunk⟩, hoffset⟩ := hs
    obtain ⟨hdecode, hreplay, hdone⟩ := hhead.2 work r hwork hr
    have hidle : work.active ≠ true := fun hactive => absurd (hdone hactive) (by omega)
    refine ⟨hhead.1.setWork (fun _ => rfl) (fun _ => rfl) fun work' hwork' hactive => ?_, ?_⟩
    · cases hwork.symm.trans hwork'
      exact (hidle hactive).elim
    · rintro q ⟨⟩ work' r' hwork' hr'
      simp only [Batch.lookup_setWork, if_true, hwork, Option.map_some, Option.some.injEq] at hwork'
      subst hwork'
      cases hr.symm.trans hr'
      refine ⟨hdecode, hreplay, fun c hc => ?_, fun hactive => (hidle hactive).elim⟩
      cases hc
      exact ⟨hoffset.trans hchunk, rfl⟩
  · exact (continues_enterDecode drafts).weaken (fun _ h => h.1.1.1) (fun _ _ h => h) fun _ h => h

theorem continues_awaitPrefill (offset stop : Nat) (chunk : PrefillChunk) :
    Triple (Suspends id (some (.prefilling offset stop chunk))) (awaitPrefill id offset stop chunk)
      (Suspends id) fun s => s.Running id := by
  have hpre : Unscripted (Suspends id (some (.prefilling offset stop chunk))) :=
    Batch.Running.unscripted.and fun _ _ h => h
  refine ((maintains_stopped hpre).of_threw fun _ h => h.1).bind fun halted => ?_
  split
  · exact continues_over.weaken (fun _ h => h.1) (fun _ _ h => h) fun _ h => h
  refine (triple_workAt.of_threw fun _ h => h.1).bind fun work => ?_
  split
  · exact Triple.pure fun _ h => h.1
  refine (triple_sample.of_threw fun _ h => h.1.1).bind fun _ => ?_
  refine Triple.pure fun s hs => ⟨hs.1.1.1, ?_⟩
  rintro q ⟨⟩ work' r hwork' hr
  obtain ⟨⟨⟨-, hphase⟩, hwork⟩, work'', hwork'', hresult⟩ := hs
  cases hwork.symm.trans hwork'
  cases hwork.symm.trans hwork''
  obtain ⟨hdecode, hreplay, hchunk, hdone⟩ := hphase _ rfl work r hwork hr
  refine ⟨hdecode, hreplay, ?_, fun hactive => ?_⟩
  · cases hprefill : work.prefill with
    | none => rfl
    | some c => exact (hresult (hchunk c hprefill).2).elim
  · obtain ⟨c, hc, hsize⟩ := hdone hactive
    rw [hc, Option.getD_some]
    exact hsize

theorem continues_resumeSequence (drafts : List Draft) (q : Sequence) :
    Triple (Suspends id (some q)) (resumeSequence ops id drafts q) (Suspends id)
      fun s => s.Running id := by
  cases q with
  | prefilling offset stop chunk => exact continues_awaitPrefill offset stop chunk
  | progress offset stop =>
    refine (continues_prefillLoop drafts offset stop).weaken (fun s h => ⟨h.1, ?_⟩)
      (fun _ _ h => h) fun _ h => h
    intro work r hwork hr
    obtain ⟨hdecode, hreplay, -, hdone⟩ := h.2 _ rfl work r hwork hr
    exact ⟨hdecode, hreplay, hdone⟩
  | delta => exact continues_awaitToken.weaken (fun _ h => h.1) (fun _ _ h => h) fun _ h => h
  | decodeWait => exact continues_awaitToken.weaken (fun _ h => h.1) (fun _ _ h => h) fun _ h => h
  | drafting =>
    exact (continues_draft drafts).weaken (fun _ h => h.1) (fun _ _ h => h) fun _ h => h

/-! ### Actions -/

theorem triple_settle {body : Run I (Option Sequence)}
    (h : Triple P body (Suspends id) fun s => s.Running id) :
    Triple P (settle id body) (fun _ s => s.Kept) fun s => s.Kept := by
  have hrelease : Triple (fun s : Batch I => s.Running id) (release id) (fun _ s => s.Kept)
      fun _ => False :=
    triple_release.weaken (fun _ h => ⟨h.kept, h.awake⟩) (fun _ _ h => h) fun _ h => h
  refine Triple.tryCatch (M := fun s => s.Running id) ?_ fun _ =>
    hrelease.of_threw fun _ h => h.elim
  refine h.bind fun next => ?_
  split
  · exact hrelease.weaken (fun _ h => h.1) (fun _ _ h => h) fun _ h => h.elim
  next q =>
  refine Triple.modify fun s hs => ?_
  obtain ⟨hrunning, hphase⟩ := hs
  refine ⟨hrunning.kept.consistent, ⟨hrunning.kept.recorded.views,
    hrunning.kept.recorded.decodes, hrunning.kept.recorded.retractions⟩, fun j q' hq' => ?_⟩
  rcases Table.lookup_insert_cases hq' with ⟨rfl, rfl⟩ | ⟨-, hq'⟩
  · obtain ⟨work, hwork⟩ := hrunning.registered
    obtain ⟨r, hr, -⟩ := hrunning.kept.consistent.named hwork
    exact ⟨work, r, hwork, hr, hphase q' rfl work r hwork hr⟩
  · exact hrunning.kept.phases hq'

theorem Batch.Kept.resumed {q : Sequence} (h : s.Kept) (hq : s.sequences.lookup id = some q) :
    Suspends id (some q) { s with sequences := s.sequences.erase id } := by
  obtain ⟨work, r, hwork, hr, hphase⟩ := h.phases hq
  refine ⟨⟨⟨h.consistent, ⟨h.recorded.views, h.recorded.decodes, h.recorded.retractions⟩,
    fun j q' hq' => h.phases (Table.lookup_of_erase hq')⟩, ?_, work, hwork⟩, ?_⟩
  · exact AList.lookup_erase _ _
  · rintro q' ⟨⟩ work' r' hwork' hr'
    cases hwork.symm.trans hwork'
    cases hr.symm.trans hr'
    exact hphase

theorem maintains_resume (drafts : List Draft) :
    Maintains (fun s => s.Kept) (resume ops id drafts) := by
  refine Triple.get_bind fun s hs => ?_
  split
  · exact Triple.blocked
  next q hq =>
  exact Triple.modify_bind (fun t ht => ht ▸ hs.resumed hq)
    (triple_settle (continues_resumeSequence drafts q))

theorem maintains_destroy : Maintains (fun s => s.Kept) (destroy id) := by
  refine Triple.get_bind fun s hs => ?_
  split
  · exact Triple.blocked
  next q hq =>
  refine Triple.modify_bind (M := fun t => t.Kept ∧ t.Awake id) (fun t ht => ?_)
    (triple_release.of_threw fun _ h => h.elim)
  have hrunning := (hs.resumed hq).1
  exact ht ▸ ⟨hrunning.kept, hrunning.awake⟩

theorem Batch.Kept.created {promptSize : Nat} (h : s.Kept) (hheap : s.heap.lookup p = none)
    (hnew : s.requests.lookup id = none) :
    Batch.Running id { s with
      heap := s.heap.insert p { id, promptSize }
      requests := s.requests.insert id { request := p } } := by
  have hawake : s.sequences.lookup id = none := by
    cases hq : s.sequences.lookup id with
    | none => rfl
    | some q =>
      obtain ⟨work, -, hwork, -⟩ := h.phases hq
      rw [hnew] at hwork
      cases hwork
  refine ⟨⟨h.consistent.insert hheap rfl rfl rfl hnew, ⟨h.recorded.views, h.recorded.decodes,
    h.recorded.retractions⟩, fun j q hq => ?_⟩, hawake, { request := p }, AList.lookup_insert _⟩
  obtain ⟨work, r, hwork, hr, hphase⟩ := h.phases hq
  have hj : j ≠ id := by
    rintro rfl
    rw [hnew] at hwork
    cases hwork
  have hrow : work.request ≠ p := by
    intro heq
    rw [heq, hheap] at hr
    cases hr
  refine ⟨work, r, ?_, ?_, hphase⟩
  · rw [Table.lookup_insert_ite, if_neg hj]
    exact hwork
  · rw [Table.lookup_insert_ite, if_neg hrow]
    exact hr

theorem maintains_generate (promptSize : Nat) (drafts : List Draft) :
    Maintains (fun s => s.Kept) (generate ops id p promptSize drafts) := by
  refine (maintains_stopped Batch.Kept.unscripted).bind fun halted => ?_
  split
  · exact maintains_pure
  refine Triple.get_bind fun s hs => ?_
  split
  · exact Triple.blocked
  next hheap =>
  split
  · exact Triple.throw fun t ht => ht ▸ hs
  next hnew =>
  have hfresh : Unscripted fun t : Batch I => t.Running id ∧
      t.requests.lookup id = some { request := p } ∧
      ∃ n, t.heap.lookup p = some { id, promptSize, prefillOffset := n } :=
    Batch.Running.unscripted.and fun _ _ h => h
  refine Triple.modify_bind (M := fun t => t.Running id ∧
    t.requests.lookup id = some { request := p } ∧
    ∃ n, t.heap.lookup p = some { id, promptSize, prefillOffset := n }) (fun t ht => ?_) ?_
  · subst ht
    refine ⟨hs.created (by simpa using hheap) (by simpa using hnew), AList.lookup_insert _, 0,
      AList.lookup_insert _⟩
  refine triple_settle ?_
  refine ((maintains_askOr hfresh _ _).of_threw fun _ h => h.1).bind fun reused => ?_
  refine Triple.modify_bind (M := fun t => t.Running id ∧
    t.requests.lookup id = some { request := p } ∧
    ∃ n, t.heap.lookup p = some { id, promptSize, prefillOffset := n }) (fun t ht => ?_) ?_
  · obtain ⟨hrunning, hwork, n, hr⟩ := ht
    refine ⟨hrunning.setRequest hwork fun _ => rfl, hwork, reused, ?_⟩
    rw [Batch.lookup_setRequest, if_pos rfl, hr, Option.map_some]
  refine ((maintains_askOr hfresh _ _).of_threw fun _ h => h.1).bind fun stop => ?_
  refine (continues_prefillLoop drafts reused stop).weaken (fun t ht => ⟨ht.1, ?_⟩)
    (fun _ _ h => h) fun _ h => h
  obtain ⟨-, hwork, n, hr⟩ := ht
  intro work r hwork' hr'
  cases hwork.symm.trans hwork'
  cases hr.symm.trans hr'
  exact ⟨rfl, rfl, fun hactive => Bool.noConfusion hactive⟩

theorem maintains_call (a : Action I) : Maintains (fun s => s.Kept) (a.call ops) := by
  cases a with
  | generate id p promptSize drafts => exact maintains_generate promptSize drafts
  | resume id drafts => exact maintains_resume drafts
  | destroy id => exact maintains_destroy
  | step eligible => exact maintains_step eligible

theorem Batch.Kept.act {a : Action I × List Reply} (h : s.Kept) (hs : s.act ops a = some s') :
    s'.Kept := by
  obtain ⟨⟨result, t⟩, hcall, rfl⟩ := Option.map_eq_some_iff.mp hs
  have hend := maintains_call a.1 _ _ _ hcall (Batch.Kept.unscripted s a.2 h)
  cases result with
  | error e => exact hend
  | ok u => exact hend

theorem Batch.Kept.init : ({} : Batch I).Kept := by
  have hnone : ∀ {id : I} {work : Work}, (∅ : Table I Work).lookup id ≠ some work := by simp
  refine ⟨⟨?_, by simp [Batch.view], List.nodup_nil, ?_, ?_⟩, ⟨by simp, by simp, by simp⟩, ?_⟩
  · exact fun id work hwork => (hnone hwork).elim
  · exact fun id work hwork => (hnone hwork).elim
  · exact fun id work hwork => (hnone hwork).elim
  · intro id q hq
    simp at hq

theorem Batch.Kept.run {as : List (Action I × List Reply)} (h : s.Kept)
    (hs : Lib.run (Batch.act ops) s as = some s') : s'.Kept :=
  run_invariant (fun _ _ _ hm _ hact => hm.act hact) h (Meets.of_forall fun _ _ => trivial) hs

/-- In every run, and at each retraction and recovery in it, a request is active exactly when it is
    one row, rows are registered, and no row waits for a prefill; a retraction leaves a row, and an
    eligible one if it took one; a decode has an eligible row. -/
theorem batch_bookkeeping {as : List (Action I × List Reply)}
    (h : Lib.run (Batch.act ops) {} as = some s) :
    (∀ v ∈ s.view :: s.views, (∀ id work, v.requests.lookup id = some work →
        (work.active = true ↔ v.active.count work.request = 1)) ∧
      (∀ p ∈ v.active, ∃ r work, v.heap.lookup p = some r ∧
        v.requests.lookup r.id = some work ∧ work.request = p) ∧
      ∀ id work, v.requests.lookup id = some work → ¬(work.active = true ∧ work.prefill ≠ none)) ∧
      (∀ x ∈ s.retractions, x.rows ≠ [] ∧ (x.eligible = true → x.eligibleRows ≠ [])) ∧
      ∀ rows ∈ s.decodes, rows ≠ [] := by
  have hkept := Batch.Kept.init.run h
  refine ⟨fun v hv => ?_, hkept.recorded.retractions, hkept.recorded.decodes⟩
  have hv : v.Consistent := by
    rcases List.mem_cons.mp hv with rfl | hv
    · exact hkept.consistent
    · exact hkept.recorded.views v hv
  refine ⟨fun id work hwork => hv.count hwork, fun p hp => ?_, ?_⟩
  · obtain ⟨r, work, hr, hwork, hrequest, -⟩ := hv.rows p hp
    exact ⟨r, work, hr, hwork, hrequest⟩
  · rintro id work hwork ⟨hactive, hprefill⟩
    exact hprefill (hv.exclusive hwork hactive)

/-- Two requests are prefilled; their decode finds no room for both. -/
def crowdedOps : Ops where
  prefillChunkSize := 4
  prefillTokenBudget := 4
  retract := true
  decodeHasCapacity := true

def crowdedRun : List (Action Nat × List Reply) :=
  [(.generate 0 10 3 [], [.returned 0, .returned 0]),
    (.generate 1 11 2 [], [.returned 0, .returned 0]),
    (.step [0, 1], [.returned 0, .returned 77, .returned 0, .returned 0]),
    (.step [0, 1], [.returned 0, .returned 78, .returned 0, .returned 0]),
    (.resume 0 [], [.returned 0]),
    (.resume 1 [], [.returned 0]),
    (.resume 0 [], [.returned 0, .returned 0, .returned 0, .returned 0]),
    (.resume 1 [], [.returned 0, .returned 0, .returned 0, .returned 0]),
    (.step [0, 1], [.returned 0, .returned 0, .returned 1, .returned 5, .returned 6])]

theorem batch_bookkeeping_crowded : ∃ s, Lib.run (Batch.act crowdedOps) {} crowdedRun = some s ∧
    s.active = [11] ∧ s.retractions ≠ [] ∧
    (∀ x ∈ s.retractions, x.rows ≠ [] ∧ (x.eligible = true → x.eligibleRows ≠ [])) ∧
    ∀ rows ∈ s.decodes, rows ≠ [] := by
  have hend : (Lib.run (Batch.act crowdedOps) {} crowdedRun).map
      (fun s => (s.active, s.retractions)) = some ([11], [⟨10, true, [11], [11]⟩]) := by
    decide +kernel
  obtain ⟨s, hs, heq⟩ := Option.map_eq_some_iff.mp hend
  obtain ⟨hactive, hretractions⟩ := Prod.mk.inj heq
  exact ⟨s, hs, hactive, by simp [hretractions], (batch_bookkeeping hs).2⟩

end TyloQuant.ContinuousBatch
