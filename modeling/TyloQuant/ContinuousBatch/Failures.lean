import TyloQuant.ContinuousBatch.Prefills

/-!
# Failures, releases, and the whole step

`recover` makes the batch consistent from whatever a part left, the handlers that isolate a failure
take single rows out, and `release` forgets a request.  With them `step` keeps the batch consistent
through each of its exits.
-/

namespace TyloQuant.ContinuousBatch

open Lib
open Lib.Call (Triple)

variable {I : Type} [DecidableEq I] {P : Batch I → Prop} {s s' : Batch I} {id : I} {p : Nat}
  {work : Work} {r : BatchRequest I} {ops : Ops} {error : Failure}

/-! ### Recovery -/

/-- All rows are gone. -/
def Batch.Cleared (s : Batch I) : Prop := s.Kept ∧ s.active = []

/-- The coroutine of `id` runs or is over: it is suspended nowhere. -/
def Batch.Awake (id : I) (s : Batch I) : Prop := s.sequences.lookup id = none

theorem triple_recover : Triple (fun s : Batch I => s.Weak) (recover error)
    (fun _ s => s.Cleared) fun s => s.Cleared := by
  refine Triple.modify_bind (M := fun s => s.Cleared) (fun s h => ⟨h.recovered error, rfl⟩) ?_
  refine Triple.modify_bind (M := fun s => s.Cleared) (fun s h => ⟨h.1.seen, h.2⟩) ?_
  have hscript : Unscripted fun s : Batch I => s.Cleared := Batch.Kept.unscripted.and fun _ _ h => h
  exact (maintains_ask hscript).bind fun _ => maintains_pure

theorem maintains_recover_awake : Maintains (fun s => s.Awake id) (recover error) := by
  refine Triple.modify_bind (M := fun s => s.Awake id) (fun s h => h) ?_
  refine Triple.modify_bind (M := fun s => s.Awake id) (fun s h => h) ?_
  exact (maintains_ask fun _ _ h => h).bind fun _ => maintains_pure

theorem triple_recoverThrow : Triple (fun s : Batch I => s.Weak) (recoverThrow error)
    (fun _ s => s.Kept) fun s => s.Kept := by
  refine (triple_recover.of_threw fun _ h => h.1).bind fun _ => ?_
  exact Triple.throw fun _ h => h.1

theorem maintains_recoverThrow : Maintains (fun s : Batch I => s.Kept) (recoverThrow error) :=
  triple_recoverThrow.weaken (fun _ h => h.weak) (fun _ _ h => h) fun _ h => h

/-! ### The handlers -/

theorem Batch.Kept.discarded (h : s.Kept) (error : Failure) :
    (s.setWork id fun work => { work with
      failure := some error, prefill := none, decode := false }).Kept :=
  h.setWork fun _ hwork => Work.Fits.cleared rfl rfl (h.consistent.exclusive hwork)
    (fun h => Bool.noConfusion h) (Or.inl rfl) rfl

theorem maintains_discardRow : Maintains (fun s => s.Kept) (discardRow error id) :=
  Triple.modify_bind (fun _ h => h.discarded error) (maintains_askIf Batch.Kept.unscripted _)

omit [DecidableEq I] in
theorem Phase.over {work work' : Work} {q : Sequence} (h : Phase work r q)
    (hdecode : work'.decode = false) (hprefill : work'.prefill = none)
    (hidle : work'.active = false) : Phase work' r q := by
  cases q with
  | prefilling offset stop c => exact ⟨hdecode, h.2.1, by simp [hprefill], by simp [hidle]⟩
  | progress offset stop => exact ⟨hdecode, h.2.1, hprefill, by simp [hidle]⟩
  | delta => trivial
  | decodeWait => trivial
  | drafting => trivial

theorem maintains_discardActiveRow : Maintains (fun s => s.Kept) (discardActiveRow error id) := by
  refine (triple_workAt.of_threw fun _ h => h).bind fun work => ?_
  refine Triple.modify_bind (M := fun s => s.Kept) (fun s hs => ?_)
    (maintains_askIf Batch.Kept.unscripted _)
  exact hs.1.drop hs.2 (fun _ => rfl) rfl fun r q _ _ hphase => hphase.over rfl rfl rfl

/-- A row is out, but its flag stands until the backend has retired it. -/
def Batch.Shed (id : I) (s : Batch I) : Prop :=
  s.Weak ∧ (s.setWork id fun work => { work with active := false }).Kept

theorem Batch.Shed.unscripted : Unscripted (fun s : Batch I => s.Shed id) :=
  Batch.Weak.unscripted.and fun _ script h => Batch.Kept.unscripted _ script h

theorem Batch.Kept.shed (h : s.Kept) (hp : p ∈ s.active) (hr : s.heap.lookup p = some r)
    (error : Failure) :
    ({ s with active := s.active.filter fun q => q ≠ p }.setWork r.id fun work =>
      { work with failure := some error, decode := false }).Shed r.id := by
  obtain ⟨r', work, hr', hwork, rfl, hactive⟩ := h.consistent.rows p hp
  cases hr.symm.trans hr'
  have hprefill := h.consistent.exclusive hwork hactive
  constructor
  · have hout : ({ s with active := s.active.filter fun q => q ≠ work.request } : Batch I).Weak :=
      ⟨h.weak.named, ⟨h.recorded.views, h.recorded.decodes, h.recorded.retractions⟩, h.phases⟩
    refine hout.setWork (fun _ => rfl) fun _ r q hphase => ?_
    cases q with
    | prefilling offset stop c => exact ⟨rfl, hphase.2.1, hphase.2.2.1, hphase.2.2.2⟩
    | progress offset stop => exact ⟨rfl, hphase.2.1, hphase.2.2.1, hphase.2.2.2⟩
    | delta => trivial
    | decodeWait => trivial
    | drafting => trivial
  · rw [Batch.setWork_setWork]
    exact h.drop hwork (fun _ => rfl) rfl fun r q _ _ hphase => hphase.over rfl hprefill rfl

theorem maintains_shedRow {otherwise : Run I PUnit}
    (ho : Maintains (fun s => s.Kept) otherwise) :
    Maintains (fun s => s.Kept) (shedRow ops error otherwise) := by
  have hretract : Maintains (fun s : Batch I => s.Kept) (retractOne ops) :=
    (maintains_retractOne (b := False)).weaken (fun _ h => ⟨h, fun hb => hb.elim⟩)
      (fun _ _ h => h.1) fun _ h => h.1
  refine hretract.bind fun retracted => ?_
  split
  · exact maintains_pure
  refine Triple.get_bind fun s hs => ?_
  split
  · exact ho.of_state hs
  next p hp =>
  have hrow : p ∈ s.active := List.mem_reverse.mp (List.mem_of_find?_eq_some hp)
  have hfound : Triple (fun t => t = s) (requestAt p)
      (fun r t => t.Kept ∧ p ∈ t.active ∧ t.heap.lookup p = some r) fun t => t.Kept :=
    triple_requestAt.weaken (fun _ h => h) (fun r t h => ⟨h.1 ▸ hs, h.1 ▸ hrow, h.2⟩)
      fun t h => h ▸ hs
  refine hfound.bind fun r => ?_
  refine (triple_workAt.weaken (fun _ h => h) (fun _ _ h => h.1) fun _ h => h.1).bind fun _ => ?_
  refine Triple.tryCatch (M := fun s => s.Weak) ?_ fun e => triple_recoverThrow
  refine Triple.modify_bind (M := fun t => t.Shed r.id)
    (fun t ht => ht.1.shed ht.2.1 ht.2.2 error) ?_
  refine ((maintains_askIf Batch.Shed.unscripted _).of_threw fun _ h => h.1).bind fun _ => ?_
  exact Triple.modify fun t ht => ht.2

theorem maintains_recoverStep (runDecode : Bool) (prefill : Option I) :
    Maintains (fun s => s.Kept) (recoverStep ops runDecode prefill error) := by
  unfold recoverStep
  split
  · split
    · refine Triple.get_bind fun s hs => ?_
      have hloop : Maintains (fun s : Batch I => s.Kept)
          (forEach (discardActiveRow error) s.prefillWork) :=
        maintains_forEach fun _ _ => maintains_discardActiveRow
      exact (hloop.of_state hs).bind fun _ => maintains_askIf Batch.Kept.unscripted _
    · exact triple_recover.weaken (fun _ h => h.weak) (fun _ _ h => h.1) fun _ h => h.1
  · exact maintains_recoverThrow

theorem maintains_isolatePrefill (runDecode : Bool) (prefill : Option I) :
    Maintains (fun s => s.Kept) (isolatePrefill ops runDecode prefill error) := by
  refine Triple.get_bind fun s hs => ?_
  split
  · refine Triple.tryCatch (M := fun s => s.Kept) ?_ fun e => maintains_recoverThrow
    have hloop : Maintains (fun s : Batch I => s.Kept)
        (forEach (discardRow error) s.prefillWork) :=
      maintains_forEach fun _ _ => maintains_discardRow
    exact (hloop.of_state hs).bind fun _ => maintains_askIf Batch.Kept.unscripted _
  · exact (maintains_recoverStep runDecode prefill).of_state hs

theorem maintains_handle (runDecode : Bool) (prefill : Option I) :
    Maintains (fun s => s.Kept) (handle ops runDecode prefill error) := by
  refine Triple.get_bind fun s hs => ?_
  split
  · exact (maintains_shedRow (maintains_isolatePrefill runDecode prefill)).of_state hs
  · exact (maintains_isolatePrefill runDecode prefill).of_state hs

/-! ### The step -/

theorem triple_operate (eligible : List I) (runDecode : Bool) (prefill : Option I) :
    Triple (fun s => s.Ready (runDecode = true)) (operate ops eligible runDecode prefill)
      (fun _ s => s.Kept) fun s => s.Kept := by
  unfold operate
  split
  · next hdecode =>
    exact triple_decodeRows.weaken (fun s h => ⟨h.1, fun _ => h.2 hdecode⟩) (fun _ _ h => h)
      fun _ h => h
  · split
    · exact Triple.pure fun s h => h.1
    · exact (triple_prefillChunks eligible).weaken (fun s h => h.1) (fun _ _ h => h) fun _ h => h

theorem triple_stepBody (eligible : List I) (runDecode : Bool) (prefill : Option I) :
    Triple (fun s => s.Ready (runDecode = true)) (stepBody ops eligible runDecode prefill)
      (fun _ s => s.Kept) fun s => s.Kept := by
  refine ((maintains_askIf Batch.Ready.unscripted _).of_threw fun _ h => h.1).bind fun _ => ?_
  refine (triple_operate eligible runDecode prefill).bind fun _ => ?_
  exact Triple.modify fun s h => h.of_eq rfl rfl rfl rfl rfl

theorem triple_readyDecode {K : Batch I → Prop} (hP : Unscripted P) (hK : Unscripted K)
    (runDecode : Bool) :
    Triple (fun s => P s ∧ (runDecode = true → K s)) (readyDecode ops runDecode)
      (fun runDecode s => P s ∧ (runDecode = true → K s)) P := by
  have hscript : Unscripted fun s : Batch I => P s ∧ (runDecode = true → K s) :=
    hP.and fun s script h hrun => hK s script (h hrun)
  unfold readyDecode
  split
  · next hrun =>
    refine ((maintains_ask hscript).of_threw fun _ h => h.1).bind fun ready => ?_
    exact Triple.pure fun s h => ⟨h.1, fun _ => h.2 (Bool.and_eq_true _ _ ▸ hrun).2⟩
  · exact Triple.pure fun s h => h

theorem maintains_step (eligible : List I) : Maintains (fun s => s.Kept) (step ops eligible) := by
  refine Triple.modify_bind (M := fun s => s.Kept) (fun s h => h.noted _ _) ?_
  refine Triple.get_bind fun s hs => ?_
  have hmarks : Maintains (fun s : Batch I => s.Kept) (forEach (markEligible eligible) s.active) :=
    maintains_forEach fun p _ => maintains_markEligible eligible p
  refine (hmarks.of_state hs).bind fun _ => ?_
  refine (maintains_findPrefill eligible).bind fun prefill => ?_
  refine Triple.get_bind fun s hs => ?_
  have hready : Triple (fun t => t = s)
      (readyDecode ops ((s.rowsReady eligible && decide (s.eligibleRows ≠ [])) &&
        (prefill.isNone || s.decodeNext)))
      (fun runDecode t => t.Ready (runDecode = true)) fun t => t.Kept := by
    refine (triple_readyDecode (K := fun t => t.eligibleRows ≠ []) Batch.Kept.unscripted
      (fun _ _ h => h) _).of_state ⟨hs, fun hrun => ?_⟩
    have hdecode := (Bool.and_eq_true _ _ ▸ (Bool.and_eq_true _ _ ▸ hrun).1).2
    simpa using hdecode
  refine hready.bind fun runDecode => ?_
  exact (triple_stepBody eligible runDecode prefill).tryCatch fun e =>
    maintains_handle runDecode prefill

/-! ### Releases -/

/-- The request can be forgotten. -/
def Batch.Leaving (id : I) (s : Batch I) : Prop :=
  ({ s with requests := s.requests.erase id } : Batch I).Kept

theorem Batch.Leaving.unscripted : Unscripted (fun s : Batch I => s.Leaving id) :=
  fun _ script h => Batch.Kept.unscripted _ script h

theorem Batch.Cleared.leaving (h : s.Cleared) (hover : s.Awake id) : s.Leaving id := by
  obtain ⟨hkept, hempty⟩ := h
  cases hwork : s.requests.lookup id with
  | none =>
    refine hkept.of_eq ?_ rfl rfl rfl rfl
    have herase : s.requests.erase id = s.requests :=
      Table.erase_of_notMem (AList.lookup_eq_none.mp hwork)
    simp only [Batch.view, herase]
  | some work =>
    refine hkept.forget hwork hover (fun _ _ => Iff.rfl) hkept.consistent.nodup ?_
    rw [hempty]
    exact List.not_mem_nil

theorem triple_withdraw (hs : s.Kept) (hover : s.Awake id)
    (hwork : s.requests.lookup id = some work) :
    Triple (fun t => t = s) (withdraw work) (fun _ t => t.Leaving id)
      fun t => t.Weak ∧ t.Awake id := by
  have hpre : Unscripted fun t : Batch I => t.Leaving id ∧ t.Weak ∧ t.Awake id :=
    Batch.Leaving.unscripted.and (Batch.Weak.unscripted.and fun _ _ h => h)
  have hask : Triple (fun t : Batch I => t.Leaving id ∧ t.Weak ∧ t.Awake id) (askIf true)
      (fun _ t => t.Leaving id ∧ t.Weak ∧ t.Awake id) fun t => t.Weak ∧ t.Awake id :=
    (maintains_askIf hpre _).of_threw fun _ h => h.2
  unfold withdraw
  split
  · next hactive =>
    refine Triple.modify_bind (M := fun t => t.Leaving id ∧ t.Weak ∧ t.Awake id) ?_
      (hask.weaken (fun _ h => h) (fun _ _ h => h.1) fun _ h => h)
    rintro t rfl
    refine ⟨hs.forget hwork hover (fun p hp => mem_dropped hp) (hs.consistent.nodup.filter _)
      not_mem_dropped, ?_, hover⟩
    exact ⟨hs.weak.named, ⟨hs.recorded.views, hs.recorded.decodes, hs.recorded.retractions⟩,
      hs.phases⟩
  next hidle =>
  have hleaving : s.Leaving id ∧ s.Weak ∧ s.Awake id :=
    ⟨hs.forget hwork hover (fun _ _ => Iff.rfl) hs.consistent.nodup
      (hs.idle_notMem hwork (by simpa using hidle)), hs.weak, hover⟩
  split
  · refine ((hask.bind fun _ => hask.bind fun _ => hask).of_state hleaving).weaken
      (fun _ h => h) (fun _ _ h => h.1) fun _ h => h
  · exact Triple.pure fun t ht => ht ▸ hleaving.1

/-- A request is released once its coroutine is over; nothing is thrown then. -/
theorem triple_release : Triple (fun s => s.Kept ∧ s.Awake id) (release id) (fun _ s => s.Kept)
    fun _ => False := by
  refine Triple.get_bind fun s hs => ?_
  split
  · exact Triple.pure fun t ht => ht ▸ hs.1
  next work hwork =>
  refine Triple.bind (Q := fun _ t => t.Leaving id) ?_ fun _ => Triple.modify fun t ht => ht
  refine (triple_withdraw hs.1 hs.2 hwork).tryCatch fun e => ?_
  refine Triple.tryCatch (M := fun t => t.Cleared ∧ t.Awake id) ?_ fun _ =>
    Triple.pure fun _ h => h.1.leaving h.2
  refine (triple_recover.and maintains_recover_awake).weaken (fun _ h => h)
    (fun _ _ h => h.1.leaving h.2) fun _ h => h

end TyloQuant.ContinuousBatch
