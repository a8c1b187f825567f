import TyloQuant.ContinuousBatch.Moves

/-!
# A step keeps the batch consistent

Every part of `step` keeps `Batch.Kept`, however it ends.  The handlers are triples as well: what
they find is what the part that threw has left.  Where a row is taken out before the backend is
asked (`shedRow`, `withdraw`), only `Batch.Weak` holds in between, which `recover` starts from.
-/

namespace TyloQuant.ContinuousBatch

open Lib
open Lib.Call (Triple)

variable {I : Type} [DecidableEq I] {α : Type} {P K : Batch I → Prop} {s s' : Batch I} {id : I}
  {p : Nat} {r : BatchRequest I} {ops : Ops} {error : Failure}

/-! ### Primitives -/

/-- However the call ends, it has kept `P`. -/
abbrev Maintains (P : Batch I → Prop) (x : Run I α) : Prop := Triple P x (fun _ => P) P

/-- The predicate does not read the script. -/
def Unscripted (P : Batch I → Prop) : Prop := ∀ s script, P s → P { s with script }

theorem Batch.Kept.unscripted : Unscripted (fun s : Batch I => s.Kept) :=
  fun _ _ h => h.of_eq rfl rfl rfl rfl rfl

theorem Batch.Kept.framed (h : s.Kept) (frame : Frame) :
    ({ s with frame := frame } : Batch I).Kept :=
  h.of_eq rfl rfl rfl rfl rfl

theorem Batch.Kept.noted (h : s.Kept) (frame : Frame) (prefillWork : List I) :
    ({ s with frame, prefillWork } : Batch I).Kept :=
  h.of_eq rfl rfl rfl rfl rfl

theorem Batch.Weak.unscripted : Unscripted (fun s : Batch I => s.Weak) :=
  fun _ _ h => ⟨h.named, ⟨h.recorded.views, h.recorded.decodes, h.recorded.retractions⟩, h.phases⟩

theorem Unscripted.and (h : Unscripted P) (h' : Unscripted K) : Unscripted fun s => P s ∧ K s :=
  fun s script hs => ⟨h s script hs.1, h' s script hs.2⟩

theorem maintains_ask (hP : Unscripted P) : Maintains P (ask (I := I)) := by
  intro s r s' hx hs
  unfold ask at hx
  split at hx
  · cases hx
  · cases hx
    exact hP s _ hs
  · cases hx
    exact hP s _ hs

theorem maintains_askRow (hP : Unscripted P) : Maintains P (askRow (I := I)) := by
  intro s r s' hx hs
  unfold askRow at hx
  split at hx
  · cases hx
  · cases hx
    exact hP s _ hs
  · cases hx
    exact hP s _ hs

theorem maintains_pure {a : α} : Maintains P (pure a : Run I α) := Triple.pure fun _ h => h

theorem maintains_askIf (hP : Unscripted P) (present : Bool) :
    Maintains P (askIf (I := I) present) := by
  unfold askIf
  split
  · exact (maintains_ask hP).bind fun _ => maintains_pure
  · exact maintains_pure

theorem maintains_askOr (hP : Unscripted P) (present : Bool) (default : Nat) :
    Maintains P (askOr (I := I) present default) := by
  unfold askOr
  split
  · exact maintains_ask hP
  · exact maintains_pure

theorem triple_workAt : Triple P (workAt id) (fun work s => P s ∧ s.requests.lookup id = some work)
    P := by
  refine Triple.get_bind fun s hs => ?_
  split
  · exact Triple.throw fun t ht => ht ▸ hs
  · next work hwork =>
    exact Triple.pure fun t ht => ⟨ht ▸ hs, ht ▸ hwork⟩

theorem triple_requestAt : Triple P (requestAt p) (fun r s => P s ∧ s.heap.lookup p = some r)
    P := by
  refine Triple.get_bind fun s hs => ?_
  split
  · exact Triple.blocked
  · next r hr =>
    exact Triple.pure fun t ht => ⟨ht ▸ hs, ht ▸ hr⟩

theorem maintains_forEach {f : α → Run I PUnit} {xs : List α}
    (h : ∀ x ∈ xs, Maintains P (f x)) : Maintains P (forEach f xs) := by
  induction xs with
  | nil => exact maintains_pure
  | cons x xs ih =>
    exact (h x List.mem_cons_self).bind fun _ => ih fun y hy => h y (List.mem_cons_of_mem _ hy)

/-! ### Admission -/

theorem maintains_reserveAll (hP : Unscripted P) (rows : List Nat) :
    Maintains P (reserveAll (I := I) rows) := by
  induction rows with
  | nil => exact maintains_pure
  | cons row rows ih =>
    refine (maintains_ask hP).bind fun fits => ?_
    split
    · exact maintains_pure
    · exact ih

def Work.refused (work : Work) : Work :=
  { work with failure := some (.inputError true), prefill := none }

/-- A request that is admitted keeps its flags; one that never fits fails. -/
theorem triple_canAdmit (hP : Unscripted P) (hK : Unscripted K)
    (hrefused : ∀ s, P s → P (s.setWork id Work.refused)) :
    Triple (fun s => P s ∧ K s) (canAdmit ops id)
      (fun admitted s => P s ∧ (admitted = true → K s)) P := by
  have hboth := hP.and hK
  have hno : Triple (fun s => P s ∧ K s) (pure false : Run I Bool)
      (fun admitted s => P s ∧ (admitted = true → K s)) P :=
    Triple.pure fun s hs => ⟨hs.1, fun h => Bool.noConfusion h⟩
  have hyes : Triple (fun s => P s ∧ K s) (pure true : Run I Bool)
      (fun admitted s => P s ∧ (admitted = true → K s)) P :=
    Triple.pure fun s hs => ⟨hs.1, fun _ => hs.2⟩
  have hthrew : ∀ s, P s ∧ K s → P s := fun s hs => hs.1
  have hask : Triple (fun s => P s ∧ K s) ask (fun _ s => P s ∧ K s) P :=
    (maintains_ask hboth).of_threw hthrew
  have haskIf : ∀ present, Triple (fun s => P s ∧ K s) (askIf present)
      (fun _ s => P s ∧ K s) P :=
    fun present => (maintains_askIf hboth present).of_threw hthrew
  unfold canAdmit
  split
  · exact hyes
  refine Triple.bind (Q := fun _ s => P s ∧ K s)
    (triple_workAt.weaken (fun _ h => h) (fun _ _ h => h.1) hthrew) fun candidate => ?_
  split
  · exact hyes
  split
  · exact hno
  refine Triple.get_bind fun s hs => Triple.bind (Q := fun _ s => P s ∧ K s)
    (((maintains_reserveAll hboth _).of_state hs).of_threw hthrew) ?_
  intro reserved
  split
  · exact hno
  refine hask.bind fun fits => ?_
  split
  · exact hyes
  split
  · exact hno
  refine hask.bind fun solitary => ?_
  split
  · exact hyes
  refine Triple.get_bind fun s hs => ?_
  refine Triple.bind (Q := fun _ s => P s ∧ K s)
    ((haskIf _).of_state hs) fun _ => ?_
  refine (haskIf _).bind fun _ => hask.bind fun reclaimed => ?_
  split
  · exact hyes
  exact Triple.modify_bind (M := P) (fun s hs => hrefused s hs.1)
    (Triple.pure fun s hs => ⟨hs, fun h => Bool.noConfusion h⟩)

theorem Batch.Kept.refused (h : s.Kept) : (s.setWork id Work.refused).Kept :=
  h.setWork fun _ hwork => Work.Fits.cleared rfl rfl (h.consistent.exclusive hwork) (fun h => h)
    (Or.inl rfl) rfl

theorem maintains_canAdmit : Maintains (fun s => s.Kept) (canAdmit ops id) :=
  (triple_canAdmit (K := fun _ => True) Batch.Kept.unscripted (fun _ _ _ => trivial)
    fun _ hs => hs.refused).weaken (fun _ h => ⟨h, trivial⟩) (fun _ _ h => h.1) fun _ h => h

theorem maintains_findPrefill (eligible : List I) :
    Maintains (fun s => s.Kept) (findPrefill ops eligible) := by
  induction eligible with
  | nil => exact maintains_pure
  | cons id rest ih =>
    refine Triple.get_bind fun s hs => ?_
    split
    · exact ih.of_state hs
    · refine Triple.bind (Q := fun _ s => s.Kept)
        (maintains_canAdmit.of_state hs) fun admitted => ?_
      split
      · exact maintains_pure
      · exact ih

theorem maintains_markEligible (eligible : List I) (p : Nat) :
    Maintains (fun s => s.Kept) (markEligible eligible p) := by
  refine Triple.bind triple_requestAt fun r => ?_
  refine Triple.bind (Q := fun _ s => s.Kept)
    (triple_workAt.weaken (fun _ h => h.1) (fun _ _ h => h.1) fun _ h => h) fun work => ?_
  refine Triple.modify fun s hs => hs.setRequest (fun _ => rfl) ?_
  intro id work r q _ _ _ _ hphase
  cases q <;> exact hphase

/-! ### Retraction and decode -/

/-- An eligible row, where there was one (`b`). -/
def Batch.Ready (b : Prop) (s : Batch I) : Prop := s.Kept ∧ (b → s.eligibleRows ≠ [])

variable {b : Prop}

theorem Batch.Ready.unscripted : Unscripted (fun s : Batch I => s.Ready b) :=
  fun _ _ h => ⟨h.1.of_eq rfl rfl rfl rfl rfl, h.2⟩

theorem Batch.Ready.retracted (h : s.Ready b) (hr : s.Retractable p r) :
    (s.retracted ops p r).Ready b := by
  refine ⟨h.1.retracted ops hr, fun hb => ?_⟩
  rw [Batch.eligibleRows_retracted ops hr.request]
  exact hr.eligible_left h.1 (h.2 hb)

theorem maintains_retractLoop (order : List Nat) :
    Triple (fun s => s.Ready b ∧ 1 < s.active.length ∧ ∀ p ∈ order, p ∈ s.active)
      (retractLoop (I := I) ops order) (fun _ s => s.Ready b) fun s => s.Ready b := by
  induction order with
  | nil => exact Triple.pure fun s hs => hs.1
  | cons p order ih =>
    refine (triple_requestAt.weaken (fun _ h => h) (fun _ _ h => h) fun _ h => h.1).bind
      fun r => ?_
    refine (triple_workAt.weaken (fun _ h => h) (fun _ _ h => h) fun _ h => h.1.1).bind
      fun work => ?_
    have hskip : Triple (fun s => ((s.Ready b ∧ 1 < s.active.length ∧
          ∀ q ∈ p :: order, q ∈ s.active) ∧ s.heap.lookup p = some r) ∧
          s.requests.lookup r.id = some work)
        (retractLoop ops order) (fun _ s => s.Ready b) fun s => s.Ready b :=
      ih.weaken (fun s hs => ⟨hs.1.1.1, hs.1.1.2.1, fun q hq =>
        hs.1.1.2.2 q (List.mem_cons_of_mem p hq)⟩) (fun _ _ h => h) fun _ h => h
    split
    · exact hskip
    next hdecode =>
    refine Triple.get_bind fun s hs => ?_
    obtain ⟨⟨⟨hready, hlength, hrows⟩, hr⟩, hwork⟩ := hs
    split
    · exact hskip.of_state ⟨⟨⟨hready, hlength, hrows⟩, hr⟩, hwork⟩
    next hmany =>
    have hretractable : s.Retractable p r := by
      refine ⟨hrows p List.mem_cons_self, hr, ?_, hlength, ?_⟩
      · intro work' hwork'
        cases hwork.symm.trans hwork'
        simpa using hdecode
      · intro heligible
        simpa [heligible] using hmany
    have hpre : Unscripted fun t : Batch I => t.Ready b ∧ t.Retractable p r :=
      Batch.Ready.unscripted.and fun t script ht =>
        ⟨ht.row, ht.request, ht.decode, ht.others, ht.eligible⟩
    refine (((maintains_ask hpre).of_state ⟨hready, hretractable⟩).of_threw
      fun _ h => h.1).bind fun _ => ?_
    exact Triple.modify_bind (fun t ht => ht.1.retracted ht.2) maintains_pure

theorem maintains_retractOne : Maintains (fun s => s.Ready b) (retractOne (I := I) ops) := by
  unfold retractOne
  split
  · exact maintains_pure
  refine Triple.get_bind fun s hs => ?_
  split
  · exact Triple.pure fun t ht => ht ▸ hs
  next hlength =>
  refine (maintains_retractLoop _).of_state ⟨hs, ?_, ?_⟩
  · omega
  · exact fun p hp => (List.mem_insertionSort _).mp hp

theorem maintains_makeCapacity (turns : Nat) :
    Maintains (fun s => s.Ready b) (makeCapacity (I := I) ops turns) := by
  induction turns with
  | zero => exact maintains_pure
  | succ turns ih =>
    refine (maintains_ask Batch.Ready.unscripted).bind fun capacity => ?_
    split
    · exact maintains_pure
    refine maintains_retractOne.bind fun retracted => ?_
    split
    · exact ih
    · exact maintains_pure

theorem maintains_ensureCapacity :
    Maintains (fun s => s.Ready b) (ensureCapacity (I := I) ops) := by
  unfold ensureCapacity
  split
  · exact Triple.get_bind fun s hs => (maintains_makeCapacity _).of_state hs
  · exact maintains_pure

/-- A row has no prefill, so that a sample may be stored for it. -/
theorem Batch.Kept.sampled (h : s.Kept) (hp : p ∈ s.active) (hr : s.heap.lookup p = some r)
    (token : Nat) : (s.setWork r.id fun work => { work with result := some token }).Kept := by
  obtain ⟨r', work, hr', hwork, -, hactive⟩ := h.consistent.rows p hp
  cases hr.symm.trans hr'
  have hexclusive := h.consistent.exclusive hwork
  refine h.setWork fun work' hwork' => ?_
  cases hwork.symm.trans hwork'
  exact Work.Fits.cleared rfl rfl hexclusive (fun h => h) (Or.inl (hexclusive hactive)) rfl

theorem Batch.Kept.unscheduled (h : s.Kept) :
    (s.setWork id fun work => { work with decode := false }).Kept :=
  h.setWork fun _ hwork => Work.Fits.cleared rfl rfl (h.consistent.exclusive hwork)
    (fun h => Bool.noConfusion h) (Or.inr ⟨rfl, rfl⟩) rfl

theorem Batch.Kept.cached (h : s.Kept) (f : Nat → Nat) :
    (s.setRequest p fun r => { r with cacheLength := f r.cacheLength }).Kept :=
  h.setRequest (fun _ => rfl) fun _ _ _ q _ _ _ _ hphase => by cases q <;> exact hphase

theorem maintains_sampleRow {rows : List Nat} (hp : p ∈ rows) :
    Maintains (fun s => s.Kept ∧ s.active = rows) (sampleRow (I := I) ops p) := by
  have hscript : Unscripted fun s : Batch I => s.Kept ∧ s.active = rows :=
    Batch.Kept.unscripted.and fun _ _ h => h
  refine (triple_requestAt.weaken (fun _ h => h) (fun _ _ h => h) fun _ h => h).bind fun r => ?_
  split
  · refine (triple_workAt.weaken (fun _ h => h) (fun _ _ h => h.1) fun _ h => h.1).bind
      fun _ => ?_
    have hrow : Unscripted fun s : Batch I =>
        (s.Kept ∧ s.active = rows) ∧ s.heap.lookup p = some r := hscript.and fun _ _ h => h
    refine ((maintains_ask hrow).weaken (fun _ h => h) (fun _ _ h => h) fun _ h => h.1).bind
      fun token => ?_
    refine Triple.modify_bind (M := fun s => s.Kept ∧ s.active = rows)
      (fun s hs => ⟨hs.1.1.sampled (hs.1.2 ▸ hp) hs.2 token, hs.1.2⟩) ?_
    refine Triple.bind (Q := fun _ s => s.Kept ∧ s.active = rows) ?_ fun _ =>
      Triple.modify fun s hs => ⟨hs.1.unscheduled, hs.2⟩
    unfold advanceCache
    split
    · exact (maintains_ask hscript).bind fun length =>
        Triple.modify fun s hs => ⟨hs.1.cached fun _ => length, hs.2⟩
    · exact Triple.modify fun s hs => ⟨hs.1.cached fun n => n + 1, hs.2⟩
  · exact Triple.pure fun s hs => hs.1

theorem triple_decodeRows : Triple (fun s => s.Ready True) (decodeRows (I := I) ops)
    (fun _ s => s.Kept) fun s => s.Kept := by
  refine (maintains_ensureCapacity.weaken (fun _ h => h) (fun _ _ h => h) fun _ h => h.1).bind
    fun _ => ?_
  refine Triple.modify_bind (M := fun s => s.Kept) (fun s hs => ?_) ?_
  · refine ⟨hs.1.consistent, ⟨hs.1.recorded.views, ?_, hs.1.recorded.retractions⟩, hs.1.phases⟩
    intro rows hrows
    rcases List.mem_cons.mp hrows with rfl | hrows
    · exact hs.2 trivial
    · exact hs.1.recorded.decodes rows hrows
  refine (maintains_ask Batch.Kept.unscripted).bind fun _ => ?_
  refine Triple.modify_bind (M := fun s => s.Kept) (fun s hs => hs.framed _) ?_
  refine Triple.get_bind fun s hs => ?_
  have hloop : Maintains (fun t : Batch I => t.Kept ∧ t.active = s.active)
      (forEach (sampleRow ops) s.active) :=
    maintains_forEach fun p hp => maintains_sampleRow hp
  exact (hloop.of_state ⟨hs, rfl⟩).weaken (fun _ h => h) (fun _ _ h => h.1) fun _ h => h.1

end TyloQuant.ContinuousBatch
