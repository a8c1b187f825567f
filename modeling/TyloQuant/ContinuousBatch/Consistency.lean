import TyloQuant.ContinuousBatch.Sequences

/-!
# Flags and rows

A request is active exactly when it is a row, rows are registered and do not repeat, and an active
request waits for no prefill (`View.Consistent`).  The flags of a request also have to fit where
its coroutine stands (`Phase`): that is why a coroutine which still prefills is not activated
behind its back.  `Batch.Kept` has both, for the present state, and for what the ghosts recorded.
-/

namespace TyloQuant.ContinuousBatch

open Lib

variable {I : Type} [DecidableEq I]

/-! ### The invariant -/

/-- A registered request has its name. -/
def View.Named (v : View I) : Prop :=
  ∀ ⦃id work⦄, v.requests.lookup id = some work →
    ∃ r, v.heap.lookup work.request = some r ∧ r.id = id

structure View.Consistent (v : View I) : Prop where
  named : v.Named
  rows : ∀ p ∈ v.active, ∃ r work, v.heap.lookup p = some r ∧
    v.requests.lookup r.id = some work ∧ work.request = p ∧ work.active = true
  nodup : v.active.Nodup
  listed : ∀ ⦃id work⦄, v.requests.lookup id = some work → work.active = true →
    work.request ∈ v.active
  exclusive : ∀ ⦃id work⦄, v.requests.lookup id = some work → work.active = true →
    work.prefill = none

/-- The flags of a request whose coroutine is suspended in the prefill loop. -/
def Phase (work : Work) (r : BatchRequest I) : Sequence → Prop
  | .prefilling offset _ _ => work.decode = false ∧ r.replayOffset = none ∧
      (∀ c, work.prefill = some c → c.offset = offset ∧ work.result = none) ∧
      (work.active = true → ∃ c, work.completedPrefill = some c ∧ offset + c.count = r.promptSize)
  | .progress offset _ => work.decode = false ∧ r.replayOffset = none ∧ work.prefill = none ∧
      (work.active = true → offset = r.promptSize)
  | _ => True

/-- What a retraction leaves: a row, and an eligible one if it took one. -/
def Retraction.Spares (x : Retraction) : Prop :=
  x.rows ≠ [] ∧ (x.eligible = true → x.eligibleRows ≠ [])

structure Batch.Recorded (s : Batch I) : Prop where
  views : ∀ v ∈ s.views, v.Consistent
  decodes : ∀ rows ∈ s.decodes, rows ≠ []
  retractions : ∀ x ∈ s.retractions, x.Spares

/-- A suspended coroutine has its request, with flags that fit. -/
def Batch.Phases (s : Batch I) : Prop :=
  ∀ ⦃id q⦄, s.sequences.lookup id = some q → ∃ work r, s.requests.lookup id = some work ∧
    s.heap.lookup work.request = some r ∧ Phase work r q

/-- What holds even while a row is being taken out. -/
structure Batch.Weak (s : Batch I) : Prop where
  named : s.view.Named
  recorded : s.Recorded
  phases : s.Phases

structure Batch.Kept (s : Batch I) : Prop where
  consistent : s.view.Consistent
  recorded : s.Recorded
  phases : s.Phases

variable {s s' : Batch I} {v v' : View I} {id j : I} {p : Nat} {work work' : Work}
  {r : BatchRequest I} {f : Work → Work} {g : BatchRequest I → BatchRequest I}

theorem Batch.Kept.weak (h : s.Kept) : s.Weak := ⟨h.consistent.named, h.recorded, h.phases⟩

namespace View

/-! ### Views -/

theorem Named.inj (h : v.Named) (hwork : v.requests.lookup id = some work)
    (hwork' : v.requests.lookup j = some work') (heq : work.request = work'.request) : id = j := by
  obtain ⟨r, hr, hid⟩ := h hwork
  obtain ⟨r', hr', hj⟩ := h hwork'
  rw [heq, hr'] at hr
  cases hr
  exact hid.symm.trans hj

theorem Consistent.row (h : v.Consistent) (hwork : v.requests.lookup id = some work)
    (hmem : work.request ∈ v.active) : work.active = true := by
  obtain ⟨r, work', hr, hwork', heq, hactive⟩ := h.rows _ hmem
  have hid : r.id = id := h.named.inj hwork' hwork heq
  rw [hid, hwork] at hwork'
  cases hwork'
  exact hactive

theorem Consistent.count (h : v.Consistent) (hwork : v.requests.lookup id = some work) :
    work.active = true ↔ v.active.count work.request = 1 := by
  constructor
  · intro hactive
    exact List.count_eq_one_of_mem h.nodup (h.listed hwork hactive)
  · intro hcount
    apply h.row hwork
    apply List.count_pos_iff.mp
    omega

theorem Named.adjust (h : v.Named) (hf : ∀ work, (f work).request = work.request) :
    (View.mk v.heap (v.requests.adjust id f) v.active).Named := by
  intro j work hwork
  simp only [Table.lookup_adjust] at hwork
  split at hwork
  · next hj =>
    obtain ⟨old, hold, rfl⟩ := Option.map_eq_some_iff.mp hwork
    rw [hf, hj]
    exact h hold
  · exact h hwork

theorem Named.heap {heap : Table Nat (BatchRequest I)} (h : v.Named)
    (hheap : ∀ p, (heap.lookup p).map (·.id) = (v.heap.lookup p).map (·.id)) :
    (View.mk heap v.requests v.active).Named := by
  intro id work hwork
  obtain ⟨r, hr, hid⟩ := h hwork
  have hname := hheap work.request
  rw [hr] at hname
  obtain ⟨r', hr', hid'⟩ := Option.map_eq_some_iff.mp hname
  exact ⟨r', hr', hid'.trans hid⟩

theorem Consistent.heap {heap : Table Nat (BatchRequest I)} (h : v.Consistent)
    (hheap : ∀ p, (heap.lookup p).map (·.id) = (v.heap.lookup p).map (·.id)) :
    (View.mk heap v.requests v.active).Consistent := by
  refine ⟨h.named.heap hheap, ?_, h.nodup, h.listed, h.exclusive⟩
  intro p hp
  obtain ⟨r, work, hr, hwork, heq, hactive⟩ := h.rows p hp
  have hname := hheap p
  rw [hr] at hname
  obtain ⟨r', hr', hid'⟩ := Option.map_eq_some_iff.mp hname
  exact ⟨r', work, hr', by rw [hid']; exact hwork, heq, hactive⟩

/-- A request changes its flags, and `active` as the list of rows does. -/
theorem Consistent.change {active : List Nat} (h : v.Consistent)
    (hwork : v.requests.lookup id = some work) (hrequest : (f work).request = work.request)
    (hothers : ∀ p, p ≠ work.request → (p ∈ active ↔ p ∈ v.active)) (hnodup : active.Nodup)
    (hflag : work.request ∈ active ↔ (f work).active = true)
    (hprefill : (f work).active = true → (f work).prefill = none) :
    (View.mk v.heap (v.requests.adjust id f) active).Consistent := by
  have hlookup : ∀ j, (v.requests.adjust id f).lookup j =
      if j = id then some (f work) else v.requests.lookup j := by
    intro j
    rw [Table.lookup_adjust, hwork, Option.map_some]
  have hapart : ∀ {j work'}, j ≠ id → v.requests.lookup j = some work' →
      work'.request ≠ work.request :=
    fun hj hwork' heq => hj (h.named.inj hwork' hwork heq)
  refine ⟨?_, ?_, hnodup, ?_, ?_⟩
  · intro j work' hwork'
    rw [hlookup] at hwork'
    split at hwork'
    · next hj =>
      cases hwork'
      rw [hrequest, hj]
      exact h.named hwork
    · exact h.named hwork'
  · intro p hp
    by_cases hown : p = work.request
    · subst hown
      obtain ⟨r, hr, hid⟩ := h.named hwork
      exact ⟨r, f work, hr, by rw [hlookup, if_pos hid], hrequest, hflag.mp hp⟩
    · obtain ⟨r, work', hr, hwork', heq, hactive⟩ := h.rows p ((hothers p hown).mp hp)
      have hj : r.id ≠ id := by
        intro hid
        rw [hid, hwork] at hwork'
        cases hwork'
        exact hown heq.symm
      exact ⟨r, work', hr, by rw [hlookup, if_neg hj]; exact hwork', heq, hactive⟩
  · intro j work' hwork' hactive
    rw [hlookup] at hwork'
    split at hwork'
    · cases hwork'
      rw [hrequest]
      exact hflag.mpr hactive
    · next hj => exact (hothers _ (hapart hj hwork')).mpr (h.listed hwork' hactive)
  · intro j work' hwork' hactive
    rw [hlookup] at hwork'
    split at hwork'
    · cases hwork'
      exact hprefill hactive
    · exact h.exclusive hwork' hactive

theorem Consistent.erase {active : List Nat} (h : v.Consistent)
    (hwork : v.requests.lookup id = some work)
    (hothers : ∀ p, p ≠ work.request → (p ∈ active ↔ p ∈ v.active)) (hnodup : active.Nodup)
    (hown : work.request ∉ active) :
    (View.mk v.heap (v.requests.erase id) active).Consistent := by
  have hback : ∀ {j work'}, (v.requests.erase id).lookup j = some work' →
      j ≠ id ∧ v.requests.lookup j = some work' := by
    intro j work' hwork'
    rw [Table.lookup_erase_ite] at hwork'
    split at hwork'
    · cases hwork'
    · next hj => exact ⟨hj, hwork'⟩
  refine ⟨?_, ?_, hnodup, ?_, ?_⟩
  · intro j work' hwork'
    exact h.named (hback hwork').2
  · intro p hp
    have hne : p ≠ work.request := fun heq => hown (heq ▸ hp)
    obtain ⟨r, work', hr, hwork', heq, hactive⟩ := h.rows p ((hothers p hne).mp hp)
    have hj : r.id ≠ id := by
      intro hid
      rw [hid, hwork] at hwork'
      cases hwork'
      exact hne heq.symm
    refine ⟨r, work', hr, ?_, heq, hactive⟩
    rw [Table.lookup_erase_ite, if_neg hj]
    exact hwork'
  · intro j work' hwork' hactive
    obtain ⟨hj, hold⟩ := hback hwork'
    exact (hothers _ fun heq => hj (h.named.inj hold hwork heq)).mpr (h.listed hold hactive)
  · intro j work' hwork' hactive
    exact h.exclusive (hback hwork').2 hactive

theorem Consistent.insert (h : v.Consistent) (hheap : v.heap.lookup p = none)
    (hid : r.id = id) (hrequest : work.request = p) (hactive : work.active = false)
    (hnew : v.requests.lookup id = none) :
    (View.mk (v.heap.insert p r) (v.requests.insert id work) v.active).Consistent := by
  have hheap' : ∀ {q r'}, v.heap.lookup q = some r' → (v.heap.insert p r).lookup q = some r' := by
    intro q r' hq
    rw [Table.lookup_insert_ite, if_neg]
    · exact hq
    · rintro rfl
      rw [hheap] at hq
      cases hq
  have hback : ∀ {j work'}, (v.requests.insert id work).lookup j = some work' →
      j = id ∧ work' = work ∨ v.requests.lookup j = some work' :=
    fun hwork' => (Table.lookup_insert_cases hwork').imp_right And.right
  refine ⟨?_, ?_, h.nodup, ?_, ?_⟩
  · intro j work' hwork'
    rcases hback hwork' with ⟨rfl, rfl⟩ | hold
    · exact ⟨r, by rw [hrequest, AList.lookup_insert], hid⟩
    · obtain ⟨r', hr', hname⟩ := h.named hold
      exact ⟨r', hheap' hr', hname⟩
  · intro q hq
    obtain ⟨r', work', hr', hwork', heq, hact⟩ := h.rows q hq
    refine ⟨r', work', hheap' hr', ?_, heq, hact⟩
    rw [Table.lookup_insert_ite, if_neg]
    · exact hwork'
    · intro hj
      rw [hj, hnew] at hwork'
      cases hwork'
  · intro j work' hwork' hact
    rcases hback hwork' with ⟨rfl, rfl⟩ | hold
    · rw [hactive] at hact
      cases hact
    · exact h.listed hold hact
  · intro j work' hwork' hact
    rcases hback hwork' with ⟨rfl, rfl⟩ | hold
    · rw [hactive] at hact
      cases hact
    · exact h.exclusive hold hact

theorem Named.recovered (h : v.Named) {g : I → Work → Work}
    (hrequest : ∀ id work, (g id work).request = work.request)
    (hactive : ∀ id work, (g id work).active = false) :
    (View.mk v.heap (Table.mapVal g v.requests) []).Consistent := by
  have hback : ∀ {j work'}, (Table.mapVal g v.requests).lookup j = some work' →
      ∃ work, v.requests.lookup j = some work ∧ work' = g j work := by
    intro j work' hwork'
    rw [Table.lookup_mapVal] at hwork'
    obtain ⟨work, hwork, rfl⟩ := Option.map_eq_some_iff.mp hwork'
    exact ⟨work, hwork, rfl⟩
  have hidle : ∀ {j work'}, (Table.mapVal g v.requests).lookup j = some work' →
      work'.active ≠ true := by
    intro j work' hwork'
    obtain ⟨work, -, rfl⟩ := hback hwork'
    simp [hactive]
  refine ⟨?_, by simp, List.nodup_nil, ?_, ?_⟩
  · intro j work' hwork'
    obtain ⟨work, hwork, rfl⟩ := hback hwork'
    rw [hrequest]
    exact h hwork
  · exact fun j work' hwork' hact => (hidle hwork' hact).elim
  · exact fun j work' hwork' hact => (hidle hwork' hact).elim

end View

namespace Batch

/-! ### States -/

theorem Kept.of_eq (h : s.Kept) (hview : s'.view = s.view) (hsequences : s'.sequences = s.sequences)
    (hviews : s'.views = s.views) (hdecodes : s'.decodes = s.decodes)
    (hretractions : s'.retractions = s.retractions) : s'.Kept := by
  refine ⟨hview ▸ h.consistent, ⟨?_, ?_, ?_⟩, ?_⟩
  · rw [hviews]
    exact h.recorded.views
  · rw [hdecodes]
    exact h.recorded.decodes
  · rw [hretractions]
    exact h.recorded.retractions
  · intro id q hq
    obtain ⟨hheap, hrequests, -⟩ := View.mk.inj hview
    rw [hsequences] at hq
    rw [hheap, hrequests]
    exact h.phases hq

end Batch

/-- A change of a request's flags that fits its rows and its coroutine. -/
structure Work.Fits (s : Batch I) (id : I) (work work' : Work) : Prop where
  request : work'.request = work.request
  active : work'.active = work.active
  prefill : work'.active = true → work'.prefill = none
  phase : ∀ {r q}, s.heap.lookup work.request = some r → s.sequences.lookup id = some q →
    Phase work r q → Phase work' r q

theorem Work.Fits.cleared (hrequest : work'.request = work.request)
    (hactive : work'.active = work.active)
    (hexclusive : work.active = true → work.prefill = none)
    (hdecode : work'.decode = true → work.decode = true)
    (hprefill : work'.prefill = none ∨ work'.prefill = work.prefill ∧ work'.result = work.result)
    (hcompleted : work'.completedPrefill = work.completedPrefill) : Work.Fits s id work work' := by
  have hnone : work.prefill = none → work'.prefill = none := by
    intro hp
    rcases hprefill with hprefill | ⟨hprefill, -⟩
    · exact hprefill
    · exact hprefill.trans hp
  have hidle : work.decode = false → work'.decode = false := by
    intro hd
    apply Bool.eq_false_iff.mpr
    intro hd'
    rw [hdecode hd'] at hd
    cases hd
  refine ⟨hrequest, hactive, fun h => hnone (hexclusive (hactive ▸ h)), ?_⟩
  intro r q _ _ hphase
  cases q with
  | prefilling offset stop chunk =>
    obtain ⟨hd, hreplay, hchunk, hdone⟩ := hphase
    refine ⟨hidle hd, hreplay, ?_, by rw [hactive, hcompleted]; exact hdone⟩
    intro c hc
    rcases hprefill with hprefill | ⟨hprefill, hresult⟩
    · rw [hprefill] at hc
      cases hc
    · rw [hprefill] at hc
      rw [hresult]
      exact hchunk c hc
  | progress offset stop =>
    obtain ⟨hd, hreplay, hp, hdone⟩ := hphase
    exact ⟨hidle hd, hreplay, hnone hp, by rw [hactive]; exact hdone⟩
  | delta => trivial
  | decodeWait => trivial
  | drafting => trivial

namespace Batch

@[simp] theorem lookup_setWork : (s.setWork id f).requests.lookup j =
    if j = id then (s.requests.lookup id).map f else s.requests.lookup j :=
  Table.lookup_adjust _ _ _ _

@[simp] theorem lookup_setRequest {q : Nat} : (s.setRequest p g).heap.lookup q =
    if q = p then (s.heap.lookup p).map g else s.heap.lookup q :=
  Table.lookup_adjust _ _ _ _

theorem setWork_of_none (h : s.requests.lookup id = none) : s.setWork id f = s := by
  simp [setWork, Table.adjust, h]

theorem Phases.setWork (h : s.Phases)
    (hf : ∀ work, s.requests.lookup id = some work → ∀ r q, s.heap.lookup work.request = some r →
      s.sequences.lookup id = some q → Phase work r q → Phase (f work) r q)
    (hrequest : ∀ work, s.requests.lookup id = some work → (f work).request = work.request) :
    (s.setWork id f).Phases := by
  intro j q hq
  obtain ⟨work, r, hwork, hr, hphase⟩ := h hq
  rw [lookup_setWork]
  by_cases hj : j = id
  · subst hj
    refine ⟨f work, r, by simp [hwork], ?_, hf work hwork r q hr hq hphase⟩
    rw [hrequest work hwork]
    exact hr
  · exact ⟨work, r, by rw [if_neg hj]; exact hwork, hr, hphase⟩

theorem Kept.setWork (h : s.Kept)
    (hf : ∀ work, s.requests.lookup id = some work → Work.Fits s id work (f work)) :
    (s.setWork id f).Kept := by
  cases hwork : s.requests.lookup id with
  | none =>
    rw [setWork_of_none hwork]
    exact h
  | some work =>
    have hfit := hf work hwork
    refine ⟨?_, ⟨h.recorded.views, h.recorded.decodes, h.recorded.retractions⟩, ?_⟩
    · refine h.consistent.change hwork hfit.request (fun p _ => Iff.rfl) h.consistent.nodup ?_
        hfit.prefill
      rw [hfit.active]
      exact ⟨fun hmem => h.consistent.row hwork hmem, fun hact => h.consistent.listed hwork hact⟩
    · exact h.phases.setWork (fun work hwork r q hr hq => (hf work hwork).phase hr hq)
        fun work hwork => (hf work hwork).request

theorem Kept.setRequest (h : s.Kept) (hid : ∀ r, (g r).id = r.id)
    (hphase : ∀ id work r q, s.requests.lookup id = some work → work.request = p →
      s.heap.lookup p = some r → s.sequences.lookup id = some q → Phase work r q →
      Phase work (g r) q) : (s.setRequest p g).Kept := by
  refine ⟨?_, ⟨h.recorded.views, h.recorded.decodes, h.recorded.retractions⟩, ?_⟩
  · refine h.consistent.heap fun q => ?_
    rw [lookup_setRequest]
    by_cases hq : q = p
    · subst hq
      cases hr : s.heap.lookup q with
      | none => simp [view, hr]
      | some r => simp [view, hr, hid]
    · rw [if_neg hq]
      rfl
  · intro id q hq
    obtain ⟨work, r, hwork, hr, hfit⟩ := h.phases hq
    by_cases hown : work.request = p
    · subst hown
      exact ⟨work, g r, hwork, by simp [hr], hphase id work r q hwork rfl hr hq hfit⟩
    · exact ⟨work, r, hwork, by rw [lookup_setRequest, if_neg hown]; exact hr, hfit⟩

end Batch

end TyloQuant.ContinuousBatch
