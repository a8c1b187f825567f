import TyloQuant.ContinuousBatch.Consistency

/-!
# What the parts of a step do to the rows

A request becomes a row, a row is taken out for good or is retracted, every request fails, and a
request is forgotten.  Each keeps the batch consistent; a retraction moreover leaves a row, and an
eligible one if it takes one.
-/

namespace TyloQuant.ContinuousBatch

open Lib List

variable {I : Type} [DecidableEq I] {s s' : Batch I} {id : I} {p : Nat} {work : Work}
  {r : BatchRequest I} {f g : Work → Work}

/-! ### Lists of rows -/

variable {rows : List Nat}

theorem mem_dropped {q : Nat} (hq : q ≠ p) : q ∈ rows.filter (fun x => x ≠ p) ↔ q ∈ rows := by
  simp [hq]

theorem not_mem_dropped : p ∉ rows.filter fun x => x ≠ p := by
  simp

theorem dropped_ne_nil (hnodup : rows.Nodup) (hlength : 1 < rows.length) :
    rows.filter (fun x => x ≠ p) ≠ [] := by
  intro hnil
  have hall : ∀ x ∈ rows, x = p := by
    intro x hx
    by_contra hne
    have hmem : x ∈ rows.filter fun x => x ≠ p := (mem_dropped hne).mpr hx
    rw [hnil] at hmem
    cases hmem
  match rows, hnodup, hlength, hall with
  | a :: b :: rest, hnodup, _, hall =>
    apply (nodup_cons.mp hnodup).1
    rw [hall a (by simp), hall b (by simp)]
    exact mem_cons_self

namespace Batch

theorem Kept.idle_notMem (h : s.Kept) (hwork : s.requests.lookup id = some work)
    (hidle : work.active = false) : work.request ∉ s.active := by
  intro hmem
  rw [h.consistent.row hwork hmem] at hidle
  cases hidle

/-! ### Rows come and go -/

theorem Kept.activate (h : s.Kept) (hwork : s.requests.lookup id = some work)
    (hidle : work.active = false) (hrequest : ∀ work, (f work).request = work.request)
    (hphase : ∀ r q, s.heap.lookup work.request = some r → s.sequences.lookup id = some q →
      Phase work r q → Phase { f work with active := true, prefill := none } r q) :
    (s.activate id work.request f).Kept := by
  have hnew := h.idle_notMem hwork hidle
  refine ⟨?_, ⟨h.recorded.views, h.recorded.decodes, h.recorded.retractions⟩, ?_⟩
  · have hview : (s.activate id work.request f).view = ⟨s.heap, s.requests.adjust id fun work =>
        { f work with active := true, prefill := none }, s.active ++ [work.request]⟩ := rfl
    rw [hview]
    refine h.consistent.change hwork (hrequest work) (fun q hq => ?_) ?_ ?_ fun _ => rfl
    · simp [hq, view]
    · exact nodup_append.mpr ⟨h.consistent.nodup, nodup_singleton _, fun a ha b hb => by
        rw [mem_singleton.mp hb]
        rintro rfl
        exact hnew ha⟩
    · simp
  · refine Phases.setWork (s := { s with active := s.active ++ [work.request] }) h.phases ?_
      fun work _ => hrequest work
    intro work' hwork' r q hr hq
    cases hwork.symm.trans hwork'
    exact hphase r q hr hq

theorem Kept.drop (h : s.Kept) (hwork : s.requests.lookup id = some work)
    (hrequest : ∀ work, (f work).request = work.request) (hidle : (f work).active = false)
    (hphase : ∀ r q, s.heap.lookup work.request = some r → s.sequences.lookup id = some q →
      Phase work r q → Phase (f work) r q) :
    ({ s with active := s.active.filter fun q => q ≠ work.request }.setWork id f).Kept := by
  refine ⟨?_, ⟨h.recorded.views, h.recorded.decodes, h.recorded.retractions⟩, ?_⟩
  · refine h.consistent.change hwork (hrequest work) (fun q hq => mem_dropped hq)
      (h.consistent.nodup.filter _) ?_ ?_
    · rw [hidle]
      exact ⟨fun hmem => (not_mem_dropped hmem).elim, fun hact => Bool.noConfusion hact⟩
    · intro hact
      rw [hidle] at hact
      cases hact
  · refine Phases.setWork (s := { s with active := s.active.filter fun q => q ≠ work.request })
      h.phases ?_ fun work _ => hrequest work
    intro work' hwork' r q hr hq
    cases hwork.symm.trans hwork'
    exact hphase r q hr hq

/-- The same in two moves; in between the request still has its flag. -/
theorem setWork_setWork : (s.setWork id f).setWork id g = s.setWork id fun work => g (f work) := by
  cases hwork : s.requests.lookup id with
  | none => rw [setWork_of_none hwork, setWork_of_none hwork, setWork_of_none hwork]
  | some work => simp [setWork, Table.adjust, hwork, AList.insert_insert]

theorem Weak.setWork (h : s.Weak) (hrequest : ∀ work, (f work).request = work.request)
    (hphase : ∀ work r q, Phase work r q → Phase (I := I) (f work) r q) : (s.setWork id f).Weak :=
  ⟨h.named.adjust hrequest, ⟨h.recorded.views, h.recorded.decodes, h.recorded.retractions⟩,
    h.phases.setWork (fun work _ r q _ _ => hphase work r q) fun work _ => hrequest work⟩

/-! ### Retractions -/

theorem eligibleRows_drop :
    (rows.filter fun x => x ≠ p).filter s.isEligible =
      (rows.filter s.isEligible).filter fun x => x ≠ p := by
  rw [filter_filter, filter_filter]
  simp only [Bool.and_comm]

theorem eligibleRows_retracted (ops : Ops) (hr : s.heap.lookup p = some r) :
    (s.retracted ops p r).eligibleRows = s.eligibleRows.filter fun x => x ≠ p := by
  unfold Batch.eligibleRows
  rw [← eligibleRows_drop]
  refine filter_congr fun q hq => ?_
  have hne : q ≠ p := by
    rintro rfl
    exact not_mem_dropped hq
  simp only [isEligible]
  have hheap : (s.retracted ops p r).heap.lookup q = s.heap.lookup q := by
    refine (Table.lookup_adjust _ _ _ _).trans ?_
    rw [if_neg hne]
    rfl
  rw [hheap]

/-- What `retract_one` has checked before it takes a row out. -/
structure Retractable (s : Batch I) (p : Nat) (r : BatchRequest I) : Prop where
  row : p ∈ s.active
  request : s.heap.lookup p = some r
  decode : ∀ work, s.requests.lookup r.id = some work → work.decode = true
  others : 1 < s.active.length
  eligible : r.eligible = true → 1 < s.eligibleRows.length

theorem Retractable.registered (h : s.Retractable p r) (hk : s.Kept) :
    ∃ work, s.requests.lookup r.id = some work ∧ work.request = p ∧ work.active = true := by
  obtain ⟨r', work, hr', hwork, hrequest, hactive⟩ := hk.consistent.rows p h.row
  cases h.request.symm.trans hr'
  exact ⟨work, hwork, hrequest, hactive⟩

theorem Retractable.eligible_left (h : s.Retractable p r) (hk : s.Kept)
    (hrows : s.eligibleRows ≠ []) : (s.eligibleRows.filter fun x => x ≠ p) ≠ [] := by
  by_cases heligible : r.eligible = true
  · exact dropped_ne_nil (hk.consistent.nodup.filter _) (h.eligible heligible)
  · have hsame : (s.eligibleRows.filter fun x => x ≠ p) = s.eligibleRows := by
      refine filter_eq_self.mpr fun q hq => ?_
      have hne : q ≠ p := by
        rintro rfl
        have hyes := (mem_filter.mp hq).2
        simp only [isEligible, h.request] at hyes
        exact heligible hyes
      simpa using hne
    rw [hsame]
    exact hrows

theorem Kept.retracted (ops : Ops) (hk : s.Kept) (h : s.Retractable p r) :
    (s.retracted ops p r).Kept := by
  obtain ⟨work, hwork, rfl, hactive⟩ := h.registered hk
  have hdecode := h.decode work hwork
  have hdropped := hk.drop (f := fun work => { work with
      active := false
      admitted := false
      prefill := some ⟨0, min ops.prefillChunkSize r.replayLength⟩ }) hwork (fun _ => rfl) rfl
    (fun r' q _ _ hphase => by
      cases q with
      | prefilling offset stop chunk => exact absurd hphase.1 (by simp [hdecode])
      | progress offset stop => exact absurd hphase.1 (by simp [hdecode])
      | delta => trivial
      | decodeWait => trivial
      | drafting => trivial)
  have hout := hdropped.setRequest (p := work.request)
    (g := fun r => { r with eligible := false, replayOffset := some 0, cacheLength := 0 })
    (fun _ => rfl) (fun id work' r' q hwork' hreq _ _ hphase => by
      have hsame : id = r.id := by
        by_contra hne
        rw [lookup_setWork, if_neg hne] at hwork'
        exact hne (hk.consistent.named.inj hwork' hwork hreq)
      subst hsame
      rw [lookup_setWork, if_pos rfl] at hwork'
      obtain ⟨old, hold, rfl⟩ := Option.map_eq_some_iff.mp hwork'
      cases hwork.symm.trans hold
      cases q with
      | prefilling offset stop chunk => exact absurd hphase.1 (by simp [hdecode])
      | progress offset stop => exact absurd hphase.1 (by simp [hdecode])
      | delta => trivial
      | decodeWait => trivial
      | drafting => trivial)
  refine ⟨hout.consistent, ⟨?_, hk.recorded.decodes, ?_⟩, hout.phases⟩
  · intro v hv
    rcases mem_cons.mp hv with rfl | hv
    · exact hout.consistent
    · exact hk.recorded.views v hv
  · intro x hx
    rcases mem_cons.mp hx with rfl | hx
    · refine ⟨dropped_ne_nil hk.consistent.nodup h.others, fun heligible => ?_⟩
      have hleft := eligibleRows_retracted ops h.request
      refine ne_of_eq_of_ne hleft (h.eligible_left hk ?_)
      have hmany := h.eligible heligible
      rintro hnil
      rw [hnil] at hmany
      cases hmany
    · exact hk.recorded.retractions x hx

/-! ### Recovery and release -/

theorem lookup_recovered (error : Failure) : (s.recovered error).requests.lookup id =
    (s.requests.lookup id).map (·.recovered error) :=
  Table.lookup_mapVal _ _ _

theorem Weak.recovered (h : s.Weak) (error : Failure) : (s.recovered error).Kept := by
  refine ⟨h.named.recovered (g := fun _ work => work.recovered error) (fun _ _ => rfl)
    (fun _ _ => rfl), ⟨h.recorded.views, h.recorded.decodes, h.recorded.retractions⟩, ?_⟩
  intro id q hq
  obtain ⟨work, r, hwork, hr, hphase⟩ := h.phases hq
  refine ⟨work.recovered error, r, by rw [lookup_recovered, hwork, Option.map_some], hr, ?_⟩
  cases q with
  | prefilling offset stop chunk => exact ⟨rfl, hphase.2.1, by simp [Work.recovered],
      by simp [Work.recovered]⟩
  | progress offset stop => exact ⟨rfl, hphase.2.1, rfl, by simp [Work.recovered]⟩
  | delta => trivial
  | decodeWait => trivial
  | drafting => trivial

theorem Kept.seen (h : s.Kept) : ({ s with views := s.view :: s.views } : Batch I).Kept := by
  refine ⟨h.consistent, ⟨?_, h.recorded.decodes, h.recorded.retractions⟩, h.phases⟩
  intro v hv
  rcases mem_cons.mp hv with rfl | hv
  · exact h.consistent
  · exact h.recorded.views v hv

/-- A request is forgotten; if it was a row it has been taken out before. -/
theorem Kept.forget {active : List Nat} (h : s.Kept) (hwork : s.requests.lookup id = some work)
    (hover : s.sequences.lookup id = none)
    (hothers : ∀ p, p ≠ work.request → (p ∈ active ↔ p ∈ s.active)) (hnodup : active.Nodup)
    (hown : work.request ∉ active) :
    ({ s with active := active, requests := s.requests.erase id } : Batch I).Kept := by
  refine ⟨h.consistent.erase hwork hothers hnodup hown,
    ⟨h.recorded.views, h.recorded.decodes, h.recorded.retractions⟩, ?_⟩
  intro j q hq
  obtain ⟨work', r, hwork', hr, hphase⟩ := h.phases hq
  have hj : j ≠ id := by
    rintro rfl
    rw [hover] at hq
    cases hq
  exact ⟨work', r, by rw [Table.lookup_erase_ite, if_neg hj]; exact hwork', hr, hphase⟩

end Batch

end TyloQuant.ContinuousBatch
