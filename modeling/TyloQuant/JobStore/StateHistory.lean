import TyloQuant.JobStore.Lifecycle

/-!
# The states that a job has been in

The log of a job only grows, and the states it records are a walk in the state graph that begins
with `queued` and ends with the status of the job.  A job that is being cancelled is not queued
again before it has ended, and one that has succeeded never is.
-/

namespace TyloQuant.JobStore

open List

variable {U J : Type}

/-- The states that may follow. -/
def JobStatus.next : JobStatus → List JobStatus
  | queued => [running, failed, cancelled, interrupted]
  | running => [cancelling, succeeded, failed, cancelled, interrupted, queued]
  | cancelling => [cancelling, failed, cancelled, interrupted]
  | succeeded => []
  | failed | cancelled | interrupted => [queued]

/-- The states that a log records. -/
def states (log : List (JobEvent U J)) : List JobStatus :=
  (log.filter fun e => e.eventType = .state).filterMap JobEvent.status

/-- The invariant of a job: its walk, and that being cancelled needs a request. -/
structure Walked (v : View U J) : Prop where
  absent : v.row = none → v.log = []
  steps : (states v.log).IsChain fun before after => after ∈ before.next
  ends : ∀ row ∈ v.row, (states v.log).head? = some .queued ∧
    (states v.log).getLast? = some row.status
  requested : ∀ row ∈ v.row, row.status = .cancelling → row.cancelRequested = true

variable {row row' : Job J} {log log' : List (JobEvent U J)} {now : Nat} {requeued : Prop}

theorem states_records {status : JobStatus} (h : Records log status log') :
    states log' = states log ++ [status] := by
  obtain ⟨e, reason, rfl, -, htype, hdata⟩ := h
  simp [states, htype, JobEvent.status, hdata]

theorem states_notes (h : Notes log log') : states log' = states log := by
  obtain ⟨e, rfl, -, htype⟩ := h
  simp [states, htype]

theorem Walked.empty : Walked (⟨none, []⟩ : View U J) :=
  ⟨fun _ => rfl, isChain_nil, by simp, by simp⟩

theorem Change.next (h : Change now requeued row row')
    (hrequested : row.status = .cancelling → row.cancelRequested = true) :
    row'.status ∈ row.status.next ∧ (row'.status = .cancelling → row'.cancelRequested = true) := by
  cases h with
  | claim hq => simp [hq, JobStatus.next]
  | withdraw hq => simp [hq, JobStatus.next]
  | requestCancel hr => rcases hr with hr | hr <;> simp [hr, JobStatus.next]
  | complete result hr => simp [hr, JobStatus.next]
  | finish status error hopen hs =>
    have hnext : status ∈ row.status.next := by
      revert hopen
      rcases hs with rfl | rfl | rfl <;> cases row.status <;>
        simp [JobStatus.terminal, JobStatus.next]
    exact ⟨hnext, fun heq => by rcases hs with rfl | rfl | rfl <;> cases heq⟩
  | resume hr hc =>
    -- the request of a job that is being cancelled keeps it from being resumed
    rcases hr with hr | hr
    · simp [hr, JobStatus.next]
    · cases hc.symm.trans (hrequested hr)
  | requeue payload hr hs ha => rcases hs with hs | hs | hs <;> simp [hs, JobStatus.next]

variable {v v' : View U J}

theorem Walked.move (h : Walked v) (hmove : Move now requeued v v') :
    Walked v' ∧ v.log <+: v'.log := by
  have hgrown : ∀ {log log' : List (JobEvent U J)} {status}, Records log status log' → log <+: log' :=
    fun ⟨e, _, heq, _⟩ => ⟨[e], heq.symm⟩
  cases hmove with
  | stay => exact ⟨h, prefix_rfl⟩
  | create row log log' hs hp hc hd ha hlog =>
    obtain rfl : log = [] := h.absent rfl
    have hstates := states_records hlog
    refine ⟨⟨nofun, ?_, ?_, ?_⟩, hgrown hlog⟩
    · rw [hstates]
      exact isChain_singleton _
    · rintro _ ⟨rfl⟩
      rw [hstates, hs]
      exact ⟨rfl, rfl⟩
    · rintro _ ⟨rfl⟩ hcancelling
      cases hs.symm.trans hcancelling
  | note row log log' hlog =>
    have hstates := states_notes hlog
    obtain ⟨e, heq, -⟩ := hlog
    exact ⟨⟨nofun, hstates ▸ h.steps, hstates ▸ h.ends, h.requested⟩, ⟨[e], heq.symm⟩⟩
  | progress row p data log log' hp hle hlog =>
    have hstates := states_notes hlog
    obtain ⟨e, heq, -⟩ := hlog
    refine ⟨⟨nofun, hstates ▸ h.steps, ?_, ?_⟩, ⟨[e], heq.symm⟩⟩
    · rintro _ ⟨rfl⟩
      exact hstates ▸ h.ends row rfl
    · rintro _ ⟨rfl⟩
      exact h.requested row rfl
  | archive row log hterminal ha =>
    refine ⟨⟨nofun, h.steps, ?_, ?_⟩, prefix_rfl⟩
    · rintro _ ⟨rfl⟩
      exact h.ends row rfl
    · rintro _ ⟨rfl⟩
      exact h.requested row rfl
  | change row row' log log' hchange hlog =>
    have hstates := states_records hlog
    obtain ⟨hfirst, hlast⟩ := h.ends row rfl
    obtain ⟨hnext, hrequested⟩ := hchange.next (h.requested row rfl)
    refine ⟨⟨nofun, ?_, ?_, ?_⟩, hgrown hlog⟩
    · rw [hstates]
      refine h.steps.append (isChain_singleton _) ?_
      rintro before hbefore _ ⟨rfl⟩
      cases hlast.symm.trans hbefore
      exact hnext
    · rintro _ ⟨rfl⟩
      rw [hstates, getLast?_concat, head?_append, hfirst]
      exact ⟨rfl, rfl⟩
    · rintro _ ⟨rfl⟩
      exact hrequested

variable [DecidableEq U] {c : Jobs U J}

theorem Walked.exec {jobId : U} (h : Walked (c.view jobId)) (calls : List (Nat × Action U J)) :
    Walked ((c.exec calls).view jobId) ∧ c.eventsOf jobId <+: (c.exec calls).eventsOf jobId := by
  induction calls generalizing c with
  | nil => exact ⟨h, prefix_rfl⟩
  | cons call calls ih =>
    obtain ⟨hnext, hgrown⟩ := h.move (Jobs.step_move c call.1 call.2 jobId)
    obtain ⟨hlast, hrest⟩ := ih hnext
    exact ⟨hlast, hgrown.trans hrest⟩

/-- **The history of a job.**  After any calls, and whatever calls follow. -/
theorem states_walk (calls later : List (Nat × Action U J)) (jobId : U) :
    (states ((Jobs.exec {} calls).eventsOf jobId)).IsChain (fun before after =>
        after ∈ before.next) ∧
      (∀ row ∈ (Jobs.exec {} calls).jobs.lookup jobId,
        (states ((Jobs.exec {} calls).eventsOf jobId)).head? = some .queued ∧
          (states ((Jobs.exec {} calls).eventsOf jobId)).getLast? = some row.status) ∧
      (Jobs.exec {} calls).eventsOf jobId <+: (Jobs.exec {} (calls ++ later)).eventsOf jobId := by
  have hempty : Jobs.view ({} : Jobs U J) jobId = ⟨none, []⟩ := rfl
  obtain ⟨hwalked, -⟩ := (hempty ▸ Walked.empty : Walked (Jobs.view {} jobId)).exec calls
  have hexec : Jobs.exec {} (calls ++ later) = (Jobs.exec {} calls).exec later := foldl_append
  rw [hexec]
  exact ⟨hwalked.steps, hwalked.ends, (hwalked.exec later).2⟩

end TyloQuant.JobStore
