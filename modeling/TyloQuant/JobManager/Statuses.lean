import TyloQuant.JobManager.Manager

/-!
# What a store call does to the statuses

The manager only looks at the status of a job.  A store call makes no job busy but by claiming it,
takes no job out of a terminal status but by queueing it again, and ends every job it is to end;
these are the three facts that the manager rests on.
-/

namespace TyloQuant.JobManager

open Lib JobStore List

variable {U J : Type} [DecidableEq U]

/-! ### Statuses -/

/-- The status of a job, if the job exists. -/
def status (c : Jobs U J) (jobId : U) : Option JobStatus :=
  (c.jobs.lookup jobId).map fun row => row.status

/-- A job that some task should be working on. -/
def Busy (c : Jobs U J) (jobId : U) : Prop :=
  status c jobId = some .running ∨ status c jobId = some .cancelling

/-- A job that has ended. -/
def Settled (c : Jobs U J) (jobId : U) : Prop := ∃ st, status c jobId = some st ∧ st.terminal = true

theorem Settled.not_busy {c : Jobs U J} {jobId : U} (h : Settled c jobId) : ¬Busy c jobId := by
  obtain ⟨st, hst, hterminal⟩ := h
  rintro (hb | hb) <;> rw [hst, Option.some.injEq] at hb <;> rw [hb] at hterminal <;> cases hterminal

theorem status_isSome {c : Jobs U J} {jobId : U} :
    (status c jobId).isSome = (c.jobs.lookup jobId).isSome := Option.isSome_map

/-! ### The end of a transaction -/

variable {row : Job J}

section Transaction

variable {c d : Jobs U J} {jobId : U} {now : Nat} {set : Job J → Job J} {level : JobEventLevel}
  {st : JobStatus} {reason : Option String} {progress : Option ℚ}

theorem commitJob_push_jobs (hp : progress = none ∨ progress = some 1) :
    (c.commitJob jobId (do
      let c' ← d.pushState jobId level st reason progress now
      pure (none, c'))).2.jobs = d.jobs := by
  obtain ⟨c', hc'⟩ := Jobs.pushState_total d jobId level st reason now hp
  rw [hc']
  exact (Jobs.pushState_ok hc').1

theorem commitJob_push_reply (hp : progress = none ∨ progress = some 1) :
    (c.commitJob jobId (do
      let c' ← d.pushState jobId level st reason progress now
      pure (none, c'))).1 =
    (c.commitJob jobId (do
      let c' ← d.pushState jobId level st reason progress now
      pure (none, c'))).2.getJob jobId := by
  obtain ⟨c', hc'⟩ := Jobs.pushState_total d jobId level st reason now hp
  rw [hc']
  rfl

theorem status_push (hrow : c.jobs.lookup jobId = some row)
    (hp : progress = none ∨ progress = some 1) (k : U) :
    status (c.commitJob jobId (do
      let c' ← (c.updateJob jobId set).pushState jobId level st reason progress now
      pure (none, c'))).2 k =
        if k = jobId then some (set row).status else status c k := by
  unfold status
  rw [commitJob_push_jobs hp, Jobs.lookup_updateJob]
  by_cases hk : k = jobId
  · subst hk
    simp [hrow]
  · simp [hk]

theorem getJob_status (h : c.getJob jobId = .ok row) : status c jobId = some row.status := by
  unfold status
  rw [(Jobs.getJob_ok h).1, Option.map_some]

end Transaction

/-! ### The calls -/

theorem status_cases (st : JobStatus) :
    st = .queued ∨ st = .running ∨ st = .cancelling ∨ st.terminal = true := by
  cases st <;> simp [JobStatus.terminal]

section Calls

variable (c : Jobs U J) (jobId : U) (now : Nat)

/-- `claim_job` on a job that exists: a queued one runs, any other stays, and the reply says so. -/
theorem claimJob_status (k : U) :
    status (c.claimJob jobId now).2 k =
      if k = jobId ∧ status c jobId = some .queued then some .running else status c k := by
  unfold Jobs.claimJob
  cases hrow : c.jobs.lookup jobId with
  | none =>
    have hnone : status c jobId = none := by simp [status, hrow]
    simp [Jobs.commitJob, commit, hnone]
  | some row =>
    have hst : status c jobId = some row.status := by simp [status, hrow]
    dsimp only
    by_cases hq : row.status = .queued
    · rw [if_neg (not_not.mpr hq)]
      rw [status_push hrow (Or.inl rfl)]
      simp [hst, hq]
    · rw [if_pos hq]
      simp [Jobs.commitJob, commit, hst, hq]

theorem claimJob_reply (h : (c.claimJob jobId now).1 = .ok row) :
    status (c.claimJob jobId now).2 jobId = some row.status := by
  unfold Jobs.claimJob at h ⊢
  cases hrow : c.jobs.lookup jobId with
  | none =>
    rw [hrow] at h
    cases h
  | some old =>
    rw [hrow] at h
    dsimp only at h ⊢
    by_cases hq : old.status = .queued
    · rw [if_neg (not_not.mpr hq)] at h ⊢
      rw [commitJob_push_reply (Or.inl rfl)] at h
      exact getJob_status h
    · rw [if_pos hq] at h ⊢
      cases h
      simp [Jobs.commitJob, commit, status, hrow]

/-- A job that is busy after `claim_job` is not archived, so the claim is answered. -/
theorem claimJob_busy (hsound : c.Sound) (h : Busy (c.claimJob jobId now).2 jobId) :
    ∃ row, (c.claimJob jobId now).1 = .ok row ∧
      (row.status = .running ∨ row.status = .cancelling) := by
  have hreply : ∃ row, (c.claimJob jobId now).1 = .ok row := by
    unfold Jobs.claimJob at h ⊢
    cases hrow : c.jobs.lookup jobId with
    | none =>
      rw [hrow] at h
      simp [Jobs.commitJob, commit, Busy, status, hrow] at h
    | some old =>
      dsimp only
      by_cases hq : old.status = .queued
      · rw [if_neg (not_not.mpr hq)]
        rw [commitJob_push_reply (Or.inl rfl)]
        have hview := hsound jobId
        unfold View.Sound Jobs.view at hview
        rw [hrow] at hview
        have harchived : old.archivedAt = none := by
          cases ha : old.archivedAt with
          | none => rfl
          | some t =>
            have hterminal := hview.archived (by rw [ha]; rfl)
            rw [hq] at hterminal
            cases hterminal
        refine ⟨{ old with status := .running, startedAt := some now, updatedAt := now }, ?_⟩
        unfold Jobs.getJob
        rw [commitJob_push_jobs (Or.inl rfl), Jobs.lookup_updateJob, if_pos rfl, hrow]
        simp [harchived]
      · rw [if_pos hq]
        exact ⟨old, rfl⟩
  obtain ⟨row, hrow⟩ := hreply
  refine ⟨row, hrow, ?_⟩
  have hst := claimJob_reply c jobId now hrow
  rcases h with h | h <;> rw [hst, Option.some.injEq] at h
  · exact Or.inl h
  · exact Or.inr h

theorem completeJob_status (result : J) (k : U) :
    status (c.completeJob jobId result now).2 k =
      if k = jobId ∧ status c jobId = some .running then some .succeeded else status c k := by
  unfold Jobs.completeJob
  cases hrow : c.jobs.lookup jobId with
  | none =>
    have hnone : status c jobId = none := by simp [status, hrow]
    simp [Jobs.commitJob, commit, hnone]
  | some row =>
    have hst : status c jobId = some row.status := by simp [status, hrow]
    dsimp only
    by_cases hs : row.status = .succeeded
    · rw [if_pos hs]
      simp [Jobs.commitJob, commit, hst, hs]
    · rw [if_neg hs]
      by_cases hr : row.status = .running
      · rw [if_neg (not_not.mpr hr)]
        rw [status_push hrow (Or.inr rfl)]
        simp [hst, hr]
      · rw [if_pos hr]
        simp [Jobs.commitJob, commit, hst, hr]

theorem completeJob_reply (result : J) (h : (c.completeJob jobId result now).1 = .ok row) :
    ¬Busy (c.completeJob jobId result now).2 jobId := by
  unfold Busy
  rw [completeJob_status]
  by_cases hr : status c jobId = some .running
  · simp [hr]
  · simp only [hr, and_false, if_false, false_or]
    intro hc
    unfold Jobs.completeJob at h
    cases hrow : c.jobs.lookup jobId with
    | none => simp [status, hrow] at hc
    | some old =>
      have hst : old.status = .cancelling := by
        simpa [status, hrow] using hc
      rw [hrow] at h
      simp [hst, Jobs.commitJob, commit] at h

theorem finishJob_status {st : JobStatus} (error : Option (ErrorDetail J))
    (hst : st = .failed ∨ st = .cancelled ∨ st = .interrupted) (k : U) :
    status (c.finishJob jobId st error now).2 k =
      if k = jobId then (status c jobId).map fun old => if old.terminal then old else st
      else status c k := by
  unfold Jobs.finishJob
  rw [if_neg (not_not.mpr hst)]
  cases hrow : c.jobs.lookup jobId with
  | none =>
    have hnone : status c jobId = none := by simp [status, hrow]
    by_cases hk : k = jobId
    · subst hk
      simp [Jobs.commitJob, commit, hnone]
    · simp [Jobs.commitJob, commit, hk]
  | some row =>
    have hold : status c jobId = some row.status := by simp [status, hrow]
    dsimp only
    by_cases ht : row.status.terminal = true
    · rw [if_pos ht]
      by_cases hk : k = jobId
      · subst hk
        simp [Jobs.commitJob, commit, hold, ht]
      · simp [Jobs.commitJob, commit, hk]
    · rw [if_neg ht]
      rw [status_push hrow (Or.inl rfl)]
      simp [hold, ht]

theorem requestJobCancel_status (k : U) :
    status (c.requestJobCancel jobId now).2 k =
      if k = jobId then
        (status c jobId).map fun old =>
          if old.terminal then old else if old = .queued then .cancelled else .cancelling
      else status c k := by
  unfold Jobs.requestJobCancel
  cases hrow : c.jobs.lookup jobId with
  | none =>
    have hnone : status c jobId = none := by simp [status, hrow]
    by_cases hk : k = jobId
    · subst hk
      simp [Jobs.commitJob, commit, hnone]
    · simp [Jobs.commitJob, commit, hk]
  | some row =>
    have hold : status c jobId = some row.status := by simp [status, hrow]
    dsimp only
    by_cases ht : row.status.terminal = true
    · rw [if_pos ht]
      by_cases hk : k = jobId
      · subst hk
        simp [Jobs.commitJob, commit, hold, ht]
      · simp [Jobs.commitJob, commit, hk]
    · rw [if_neg ht]
      rw [status_push hrow (Or.inl rfl)]
      simp [hold, ht]

theorem requeueJob_status (payload : Option J) (k : U) :
    status (c.requeueJob jobId payload now).2 k = status c k ∨
      k = jobId ∧ status (c.requeueJob jobId payload now).2 k = some .queued := by
  unfold Jobs.requeueJob
  cases hget : c.getJob jobId with
  | error e => exact Or.inl rfl
  | ok row =>
    obtain ⟨hrow, -⟩ := Jobs.getJob_ok hget
    dsimp only
    split
    · exact Or.inl rfl
    · split
      · exact Or.inl rfl
      · rw [status_push hrow (Or.inl rfl)]
        by_cases hk : k = jobId
        · exact Or.inr ⟨hk, by rw [if_pos hk]⟩
        · exact Or.inl (if_neg hk)

theorem createJob_status (kind : String) (payload : J) (k : U) :
    status (c.createJob kind payload jobId now).2 k = status c k ∨
      status c k = none ∧ status (c.createJob kind payload jobId now).2 k = some .queued := by
  unfold Jobs.createJob
  by_cases hmem : jobId ∈ c.jobs
  · rw [if_pos hmem]
    exact Or.inl rfl
  · rw [if_neg hmem]
    unfold status
    rw [commitJob_push_jobs (Or.inl rfl)]
    dsimp only
    rw [Table.lookup_insert_ite]
    by_cases hk : k = jobId
    · rw [if_pos hk, hk, AList.lookup_eq_none.mpr hmem]
      exact Or.inr ⟨rfl, rfl⟩
    · rw [if_neg hk]
      exact Or.inl rfl

end Calls

/-! ### Any call -/

/-- The calls that end a job. -/
def StoreCall.finishes : StoreCall U J → Bool
  | .failJob _ _ | .cancelJob _ | .interruptJob _ => true
  | _ => false

section Perform

variable {c : Jobs U J} {call : StoreCall U J} {now : Nat} {k : U}

/-- Only a claim makes a job busy. -/
theorem perform_busy (h : Busy (call.perform c now).2 k) :
    Busy c k ∨ call = .claimJob k ∧ status c k = some .queued := by
  have hsame : status (call.perform c now).2 k = status c k → Busy c k := by
    intro heq
    unfold Busy at h ⊢
    rwa [heq] at h
  have hfinish : ∀ {j : U} {st : JobStatus} {error : Option (ErrorDetail J)},
      (st = .failed ∨ st = .cancelled ∨ st = .interrupted) →
        Busy (c.finishJob j st error now).2 k → Busy c k := by
    intro j st error hst hb
    unfold Busy at hb ⊢
    rw [finishJob_status c j now error hst] at hb
    by_cases hk : k = j
    · rw [if_pos hk] at hb
      subst hk
      cases hold : status c k with
      | none => simp [hold] at hb
      | some old =>
        rw [hold] at hb
        by_cases ht : old.terminal = true
        · simpa [ht] using hb
        · rcases hst with rfl | rfl | rfl <;> simp [ht] at hb
    · rwa [if_neg hk] at hb
  cases call with
  | getJob j => exact Or.inl h
  | createJob kind payload j =>
    rcases createJob_status c j now kind payload k with heq | ⟨-, hq⟩
    · exact Or.inl (hsame heq)
    · rcases h with h | h <;> rw [StoreCall.perform, hq] at h <;> cases h
  | claimJob j =>
    by_cases hk : k = j ∧ status c j = some .queued
    · obtain ⟨rfl, hq⟩ := hk
      exact Or.inr ⟨rfl, hq⟩
    · exact Or.inl (hsame ((claimJob_status c j now k).trans (if_neg hk)))
  | completeJob j result =>
    by_cases hk : k = j ∧ status c j = some .running
    · obtain ⟨rfl, hr⟩ := hk
      exact Or.inl (Or.inl hr)
    · exact Or.inl (hsame ((completeJob_status c j now result k).trans (if_neg hk)))
  | failJob j error => exact Or.inl (hfinish (Or.inl rfl) h)
  | cancelJob j => exact Or.inl (hfinish (Or.inr (Or.inl rfl)) h)
  | interruptJob j => exact Or.inl (hfinish (Or.inr (Or.inr rfl)) h)
  | requeueJob j payload =>
    rcases requeueJob_status c j now payload k with heq | ⟨-, hq⟩
    · exact Or.inl (hsame heq)
    · rcases h with h | h <;> rw [StoreCall.perform, hq] at h <;> cases h
  | requestJobCancel j =>
    have hst := requestJobCancel_status c j now k
    by_cases hk : k = j
    · subst hk
      rw [if_pos rfl] at hst
      cases hold : status c k with
      | none =>
        rw [hold] at hst
        exact Or.inl (hsame (hst.trans hold.symm))
      | some old =>
        rw [hold, Option.map_some] at hst
        rcases status_cases old with rfl | rfl | rfl | ht
        · rcases h with h | h <;> rw [StoreCall.perform, hst] at h <;> simp [JobStatus.terminal] at h
        · exact Or.inl (Or.inl hold)
        · exact Or.inl (Or.inr hold)
        · rw [if_pos ht] at hst
          exact Or.inl (hsame (hst.trans hold.symm))
    · exact Or.inl (hsame (hst.trans (if_neg hk)))

/-- Only a re-queue takes a job out of a terminal status. -/
theorem perform_settled (call : StoreCall U J) (now : Nat) (h : Settled c k) :
    Settled (call.perform c now).2 k ∨ ∃ payload, call = .requeueJob k payload := by
  obtain ⟨st, hst, hterminal⟩ := h
  have hsame : status (call.perform c now).2 k = status c k →
      Settled (call.perform c now).2 k := fun heq => ⟨st, heq.trans hst, hterminal⟩
  have hfinish : ∀ {j : U} {st' : JobStatus} {error : Option (ErrorDetail J)},
      (st' = .failed ∨ st' = .cancelled ∨ st' = .interrupted) →
        status (c.finishJob j st' error now).2 k = status c k := by
    intro j st' error hst'
    rw [finishJob_status c j now error hst']
    by_cases hk : k = j
    · subst hk
      rw [if_pos rfl, hst, Option.map_some, if_pos hterminal]
    · exact if_neg hk
  cases call with
  | getJob j => exact Or.inl ⟨st, hst, hterminal⟩
  | createJob kind payload j =>
    rcases createJob_status c j now kind payload k with heq | ⟨hnone, -⟩
    · exact Or.inl (hsame heq)
    · rw [hnone] at hst
      cases hst
  | claimJob j =>
    refine Or.inl (hsame ((claimJob_status c j now k).trans (if_neg ?_)))
    rintro ⟨rfl, hq⟩
    rw [hst, Option.some.injEq] at hq
    rw [hq] at hterminal
    cases hterminal
  | completeJob j result =>
    refine Or.inl (hsame ((completeJob_status c j now result k).trans (if_neg ?_)))
    rintro ⟨rfl, hr⟩
    rw [hst, Option.some.injEq] at hr
    rw [hr] at hterminal
    cases hterminal
  | failJob j error => exact Or.inl (hsame (hfinish (Or.inl rfl)))
  | cancelJob j => exact Or.inl (hsame (hfinish (Or.inr (Or.inl rfl))))
  | interruptJob j => exact Or.inl (hsame (hfinish (Or.inr (Or.inr rfl))))
  | requeueJob j payload =>
    rcases requeueJob_status c j now payload k with heq | ⟨rfl, -⟩
    · exact Or.inl (hsame heq)
    · exact Or.inr ⟨payload, rfl⟩
  | requestJobCancel j =>
    refine Or.inl (hsame ((requestJobCancel_status c j now k).trans ?_))
    by_cases hk : k = j
    · subst hk
      rw [if_pos rfl, hst, Option.map_some, if_pos hterminal]
    · exact if_neg hk

/-- A call that is to end a job ends it. -/
theorem perform_finishes (now : Nat) (hf : call.finishes = true)
    (hexists : (status c call.jobId).isSome) :
    Settled (call.perform c now).2 call.jobId := by
  obtain ⟨old, hold⟩ := Option.isSome_iff_exists.mp hexists
  have hfinish : ∀ {st : JobStatus} {error : Option (ErrorDetail J)},
      (st = .failed ∨ st = .cancelled ∨ st = .interrupted) →
        Settled (c.finishJob call.jobId st error now).2 call.jobId := by
    intro st error hst
    unfold Settled
    rw [finishJob_status c call.jobId now error hst, if_pos rfl, hold, Option.map_some]
    refine ⟨_, rfl, ?_⟩
    by_cases ht : old.terminal = true
    · rwa [if_pos ht]
    · rw [if_neg ht]
      rcases hst with rfl | rfl | rfl <;> rfl
  cases call with
  | failJob j error => exact hfinish (Or.inl rfl)
  | cancelJob j => exact hfinish (Or.inr (Or.inl rfl))
  | interruptJob j => exact hfinish (Or.inr (Or.inr rfl))
  | _ => cases hf

/-- What a call does to the tables is what a step of the store does. -/
theorem perform_step (call : StoreCall U J) (c : Jobs U J) (now : Nat) :
    (call.perform c now).2 = c ∨ ∃ a, (call.perform c now).2 = c.step now a := by
  cases call with
  | getJob j => exact Or.inl rfl
  | createJob kind payload j => exact Or.inr ⟨.create kind payload j, rfl⟩
  | claimJob j => exact Or.inr ⟨.claim j, rfl⟩
  | completeJob j result => exact Or.inr ⟨.complete j result, rfl⟩
  | failJob j error => exact Or.inr ⟨.fail j error, rfl⟩
  | cancelJob j => exact Or.inr ⟨.cancel j, rfl⟩
  | interruptJob j => exact Or.inr ⟨.interrupt j, rfl⟩
  | requeueJob j payload => exact Or.inr ⟨.requeue j payload, rfl⟩
  | requestJobCancel j => exact Or.inr ⟨.requestCancel j, rfl⟩

theorem step_exists (hsound : c.Sound) (a : JobStore.Action U J) (h : (status c k).isSome) :
    (status (c.step now a) k).isSome := by
  rw [status_isSome] at h ⊢
  obtain ⟨row, hrow⟩ := Option.isSome_iff_exists.mp h
  obtain ⟨row', hrow', -⟩ := hsound.onward hrow [(now, a)]
  exact Option.isSome_iff_exists.mpr ⟨row', hrow'⟩

theorem perform_exists (hsound : c.Sound) (h : (status c k).isSome) :
    (status (call.perform c now).2 k).isSome := by
  rcases perform_step call c now with heq | ⟨a, heq⟩
  · rwa [heq]
  · rw [heq]
    exact step_exists hsound a h

theorem perform_sound (hsound : c.Sound) : (call.perform c now).2.Sound := by
  rcases perform_step call c now with heq | ⟨a, heq⟩
  · rwa [heq]
  · rw [heq]
    exact hsound.step now a

theorem getJob_exists (h : c.getJob k = .ok row) : (status c k).isSome := by
  rw [getJob_status h]
  rfl

theorem createJob_reply {kind : String} {payload : J}
    (h : (c.createJob kind payload k now).1 = .ok row) :
    (status (c.createJob kind payload k now).2 k).isSome := by
  unfold Jobs.createJob at h ⊢
  by_cases hmem : k ∈ c.jobs
  · rw [if_pos hmem] at h
    cases h
  · rw [if_neg hmem] at h ⊢
    rw [commitJob_push_reply (Or.inl rfl)] at h
    exact getJob_exists h

theorem requeueJob_reply {payload : Option J} (h : (c.requeueJob k payload now).1 = .ok row) :
    (status (c.requeueJob k payload now).2 k).isSome := by
  unfold Jobs.requeueJob at h ⊢
  cases hget : c.getJob k with
  | error e =>
    rw [hget] at h
    cases h
  | ok old =>
    rw [hget] at h
    dsimp only at h ⊢
    by_cases hopen : old.status = .queued ∨ old.status = .running
    · rw [if_pos hopen]
      exact getJob_exists hget
    · rw [if_neg hopen] at h ⊢
      by_cases hbad : ¬(old.status = .failed ∨ old.status = .cancelled ∨ old.status = .interrupted)
      · rw [if_pos hbad] at h
        cases h
      · rw [if_neg hbad] at h ⊢
        rw [commitJob_push_reply (Or.inl rfl)] at h
        exact getJob_exists h

end Perform

/-! ### Restart -/

section Restart

variable {c : Jobs U J}

theorem recoverJob_status (now : Nat) {e : Sigma fun _ : U => Job J}
    (hrow : c.jobs.lookup e.1 = some e.2) :
    ∃ c', Jobs.recoverJob now c e = .ok c' ∧ ¬Busy c' e.1 ∧
      ∀ k, k ≠ e.1 → c'.jobs.lookup k = c.jobs.lookup k := by
  have hpush : ∀ (set : Job J → Job J) (level : JobEventLevel) (st : JobStatus),
      (set e.2).status = st → (st = .queued ∨ st = .interrupted) →
        ∃ c', (c.updateJob e.1 set).pushState e.1 level st (some "service_restarted") none now =
            .ok c' ∧ ¬Busy c' e.1 ∧ ∀ k, k ≠ e.1 → c'.jobs.lookup k = c.jobs.lookup k := by
    intro set level st hset hst
    obtain ⟨c', hc'⟩ := Jobs.pushState_total (c.updateJob e.1 set) e.1 level st
      (some "service_restarted") now (Or.inl rfl)
    refine ⟨c', hc', ?_, ?_⟩
    · unfold Busy status
      rw [(Jobs.pushState_ok hc').1, Jobs.lookup_updateJob, if_pos rfl, hrow]
      rcases hst with rfl | rfl <;> simp [hset]
    · intro k hk
      rw [(Jobs.pushState_ok hc').1, Jobs.lookup_updateJob, if_neg hk]
  unfold Jobs.recoverJob
  split
  · exact hpush _ _ _ rfl (Or.inl rfl)
  · exact hpush _ _ _ rfl (Or.inr rfl)

theorem recoverRows_status (now : Nat) {rows : List (Sigma fun _ : U => Job J)}
    (hnodup : rows.NodupKeys)
    (hrows : ∀ e ∈ rows, c.jobs.lookup e.1 = some e.2) :
    ∃ c', rows.foldlM (Jobs.recoverJob now) c = .ok c' ∧ (∀ e ∈ rows, ¬Busy c' e.1) ∧
      ∀ k, k ∉ rows.keys → c'.jobs.lookup k = c.jobs.lookup k := by
  induction rows generalizing c with
  | nil => exact ⟨c, rfl, by simp, fun _ _ => rfl⟩
  | cons e rows ih =>
    obtain ⟨d, hd, hbusy, hother⟩ := recoverJob_status now (hrows e mem_cons_self)
    obtain ⟨hfresh, hnodup⟩ := nodupKeys_cons.mp hnodup
    have hkept : ∀ f ∈ rows, d.jobs.lookup f.1 = some f.2 := by
      intro f hf
      have hne : f.1 ≠ e.1 := fun heq => hfresh (heq ▸ mem_keys_of_mem hf)
      rw [hother f.1 hne]
      exact hrows f (mem_cons_of_mem e hf)
    obtain ⟨c', hc', hrest, hstay⟩ := ih hnodup hkept
    refine ⟨c', ?_, ?_, ?_⟩
    · rw [foldlM_cons, hd]
      exact hc'
    · intro f hf
      rcases mem_cons.mp hf with rfl | hf
      · unfold Busy status at hbusy ⊢
        rwa [hstay f.1 hfresh]
      · exact hrest f hf
    · intro k hk
      rw [keys_cons, mem_cons, not_or] at hk
      rw [hstay k hk.2, hother k hk.1]

/-- After a restart no job is busy, and no job that had ended has changed. -/
theorem recover_status (c : Jobs U J) (now : Nat) (k : U) :
    ¬Busy (c.recoverInterruptedJobs now).2 k ∧
      (Settled c k → Settled (c.recoverInterruptedJobs now).2 k) := by
  unfold Jobs.recoverInterruptedJobs
  dsimp only
  obtain ⟨c', hc', hbusy, hstay⟩ := recoverRows_status now
    (c.jobs.nodupKeys.sublist filter_sublist) fun e he =>
      Table.lookup_of_mem_entries (mem_filter.mp he).1
  rw [hc']
  show ¬Busy c' k ∧ (Settled c k → Settled c' k)
  have hkeys : k ∈ (c.jobs.entries.filter fun e =>
      e.2.status = .running ∨ e.2.status = .cancelling).keys → Busy c k ∧ ¬Busy c' k := by
    intro hk
    obtain ⟨e, he, rfl⟩ := mem_map.mp hk
    obtain ⟨hmem, hstatus⟩ := mem_filter.mp he
    refine ⟨?_, hbusy e he⟩
    unfold Busy status
    rw [Table.lookup_of_mem_entries hmem]
    simpa using hstatus
  by_cases hk : k ∈ (c.jobs.entries.filter fun e =>
      e.2.status = .running ∨ e.2.status = .cancelling).keys
  · obtain ⟨hb, hnb⟩ := hkeys hk
    exact ⟨hnb, fun hs => absurd hb hs.not_busy⟩
  · have hsame : status c' k = status c k := by
      unfold status
      rw [hstay k hk]
    constructor
    · intro hb
      refine hk ?_
      unfold Busy at hb
      rw [hsame] at hb
      cases hrow : c.jobs.lookup k with
      | none => simp [status, hrow] at hb
      | some row =>
        have hmem : (⟨k, row⟩ : Sigma fun _ : U => Job J) ∈ c.jobs.entries :=
          AList.mem_lookup_iff.mp hrow
        refine mem_map.mpr ⟨⟨k, row⟩, mem_filter.mpr ⟨hmem, ?_⟩, rfl⟩
        simpa [status, hrow] using hb
    · rintro ⟨st, hst, hterminal⟩
      exact ⟨st, hsame.trans hst, hterminal⟩

end Restart

end TyloQuant.JobManager
