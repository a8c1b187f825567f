import TyloQuant.JobStore.Store
import TyloQuant.Lib.Outcome

/-!
# What an operation does to one job

The tables are read one job at a time: its row, if there is one, and its events.  Seen so, every
operation makes one of a few moves, for each job on its own.  This file says which, once; what
holds of the jobs is then a matter of the moves alone.
-/

namespace TyloQuant.JobStore

open Lib List

variable {U J : Type}

/-! ### The moves -/

/-- One job: its row and its events, oldest first. -/
structure View (U J : Type) where
  row : Option (Job J)
  log : List (JobEvent U J)

/-- The number that the next event of a log gets. -/
def nextOf (log : List (JobEvent U J)) : Nat := (log.map fun e => e.sequence).foldl max 0 + 1

/-- The log goes on with a change of state. -/
def Records (log : List (JobEvent U J)) (status : JobStatus) (log' : List (JobEvent U J)) : Prop :=
  ∃ e reason, log' = log ++ [e] ∧ e.sequence = nextOf log ∧ e.eventType = .state ∧
    e.data = .status status reason

/-- The log goes on with an event of another type. -/
def Notes (log log' : List (JobEvent U J)) : Prop :=
  ∃ e, log' = log ++ [e] ∧ e.sequence = nextOf log ∧ e.eventType ≠ .state

/-- The changes of a row that are recorded as a change of state. -/
inductive Change (now : Nat) (requeued : Prop) : Job J → Job J → Prop where
  | claim (row : Job J) (h : row.status = .queued) :
      Change now requeued row
        { row with status := .running, startedAt := some now, updatedAt := now }
  | withdraw (row : Job J) (h : row.status = .queued) :
      Change now requeued row
        { row with
          status := .cancelled, cancelRequested := true, updatedAt := now
          completedAt := some now }
  | requestCancel (row : Job J) (h : row.status = .running ∨ row.status = .cancelling) :
      Change now requeued row
        { row with
          status := .cancelling, cancelRequested := true, updatedAt := now, completedAt := none }
  | complete (row : Job J) (result : J) (h : row.status = .running) :
      Change now requeued row
        { row with
          status := .succeeded, progress := 1, result := some result, error := none
          updatedAt := now, completedAt := some now }
  | finish (row : Job J) (status : JobStatus) (error : Option (ErrorDetail J))
      (h : row.status.terminal = false)
      (hs : status = .failed ∨ status = .cancelled ∨ status = .interrupted) :
      Change now requeued row
        { row with status, error, updatedAt := now, completedAt := some now }
  | resume (row : Job J) (h : row.status = .running ∨ row.status = .cancelling)
      (hc : row.cancelRequested = false) :
      Change now requeued row
        { row with status := .queued, error := none, updatedAt := now, completedAt := none }
  | requeue (row : Job J) (payload : J) (hr : requeued)
      (h : row.status = .failed ∨ row.status = .cancelled ∨ row.status = .interrupted)
      (ha : row.archivedAt = none) :
      Change now requeued row
        { row with
          payload, status := .queued, cancelRequested := false, error := none, result := none
          startedAt := none, completedAt := none, updatedAt := now }

/-- The moves of one job. -/
inductive Move (now : Nat) (requeued : Prop) : View U J → View U J → Prop where
  | stay (v : View U J) : Move now requeued v v
  | create (row : Job J) (log log' : List (JobEvent U J)) (hs : row.status = .queued)
      (hp : row.progress = 0) (hc : row.cancelRequested = false) (hd : row.completedAt = none)
      (ha : row.archivedAt = none) (hlog : Records log .queued log') :
      Move now requeued ⟨none, log⟩ ⟨some row, log'⟩
  | note (row : Job J) (log log' : List (JobEvent U J)) (hlog : Notes log log') :
      Move now requeued ⟨some row, log⟩ ⟨some row, log'⟩
  | progress (row : Job J) (p : ℚ) (data : Option J) (log log' : List (JobEvent U J))
      (hp : row.progress ≤ p) (hle : p ≤ 1 ∨ p = row.progress) (hlog : Notes log log') :
      Move now requeued ⟨some row, log⟩
        ⟨some { row with progress := p, progressData := data, updatedAt := now }, log'⟩
  | archive (row : Job J) (log : List (JobEvent U J)) (h : row.status.terminal = true)
      (ha : row.archivedAt = none) :
      Move now requeued ⟨some row, log⟩ ⟨some { row with archivedAt := some now }, log⟩
  | change (row row' : Job J) (log log' : List (JobEvent U J)) (h : Change now requeued row row')
      (hlog : Records log row'.status log') :
      Move now requeued ⟨some row, log⟩ ⟨some row', log'⟩

variable [DecidableEq U]

def Jobs.view (c : Jobs U J) (jobId : U) : View U J := ⟨c.jobs.lookup jobId, c.eventsOf jobId⟩

/-- Whether a call asks to queue the job again. -/
def Action.requeues (a : Action U J) (jobId : U) : Bool :=
  match a with
  | .requeue j _ => j = jobId
  | _ => false

namespace Jobs

variable {c c' : Jobs U J} {jobId : U} {now : Nat} {requeued : Prop}

/-! ### Rows and events -/

theorem lookup_updateJob (c : Jobs U J) (jobId k : U) (set : Job J → Job J) :
    (c.updateJob jobId set).jobs.lookup k =
      if k = jobId then (c.jobs.lookup k).map set else c.jobs.lookup k := by
  unfold updateJob
  by_cases hk : k = jobId
  · subst hk
    rw [if_pos rfl]
    cases hrow : c.jobs.lookup k with
    | none => simp only [hrow, Option.map_none]
    | some row => simp only [Table.lookup_insert_ite, if_pos, Option.map_some]
  · rw [if_neg hk]
    cases hrow : c.jobs.lookup jobId with
    | none => rfl
    | some row => simp only [Table.lookup_insert_ite, if_neg hk]

@[simp] theorem events_updateJob (c : Jobs U J) (jobId : U) (set : Job J → Job J) :
    (c.updateJob jobId set).events = c.events := by
  unfold updateJob
  cases c.jobs.lookup jobId <;> rfl

variable {level : JobEventLevel} {progress : Option ℚ}

/-- An event goes to the end of its own job's log. -/
theorem pushEvent_ok {eventType : JobEventType} {message : Option String} {data : EventData J}
    (h : c.pushEvent jobId eventType level message progress data now = .ok c') :
    c'.jobs = c.jobs ∧ (∀ k, k ≠ jobId → c'.eventsOf k = c.eventsOf k) ∧
      ∃ e, c'.eventsOf jobId = c.eventsOf jobId ++ [e] ∧ e.sequence = nextOf (c.eventsOf jobId) ∧
        e.eventType = eventType ∧ e.data = data := by
  unfold pushEvent at h
  split at h
  · rw [Except.ok.injEq] at h
    subst h
    refine ⟨rfl, ?_, ?_⟩
    · intro k hk
      simp [eventsOf, filter_append, Ne.symm hk]
    · refine ⟨⟨jobId, nextOf (c.eventsOf jobId), eventType, level, message, progress, data, now⟩,
        ?_, rfl, rfl, rfl⟩
      simp [eventsOf, filter_append, nextSequence, nextOf]
  · cases h

/-- A change of state is always recorded: its progress is in range. -/
theorem pushState_total (c : Jobs U J) (jobId : U) (level : JobEventLevel) (status : JobStatus)
    (reason : Option String) (now : Nat) (hp : progress = none ∨ progress = some 1) :
    ∃ c', c.pushState jobId level status reason progress now = .ok c' := by
  have hrange : ∀ p ∈ progress, (0 : ℚ) ≤ p ∧ p ≤ 1 := by
    rcases hp with rfl | rfl
    · simp
    · simp
  unfold pushState pushEvent
  rw [if_pos hrange]
  exact ⟨_, rfl⟩

variable {status : JobStatus} {reason : Option String}

theorem pushState_ok (h : c.pushState jobId level status reason progress now = .ok c') :
    c'.jobs = c.jobs ∧ (∀ k, k ≠ jobId → c'.eventsOf k = c.eventsOf k) ∧
      Records (c.eventsOf jobId) status (c'.eventsOf jobId) := by
  obtain ⟨hjobs, hother, e, hlog, hseq, htype, hdata⟩ := pushEvent_ok h
  exact ⟨hjobs, hother, e, reason, hlog, hseq, htype, hdata⟩

/-! ### One job at a time -/

/-- Only the job `jobId` moves. -/
def Moves (now : Nat) (requeued : Prop) (jobId : U) (c c' : Jobs U J) : Prop :=
  Move now requeued (c.view jobId) (c'.view jobId) ∧ ∀ k, k ≠ jobId → c'.view k = c.view k

theorem Moves.refl (c : Jobs U J) : Moves now requeued jobId c c := ⟨.stay _, fun _ _ => rfl⟩

variable {row : Job J} {set : Job J → Job J}

theorem moves_of_change (hrow : c.jobs.lookup jobId = some row)
    (hchange : Change now requeued row (set row)) (hstatus : (set row).status = status)
    (h : (c.updateJob jobId set).pushState jobId level status reason progress now = .ok c') :
    Moves now requeued jobId c c' := by
  obtain ⟨hjobs, hother, hlog⟩ := pushState_ok h
  have hevents : ∀ k, (c.updateJob jobId set).eventsOf k = c.eventsOf k := by
    intro k
    simp [eventsOf]
  constructor
  · unfold view
    rw [hjobs, lookup_updateJob, if_pos rfl, hrow, Option.map_some]
    rw [hevents, ← hstatus] at hlog
    exact .change row (set row) _ _ hchange hlog
  · intro k hk
    unfold view
    rw [hjobs, lookup_updateJob, if_neg hk, hother k hk, hevents]

omit [DecidableEq U] in
/-- What a transaction leaves, when everything its body may leave is allowed. -/
theorem commit_keeps {α : Type} {P : Jobs U J → Prop}
    {body : Except (StorageError U) (α × Jobs U J)} (hc : P c)
    (h : ∀ a c', body = .ok (a, c') → P c') : P (commit c body).2 := by
  rcases body with e | ⟨a, c'⟩
  · exact hc
  · exact h a c' rfl

theorem commitJob_keeps {P : Jobs U J → Prop}
    {body : Except (StorageError U) (Option (Job J) × Jobs U J)} (hc : P c)
    (h : ∀ a c', body = .ok (a, c') → P c') : P (c.commitJob jobId body).2 := by
  have hcommit : P (commit c body).2 := commit_keeps hc h
  unfold commitJob
  rcases hb : commit c body with ⟨_ | (_ | row), c'⟩ <;> rw [hb] at hcommit <;> exact hcommit

theorem moves_of_push {α : Type} {a a' : α} (hrow : c.jobs.lookup jobId = some row)
    (hchange : Change now requeued row (set row)) (hstatus : (set row).status = status)
    (h : (do
      let c' ← (c.updateJob jobId set).pushState jobId level status reason progress now
      pure (a, c')) = (.ok (a', c') : Except (StorageError U) (α × Jobs U J))) :
    Moves now requeued jobId c c' := by
  obtain ⟨d, hd, hpure⟩ := bind_eq_ok.mp h
  obtain ⟨-, rfl⟩ := Prod.mk.inj (pure_eq_ok.mp hpure)
  exact moves_of_change hrow hchange hstatus hd

/-- A method of the job's row, which fails without one. -/
theorem commitRow_moves {body : Job J → Except (StorageError U) (Option (Job J) × Jobs U J)}
    (h : ∀ row, c.jobs.lookup jobId = some row → ∀ a c', body row = .ok (a, c') →
      Moves now requeued jobId c c') :
    Moves now requeued jobId c (c.commitJob jobId
      (match c.jobs.lookup jobId with
      | none => .error (.jobNotFound jobId)
      | some row => body row)).2 := by
  refine commitJob_keeps (P := Moves now requeued jobId c) (Moves.refl c) fun a c' hbody => ?_
  cases hrow : c.jobs.lookup jobId with
  | none =>
    rw [hrow] at hbody
    cases hbody
  | some row =>
    rw [hrow] at hbody
    exact h row hrow a c' hbody

/-! ### The operations -/

theorem createJob_moves (c : Jobs U J) (kind : String) (payload : J) (jobId : U) (now : Nat) :
    Moves now requeued jobId c (c.createJob kind payload jobId now).2 := by
  unfold createJob
  refine commitJob_keeps (P := Moves now requeued jobId c) (Moves.refl c) ?_
  intro a c' h
  split at h
  · cases h
  · rename_i habsent
    obtain ⟨d, hd, hpure⟩ := bind_eq_ok.mp h
    obtain ⟨-, rfl⟩ := Prod.mk.inj (pure_eq_ok.mp hpure)
    obtain ⟨hjobs, hother, hlog⟩ := pushState_ok hd
    have hnone : c.jobs.lookup jobId = none := AList.lookup_eq_none.mpr habsent
    constructor
    · unfold view
      rw [hjobs, Table.lookup_insert_ite, if_pos rfl, hnone]
      exact .create _ _ _ rfl rfl rfl rfl rfl hlog
    · intro k hk
      unfold view
      rw [hjobs, Table.lookup_insert_ite, if_neg hk, hother k hk]
      rfl

/-- A job that `get_job` finds is not archived. -/
theorem getJob_ok (h : c.getJob jobId = .ok row) :
    c.jobs.lookup jobId = some row ∧ row.archivedAt = none := by
  unfold getJob at h
  cases hrow : c.jobs.lookup jobId with
  | none =>
    rw [hrow] at h
    cases h
  | some row' =>
    rw [hrow] at h
    dsimp only at h
    split at h
    · rename_i ha
      cases h
      exact ⟨rfl, ha⟩
    · cases h

theorem moves_of_update (hrow : c.jobs.lookup jobId = some row)
    (hmove : ∀ log : List (JobEvent U J), Move now requeued ⟨some row, log⟩ ⟨some (set row), log⟩) :
    Moves now requeued jobId c (c.updateJob jobId set) := by
  have hevents : ∀ k, (c.updateJob jobId set).eventsOf k = c.eventsOf k := by
    intro k
    simp [eventsOf]
  constructor
  · unfold view
    rw [lookup_updateJob, if_pos rfl, hrow, Option.map_some, hevents]
    exact hmove _
  · intro k hk
    unfold view
    rw [lookup_updateJob, if_neg hk, hevents]

theorem archiveJob_moves (c : Jobs U J) (jobId : U) (now : Nat) :
    Moves now requeued jobId c (c.archiveJob jobId now).2 := by
  unfold archiveJob
  refine commit_keeps (P := Moves now requeued jobId c) (Moves.refl c) ?_
  intro a c' h
  cases hget : c.getJob jobId with
  | error e =>
    rw [hget] at h
    cases h
  | ok row =>
    rw [hget] at h
    dsimp only at h
    split at h
    · rename_i hterminal
      cases h
      obtain ⟨hrow, ha⟩ := getJob_ok hget
      exact moves_of_update hrow fun log => .archive row log hterminal ha
    · cases h

theorem archiveCompletedJobs_move (c : Jobs U J) (now : Nat) (jobId : U) :
    Move now requeued (c.view jobId) ((c.archiveCompletedJobs now).2.view jobId) := by
  have hevents : (c.archiveCompletedJobs now).2.eventsOf jobId = c.eventsOf jobId := rfl
  unfold view
  rw [hevents]
  unfold archiveCompletedJobs
  dsimp only
  rw [Table.lookup_mapVal]
  cases hrow : c.jobs.lookup jobId with
  | none => exact .stay _
  | some row =>
    rw [Option.map_some]
    by_cases h : archivable row = true
    · rw [if_pos h]
      unfold archivable at h
      rw [Bool.and_eq_true, Option.isNone_iff_eq_none] at h
      exact .archive row _ h.2 h.1
    · rw [if_neg h]
      exact .stay _

theorem requeueJob_moves (c : Jobs U J) (jobId : U) (payload : Option J) (now : Nat)
    (hr : requeued) : Moves now requeued jobId c (c.requeueJob jobId payload now).2 := by
  unfold requeueJob
  refine commitJob_keeps (P := Moves now requeued jobId c) (Moves.refl c) ?_
  intro a c' h
  cases hget : c.getJob jobId with
  | error e =>
    rw [hget] at h
    cases h
  | ok row =>
    rw [hget] at h
    dsimp only at h
    obtain ⟨hrow, ha⟩ := getJob_ok hget
    split at h
    · cases h
      exact Moves.refl c
    · split at h
      · cases h
      · rename_i hstatus
        exact moves_of_push hrow (.requeue row _ hr (not_not.mp hstatus) ha) rfl h

theorem claimJob_moves (c : Jobs U J) (jobId : U) (now : Nat) :
    Moves now requeued jobId c (c.claimJob jobId now).2 := by
  unfold claimJob
  refine commitRow_moves fun row hrow a c' h => ?_
  split at h
  · cases h
    exact Moves.refl c
  · rename_i hqueued
    exact moves_of_push hrow (.claim row (not_not.mp hqueued)) rfl h

theorem updateJobProgress_moves (c : Jobs U J) (jobId : U) (progress : ℚ)
    (message : Option String) (data : Option J) (now : Nat) :
    Moves now requeued jobId c (c.updateJobProgress jobId progress message data now).2 := by
  unfold updateJobProgress
  split
  · exact Moves.refl c
  · rename_i hrange
    refine commitRow_moves fun row hrow a c' h => ?_
    split at h
    · cases h
    · obtain ⟨d, hd, hpure⟩ := bind_eq_ok.mp h
      obtain ⟨-, rfl⟩ := Prod.mk.inj (pure_eq_ok.mp hpure)
      obtain ⟨hjobs, hother, e, hlog, hseq, htype, -⟩ := pushEvent_ok hd
      simp only [eventsOf, events_updateJob] at hother hlog hseq
      have hnotes : Notes (c.eventsOf jobId) (d.eventsOf jobId) := by
        refine ⟨e, hlog, hseq, ?_⟩
        rw [htype]
        decide
      have hmax : max row.progress progress ≤ 1 ∨ max row.progress progress = row.progress := by
        rcases max_cases row.progress progress with ⟨hm, -⟩ | ⟨hm, -⟩
        · exact Or.inr hm
        · exact Or.inl (hm.trans_le (not_not.mp hrange).2)
      constructor
      · unfold view
        rw [hjobs, lookup_updateJob, if_pos rfl, hrow, Option.map_some]
        exact .progress row _ _ _ _ (le_max_left _ _) hmax hnotes
      · intro k hk
        unfold view
        rw [hjobs, lookup_updateJob, if_neg hk]
        exact congrArg _ (hother k hk)

theorem appendJobEvent_moves (c : Jobs U J) (jobId : U) {eventType : JobEventType}
    (htype : eventType ≠ .state) (level : JobEventLevel) (message : Option String)
    (progress : Option ℚ) (data : Option J) (now : Nat) :
    Moves now requeued jobId c
      (c.appendJobEvent jobId eventType level message progress data now).2 := by
  unfold appendJobEvent
  refine commit_keeps (P := Moves now requeued jobId c) (Moves.refl c) ?_
  intro a c' h
  split at h
  · rename_i hmem
    obtain ⟨row, hrow⟩ := (Table.mem_iff _ _).mp hmem
    obtain ⟨d, hd, hpure⟩ := bind_eq_ok.mp h
    obtain ⟨-, rfl⟩ := Prod.mk.inj (pure_eq_ok.mp hpure)
    obtain ⟨hjobs, hother, e, hlog, hseq, he, -⟩ := pushEvent_ok hd
    constructor
    · unfold view
      rw [hjobs, hrow]
      exact .note row _ _ ⟨e, hlog, hseq, he ▸ htype⟩
    · intro k hk
      unfold view
      rw [hjobs, hother k hk]
  · cases h

theorem requestJobCancel_moves (c : Jobs U J) (jobId : U) (now : Nat) :
    Moves now requeued jobId c (c.requestJobCancel jobId now).2 := by
  unfold requestJobCancel
  refine commitRow_moves fun row hrow a c' h => ?_
  split at h
  · cases h
    exact Moves.refl c
  · rename_i hterminal
    by_cases hqueued : row.status = .queued
    · simp only [if_pos hqueued] at h
      exact moves_of_push hrow (.withdraw row hqueued) rfl h
    · simp only [if_neg hqueued] at h
      have hstatus : row.status = .running ∨ row.status = .cancelling := by
        cases hs : row.status <;> simp_all [JobStatus.terminal]
      exact moves_of_push hrow (.requestCancel row hstatus) rfl h

theorem completeJob_moves (c : Jobs U J) (jobId : U) (result : J) (now : Nat) :
    Moves now requeued jobId c (c.completeJob jobId result now).2 := by
  unfold completeJob
  refine commitRow_moves fun row hrow a c' h => ?_
  split at h
  · cases h
    exact Moves.refl c
  · split at h
    · cases h
    · rename_i hrunning
      exact moves_of_push hrow (.complete row result (not_not.mp hrunning)) rfl h

theorem finishJob_moves (c : Jobs U J) (jobId : U) (status : JobStatus)
    (error : Option (ErrorDetail J)) (now : Nat) :
    Moves now requeued jobId c (c.finishJob jobId status error now).2 := by
  unfold finishJob
  split
  · exact Moves.refl c
  · rename_i hstatus
    refine commitRow_moves fun row hrow a c' h => ?_
    split at h
    · cases h
      exact Moves.refl c
    · rename_i hterminal
      have hopen : row.status.terminal = false := Bool.eq_false_iff.mpr hterminal
      exact moves_of_push hrow (.finish row status error hopen (not_not.mp hstatus)) rfl h

/-! ### Restart -/

theorem recoverJob_moves (requeued : Prop) (hrow : c.jobs.lookup jobId = some row)
    (hstatus : row.status = .running ∨ row.status = .cancelling)
    (h : recoverJob now c ⟨jobId, row⟩ = .ok c') : Moves now requeued jobId c c' := by
  unfold recoverJob at h
  split at h
  · rename_i hresumable
    unfold resumable at hresumable
    rw [Bool.and_eq_true, Bool.not_eq_true'] at hresumable
    exact moves_of_change hrow (.resume row hstatus hresumable.2) rfl h
  · have hopen : row.status.terminal = false := by
      rcases hstatus with hs | hs <;> rw [hs] <;> rfl
    exact moves_of_change hrow (.finish row .interrupted _ hopen (by simp)) rfl h

/-- Every selected job moves once, the others stay. -/
theorem recoverRows_moves {rows : List (Sigma fun _ : U => Job J)} (hnodup : rows.NodupKeys)
    (hrows : ∀ e ∈ rows, c.jobs.lookup e.1 = some e.2 ∧
      (e.2.status = .running ∨ e.2.status = .cancelling))
    (h : rows.foldlM (recoverJob now) c = .ok c') (k : U) :
    Move now requeued (c.view k) (c'.view k) ∧
      ((∀ e ∈ rows, e.1 ≠ k) → c'.view k = c.view k) := by
  induction rows generalizing c with
  | nil =>
    cases h
    exact ⟨.stay _, fun _ => rfl⟩
  | cons e rows ih =>
    rw [foldlM_cons] at h
    obtain ⟨d, hd, hrest⟩ := bind_eq_ok.mp h
    obtain ⟨hrow, hstatus⟩ := hrows e mem_cons_self
    obtain ⟨hmove, hother⟩ := recoverJob_moves requeued hrow hstatus hd
    obtain ⟨hfresh, hnodup⟩ := nodupKeys_cons.mp hnodup
    have hdistinct : ∀ f ∈ rows, f.1 ≠ e.1 := by
      intro f hf heq
      exact hfresh (heq ▸ mem_keys_of_mem hf)
    have hkept : ∀ f ∈ rows, d.jobs.lookup f.1 = some f.2 ∧
        (f.2.status = .running ∨ f.2.status = .cancelling) := by
      intro f hf
      obtain ⟨hlookup, hs⟩ := hrows f (mem_cons_of_mem e hf)
      have hview := congrArg View.row (hother f.1 (hdistinct f hf))
      exact ⟨hview.trans hlookup, hs⟩
    obtain ⟨hmove', hother'⟩ := ih hnodup hkept hrest
    by_cases hk : k = e.1
    · subst hk
      have hstay : c'.view e.1 = d.view e.1 := hother' hdistinct
      constructor
      · rw [hstay]
        exact hmove
      · intro hnone
        exact absurd rfl (hnone e mem_cons_self)
    · have hstay : d.view k = c.view k := hother k hk
      constructor
      · rw [← hstay]
        exact hmove'
      · intro hnone
        rw [hother' fun f hf => hnone f (mem_cons_of_mem e hf), hstay]

theorem recoverInterruptedJobs_move (c : Jobs U J) (now : Nat) (k : U) :
    Move now requeued (c.view k) ((c.recoverInterruptedJobs now).2.view k) := by
  unfold recoverInterruptedJobs
  refine commit_keeps (P := fun c' => Move now requeued (c.view k) (c'.view k)) (.stay _) ?_
  intro a c' h
  obtain ⟨d, hd, hpure⟩ := bind_eq_ok.mp h
  obtain ⟨-, rfl⟩ := Prod.mk.inj (pure_eq_ok.mp hpure)
  refine (recoverRows_moves ?_ ?_ hd k).1
  · exact c.jobs.nodupKeys.sublist filter_sublist
  · intro e he
    obtain ⟨hmem, hstatus⟩ := mem_filter.mp he
    exact ⟨Table.lookup_of_mem_entries hmem, of_decide_eq_true hstatus⟩

/-! ### Every call -/

/-- **One call moves each job once.** -/
theorem step_move (c : Jobs U J) (now : Nat) (a : Action U J) (k : U) :
    Move now (a.requeues k = true) (c.view k) ((c.step now a).view k) := by
  have hone : ∀ {jobId : U} {c' : Jobs U J}, Moves now (a.requeues k = true) jobId c c' →
      Move now (a.requeues k = true) (c.view k) (c'.view k) := by
    intro jobId c' h
    by_cases hk : k = jobId
    · subst hk
      exact h.1
    · rw [h.2 k hk]
      exact .stay _
  cases a with
  | create kind payload jobId => exact hone (createJob_moves c kind payload jobId now)
  | claim jobId => exact hone (claimJob_moves c jobId now)
  | updateProgress jobId progress message data =>
    exact hone (updateJobProgress_moves c jobId progress message data now)
  | appendEvent jobId eventType level message progress data =>
    exact hone (appendJobEvent_moves c jobId eventType.2 level message progress data now)
  | requestCancel jobId => exact hone (requestJobCancel_moves c jobId now)
  | complete jobId result => exact hone (completeJob_moves c jobId result now)
  | fail jobId error => exact hone (finishJob_moves c jobId .failed (some error) now)
  | cancel jobId => exact hone (finishJob_moves c jobId .cancelled none now)
  | interrupt jobId => exact hone (finishJob_moves c jobId .interrupted _ now)
  | requeue jobId payload =>
    by_cases hk : k = jobId
    · subst hk
      exact (requeueJob_moves c k payload now (by simp [Action.requeues])).1
    · have hmoves : Moves now True jobId c (c.requeueJob jobId payload now).2 :=
        requeueJob_moves c jobId payload now trivial
      have hother := hmoves.2 k hk
      show Move now _ (c.view k) ((c.requeueJob jobId payload now).2.view k)
      rw [hother]
      exact .stay _
  | recover => exact recoverInterruptedJobs_move c now k
  | archive jobId => exact hone (archiveJob_moves c jobId now)
  | archiveCompleted => exact archiveCompletedJobs_move c now k

end Jobs

end TyloQuant.JobStore
