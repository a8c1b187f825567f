import TyloQuant.JobManager.Owners

/-!
# Orphaned jobs

A job is orphaned when it is running or cancelling although no task works on it and no store call
for it is in flight: it can then be neither retried nor deleted before the next restart.  A second
cancellation can leave one behind.  Along a run that does not take away an owner's last store call,
and does not queue a job again while an old claim of it is in flight, there is none; and two
handlers of one job never run together.
-/

namespace TyloQuant.JobManager

open Lib JobStore

variable {U J : Type}

/-! ### What the claim speaks of -/

/-- A manager over the tables that earlier calls have left. -/
def Manager.init [DecidableEq U] (calls : List (Nat × JobStore.Action U J)) : Manager U J :=
  { store := Jobs.exec {} calls }

/-- A task of the job that has not ended. -/
def HasTask (s : Manager U J) (jobId : U) : Prop :=
  ∃ e ∈ s.runs.entries, e.2.jobId = jobId ∧ e.2.live

/-- The coroutine waits for `recover_interrupted_jobs`, which is a store call for every job. -/
def Coroutine.recovers : Coroutine U J → Bool
  | .recovering _ false => true
  | _ => false

/-- A store call for the job that is in flight, other than those of its own task. -/
def Outstanding (s : Manager U J) (jobId : U) : Prop :=
  (∃ e ∈ s.coroutines.entries, e.2.recovers = true ∨ ∃ call ∈ e.2.call, call.jobId = jobId) ∨
    ∃ call ∈ s.orphans, call.jobId = jobId

variable [DecidableEq U]

/-- Nobody is left to end the job. -/
structure Orphaned (s : Manager U J) (jobId : U) : Prop where
  started : s.started = true
  noTask : ¬HasTask s jobId
  noCall : ¬Outstanding s jobId
  busy : status s.store jobId = some .running ∨ status s.store jobId = some .cancelling

theorem orphaned_iff {s : Manager U J} {jobId : U} :
    Orphaned s jobId ↔ s.started = true ∧ ¬HasTask s jobId ∧ ¬Outstanding s jobId ∧
      (status s.store jobId = some .running ∨ status s.store jobId = some .cancelling) :=
  ⟨fun h => ⟨h.started, h.noTask, h.noCall, h.busy⟩, fun h => ⟨h.1, h.2.1, h.2.2.1, h.2.2.2⟩⟩

instance [DecidableEq J] (s : Manager U J) (jobId : U) : Decidable (Orphaned s jobId) :=
  have : Decidable (HasTask s jobId) := inferInstanceAs (Decidable (∃ _ ∈ _, _))
  have : Decidable (Outstanding s jobId) :=
    inferInstanceAs (Decidable ((∃ _ ∈ _, _ ∨ ∃ _ ∈ _, _) ∨ ∃ _ ∈ _, _))
  decidable_of_iff _ orphaned_iff.symm

/-- Two handlers of one job that run at the same time. -/
def Overlapping (s : Manager U J) (t t' : Nat) : Prop :=
  ∃ task task' lane payload lane' payload', s.runs.lookup t = some task ∧
    s.runs.lookup t' = some task' ∧ task.jobId = task'.jobId ∧
    task.phase = .handling lane payload ∧ task'.phase = .handling lane' payload'

/-! ### Every run -/

section Runs

variable {cfg : Config U J} {s s' : Manager U J}

theorem Consistent.init (calls : List (Nat × JobStore.Action U J)) :
    Consistent (Manager.init calls) where
  sound := Jobs.sound_empty.exec calls
  fresh := fun t task ht => by cases ht
  mapped := fun t task ht => by cases ht
  locked := fun p c hp => by cases hp
  stopping := fun p ts hp => by cases hp
  known := fun t task ht => by cases ht
  orphaned := fun call hcall => by cases hcall
  answered := fun p c hp => by cases hp

theorem Cared.init (calls : List (Nat × JobStore.Action U J)) : Cared (Manager.init calls) where
  claims := fun jobId hclaim => by cases hclaim
  owned := fun hr => by cases hr.1

variable {acts : List (Action U J)}

theorem Consistent.run (h : Consistent s) (hrun : Lib.run (Manager.step cfg) s acts = some s') :
    Consistent s' :=
  run_invariant (fun _ _ _ hc _ hs => hc.step hs) h
    (Meets.of_forall fun _ _ => (trivial : True)) hrun

theorem Cared.run (h : Consistent s ∧ Cared s) (hok : Meets (Manager.step cfg) Admits s acts)
    (hrun : Lib.run (Manager.step cfg) s acts = some s') : Cared s' :=
  (run_invariant (I := fun s => Consistent s ∧ Cared s)
    (fun _ _ _ hc hok hs => ⟨hc.1.step hs, hc.2.step hc.1 hok hs⟩) h hok hrun).2

theorem Consistent.not_overlapping (h : Consistent s) {t t' : Nat} (hne : t ≠ t') :
    ¬Overlapping s t t' := by
  rintro ⟨task, task', lane, payload, lane', payload', ht, ht', hjob, hphase, hphase'⟩
  refine hne (h.unique ht ht' ?_ ?_ hjob)
  · intro hended
    rw [hended] at hphase
    cases hphase
  · intro hended
    rw [hended] at hphase'
    cases hphase'

omit [DecidableEq U] in
theorem Task.Owns.live {task : Task U J} (h : task.Owns) : task.live := by
  intro hended
  unfold Task.Owns at h
  rw [hended] at h
  exact h

theorem Cared.not_orphaned (h : Cared s) (jobId : U) : ¬Orphaned s jobId := by
  rintro ⟨hstarted, hnotask, hnocall, hbusy⟩
  have hrecovered : Recovered s := by
    refine ⟨hstarted, ?_⟩
    intro p goal hp
    exact hnocall (Or.inl ⟨⟨p, _⟩, AList.mem_lookup_iff.mp hp, Or.inl rfl⟩)
  rcases h.owned hrecovered jobId hbusy with ⟨t, task, ht, hj, ho⟩ | ⟨call, hcall, -, hj⟩
  · exact hnotask ⟨⟨t, task⟩, AList.mem_lookup_iff.mp ht, hj, ho.live⟩
  · exact hnocall (Or.inr ⟨call, hcall, hj⟩)

/-- **No orphaned job.**  In every run, whatever the handlers do and however the calls of the
    manager interleave, no two handlers of one job overlap; and no job is orphaned in a run that
    drops no store call by which a task was about to end a job, and queues no job again while a
    claim of one of its cancelled tasks is in flight. -/
theorem no_orphaned_job (cfg : Config U J) (calls : List (Nat × JobStore.Action U J))
    (acts : List (Action U J)) (s : Manager U J)
    (hrun : Lib.run (Manager.step cfg) (.init calls) acts = some s) :
    (∀ t t', t ≠ t' → ¬Overlapping s t t') ∧
      (Meets (Manager.step cfg) Admits (.init calls) acts → ∀ jobId, ¬Orphaned s jobId) := by
  have hc := Consistent.init (U := U) calls
  constructor
  · intro t t' hne
    exact (hc.run hrun).not_overlapping hne
  · intro hok jobId
    exact (Cared.run ⟨hc, .init calls⟩ hok hrun).not_orphaned jobId

end Runs

/-! ### A second cancellation -/

def sampleConfig : Config Nat Unit :=
  { handlers := ["kernel.test"], maxConcurrency := 2, json := fun _ => (), str := fun _ => "" }

/-- A job is submitted, its handler runs, and the user cancels it. -/
def cancelling : List (Action Nat Unit) :=
  [.invoke 0 (.submit "kernel.test" () 7), .resume 0, .serve 0 0, .resume 0, .serve 0 0, .resume 0,
    .serve 0 0, .resume 0, .run 0, .execute 0 1, .run 0, .run 0, .execute 0 1, .run 0, .execute 0 2,
    .run 0, .invoke 1 (.cancel 7), .serve 1 3, .resume 1, .cancelled 0 true,
    .handlerEnds 0 .cancelled]

/-- `cancel_job` runs, and the task ends. -/
def cancelledOnce : List (Action Nat Unit) := cancelling ++ [.execute 0 4, .run 0, .run 0]

/-- The user cancels the job again before `cancel_job` has begun. -/
def cancelledTwice : List (Action Nat Unit) :=
  cancelling ++ [.invoke 2 (.cancel 7), .serve 2 4, .resume 2, .cancelled 0 true, .run 0]

set_option maxRecDepth 4000 in
theorem cancelledOnce_settled :
    ∃ s, Lib.run (Manager.step sampleConfig) (.init []) cancelledOnce = some s ∧
      s.started = true ∧ status s.store 7 = some .cancelled ∧ ∀ jobId, ¬Orphaned s jobId := by
  have h : (Lib.run (Manager.step sampleConfig) (.init []) cancelledOnce).any
      (fun s => s.started && decide (status s.store 7 = some .cancelled)) = true := by decide
  have hok : Meets (Manager.step sampleConfig) Admits (.init []) cancelledOnce := by decide
  obtain ⟨s, hs, hfinal⟩ := (Option.any_eq_true _ _).mp h
  rw [Bool.and_eq_true] at hfinal
  exact ⟨s, hs, hfinal.1, of_decide_eq_true hfinal.2,
    (no_orphaned_job sampleConfig [] cancelledOnce s hs).2 hok⟩

set_option maxRecDepth 4000 in
/-- The job is left cancelling for good. -/
theorem cancelledTwice_orphaned :
    ∃ s, Lib.run (Manager.step sampleConfig) (.init []) cancelledTwice = some s ∧ Orphaned s 7 := by
  have h : (Lib.run (Manager.step sampleConfig) (.init []) cancelledTwice).any
      (fun s => decide (Orphaned s 7)) = true := by decide
  obtain ⟨s, hs, ho⟩ := (Option.any_eq_true _ _).mp h
  exact ⟨s, hs, of_decide_eq_true ho⟩

end TyloQuant.JobManager
