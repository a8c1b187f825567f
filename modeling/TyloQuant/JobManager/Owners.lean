import TyloQuant.JobManager.Tasks

/-!
# Who ends a busy job

A busy job has an owner: a task that will still end it, or a store call in flight that does.  A
claim that outlives its task could make a job busy behind the owner's back; it comes too late
as long as the job has ended, or is about to be, when the claim runs.

Two things break this.  A cancellation may drop the very store call that ends the job, and a job
may be queued again while such a claim is still on its way.
-/

namespace TyloQuant.JobManager

open Lib JobStore List

variable {U J : Type}

/-! ### Owners -/

/-- The task is still going to end its job. -/
def Task.Owns (task : Task U J) : Prop :=
  match task.phase, task.reply with
  | .handling _ _, _ => True
  | .claiming _, some (.ok job) => job.status = .running ∨ job.status = .cancelling
  | .completing _ _, none | .completing _ _, some (.error _) => True
  | .failing _, none | .cancelling, none | .interrupting, none => True
  | _, _ => False

/-- The task waits for the store call by which an `except` clause ends the job. -/
def Task.ending (task : Task U J) : Bool :=
  match task.phase, task.reply with
  | .failing _, none | .cancelling, none | .interrupting, none => true
  | _, _ => false

/-- As `Ending`, for the clause that follows a cancellation. -/
def Task.Unwinding (task : Task U J) : Prop :=
  match task.phase, task.reply with
  | .cancelling, none | .interrupting, none => True
  | _, _ => False

def Owned (s : Manager U J) (jobId : U) : Prop :=
  ∃ t task, s.runs.lookup t = some task ∧ task.jobId = jobId ∧ task.Owns

def Unwound (s : Manager U J) (jobId : U) : Prop :=
  ∃ t task, s.runs.lookup t = some task ∧ task.jobId = jobId ∧ task.Unwinding

/-- A store call that ends the job is in flight. -/
def Finishing (s : Manager U J) (jobId : U) : Prop :=
  ∃ call ∈ s.orphans, call.finishes = true ∧ call.jobId = jobId

/-- The manager is started, and the jobs that an earlier process left are recovered. -/
def Recovered (s : Manager U J) : Prop :=
  s.started = true ∧ ∀ p goal, s.coroutines.lookup p ≠ some (.recovering goal false)

def StoreCall.requeues : StoreCall U J → Bool
  | .requeueJob _ _ => true
  | _ => false

variable [DecidableEq U]

structure Cared (s : Manager U J) : Prop where
  claims : ∀ jobId, .claimJob jobId ∈ s.orphans →
    Settled s.store jobId ∨ Unwound s jobId ∨ Finishing s jobId
  owned : Recovered s → ∀ jobId, Busy s.store jobId → Owned s jobId ∨ Finishing s jobId

/-- Where no claim of a cancelled task of its job is in flight, a job may be queued again. -/
def RequeueSafe (s : Manager U J) (call : Option (StoreCall U J)) : Prop :=
  ∀ c ∈ call, c.requeues = true → .claimJob c.jobId ∉ s.orphans

/-- What a run must not do: drop the store call that ends a job which has not ended, or queue a
    job again while a claim of a cancelled task of it is in flight. -/
def Admits (s : Manager U J) : Action U J → Prop
  | .cancelled t drop =>
    ∀ task ∈ s.runs.lookup t, drop = true → task.ending = true → Settled s.store task.jobId
  | .execute t _ =>
    ∀ task ∈ s.runs.lookup t, RequeueSafe s (task.phase.call task.jobId)
  | .serve p _ => ∀ c ∈ s.coroutines.lookup p, RequeueSafe s c.call
  | .late index _ => RequeueSafe s s.orphans[index]?
  | _ => True

instance (c : Jobs U J) (jobId : U) : Decidable (Settled c jobId) :=
  decidable_of_iff ((status c jobId).any JobStatus.terminal = true) (Option.any_eq_true _ _)

section

variable [DecidableEq J]

instance (s : Manager U J) (call : Option (StoreCall U J)) : Decidable (RequeueSafe s call) :=
  inferInstanceAs (Decidable (∀ _ ∈ _, _))

instance (s : Manager U J) : (a : Action U J) → Decidable (Admits s a)
  | .cancelled _ _ => inferInstanceAs (Decidable (∀ _ ∈ _, _))
  | .execute _ _ => inferInstanceAs (Decidable (∀ _ ∈ _, _))
  | .serve _ _ => inferInstanceAs (Decidable (∀ _ ∈ _, _))
  | .late _ _ => inferInstanceAs (Decidable (RequeueSafe _ _))
  | .invoke _ _ | .resume _ | .run _ | .handlerEnds _ _ | .callback _ =>
    inferInstanceAs (Decidable True)

end

/-! ### Tasks -/

section Motion

omit [DecidableEq U]

variable {task task' : Task U J} {closing : Bool}

theorem Task.Unwinding.owns (h : task.Unwinding) : task.Owns := by
  unfold Task.Unwinding at h
  unfold Task.Owns
  split at h
  · rename_i hp hr
    simp [hp, hr]
  · rename_i hp hr
    simp [hp, hr]
  · exact h.elim

theorem Task.unwind_unwinding (task : Task U J) (closing : Bool) :
    (task.unwind closing).Unwinding := by
  cases closing <;> exact trivial

theorem Task.Owns.proceed {cfg : Config U J} (h : task.Owns)
    (hs : task.proceed cfg closing = some task') : task'.Owns := by
  obtain ⟨jobId, phase, reply, mustCancel, cancelEvent⟩ := task
  cases phase with
  | handling lane payload => cases reply <;> simp [Task.proceed] at hs
  | claiming lane =>
    rcases reply with _ | (e | job)
    · exact h.elim
    · exact h.elim
    · simp only [Task.proceed] at hs
      split at hs
      · cases hs
        exact (Task.unwind_unwinding _ _).owns
      · rename_i hne
        have hr : job.status = .running := (h : _ ∨ _).resolve_right hne
        rw [if_neg (not_not.mpr hr)] at hs
        cases hs
        exact trivial
  | completing lane result =>
    rcases reply with _ | (e | job)
    · simp [Task.proceed] at hs
    · cases hs
      exact trivial
    · exact h.elim
  | failing detail =>
    rcases reply with _ | r
    · simp [Task.proceed] at hs
    · exact h.elim
  | cancelling =>
    rcases reply with _ | r
    · simp [Task.proceed] at hs
    · exact h.elim
  | interrupting =>
    rcases reply with _ | r
    · simp [Task.proceed] at hs
    · exact h.elim
  | _ => exact h.elim

theorem Task.Unwinding.proceed {cfg : Config U J} (h : task.Unwinding) :
    task.proceed cfg closing = none := by
  obtain ⟨jobId, phase, reply, mustCancel, cancelEvent⟩ := task
  cases phase with
  | cancelling =>
    rcases reply with _ | r
    · rfl
    · exact h.elim
  | interrupting =>
    rcases reply with _ | r
    · rfl
    · exact h.elim
  | _ => exact h.elim

theorem Task.handled_owns {cfg : Config U J} (lane : Lane) (outcome : Outcome J) :
    (task.handled cfg closing lane outcome).Owns := by
  cases outcome with
  | returned result =>
    simp only [Task.handled]
    split
    · exact (Task.unwind_unwinding _ _).owns
    · exact trivial
  | failed detail => exact trivial
  | raised message typeName => exact trivial
  | cancelled => exact (Task.unwind_unwinding _ _).owns

/-- A cancelled owner still owns its job, or it was about to end it. -/
theorem Task.Owns.throwCancelled (h : task.Owns) :
    (task.throwCancelled closing).Owns ∨ task.ending = true := by
  obtain ⟨jobId, phase, reply, mustCancel, cancelEvent⟩ := task
  cases phase with
  | handling lane payload => exact Or.inl trivial
  | claiming lane => exact Or.inl (Task.unwind_unwinding _ _).owns
  | completing lane result => exact Or.inl (Task.unwind_unwinding _ _).owns
  | failing detail =>
    rcases reply with _ | r
    · exact Or.inr rfl
    · exact h.elim
  | cancelling =>
    rcases reply with _ | r
    · exact Or.inr rfl
    · exact h.elim
  | interrupting =>
    rcases reply with _ | r
    · exact Or.inr rfl
    · exact h.elim
  | _ => exact h.elim

theorem Task.Unwinding.ending (h : task.Unwinding) : task.ending = true := by
  unfold Task.Unwinding at h
  unfold Task.ending
  split at h
  · rename_i hp hr
    simp [hp, hr]
  · rename_i hp hr
    simp [hp, hr]
  · exact h.elim

/-- A task that is about to end its job waits for a store call that does. -/
theorem Task.ending_call (h : task.ending = true) :
    task.reply = none ∧
      ∃ call, task.phase.call task.jobId = some call ∧ call.finishes = true := by
  obtain ⟨jobId, phase, reply, mustCancel, cancelEvent⟩ := task
  cases phase with
  | failing detail =>
    rcases reply with _ | r
    · exact ⟨rfl, _, rfl, rfl⟩
    · cases h
  | cancelling =>
    rcases reply with _ | r
    · exact ⟨rfl, _, rfl, rfl⟩
    · cases h
  | interrupting =>
    rcases reply with _ | r
    · exact ⟨rfl, _, rfl, rfl⟩
    · cases h
  | _ => cases h

/-- It leaves that call behind, unless the call is dropped. -/
theorem Task.ending_leaves (h : task.ending = true) :
    ∃ call ∈ task.leaves false, call.finishes = true ∧ call.jobId = task.jobId := by
  obtain ⟨hreply, call, hcall, hf⟩ := Task.ending_call h
  refine ⟨call, ?_, hf, Phase.call_jobId hcall⟩
  unfold Task.leaves
  rw [hreply, hcall]
  exact mem_singleton.mpr rfl

/-- An owner that waits for a store call is about to end its job or to complete it. -/
theorem Task.Owns.call (h : task.Owns) (hreply : task.reply = none) {call : StoreCall U J}
    (hcall : task.phase.call task.jobId = some call) :
    task.ending = true ∨ ∃ lane result, task.phase = .completing lane result := by
  obtain ⟨jobId, phase, reply, mustCancel, cancelEvent⟩ := task
  obtain rfl : reply = none := hreply
  cases phase with
  | completing lane result => exact Or.inr ⟨lane, result, rfl⟩
  | failing detail => exact Or.inl rfl
  | cancelling => exact Or.inl rfl
  | interrupting => exact Or.inl rfl
  | handling lane payload => cases hcall
  | _ => exact h.elim

/-- A task whose claim is left behind goes on to end its job. -/
theorem Task.claim_leaves {drop : Bool} {jobId : U} (h : .claimJob jobId ∈ task.leaves drop) :
    jobId = task.jobId ∧ (task.throwCancelled closing).Unwinding := by
  obtain ⟨-, -, hcall⟩ := Task.mem_leaves h
  constructor
  · exact Phase.call_jobId hcall
  · obtain ⟨j, phase, reply, mustCancel, cancelEvent⟩ := task
    cases phase with
    | claiming lane => exact Task.unwind_unwinding _ _
    | _ => cases hcall

end Motion

/-! ### Steps that only move tasks -/

namespace Cared

variable {s s' : Manager U J} {t p now : Nat}

theorem move {task task' : Task U J} {calls : List (StoreCall U J)} (h : Cared s)
    (ht : s.runs.lookup t = some task) (hjob : task'.jobId = task.jobId)
    (hstore : s'.store = s.store) (hruns : s'.runs = s.runs.insert t task')
    (horphans : s'.orphans = s.orphans ++ calls) (hrecovered : Recovered s' → Recovered s)
    (howns : task.Owns → task'.Owns ∨ Settled s.store task.jobId ∨
      ∃ call ∈ calls, call.finishes = true ∧ call.jobId = task.jobId)
    (hunwinding : task.Unwinding → task'.Unwinding ∨ Settled s.store task.jobId ∨
      ∃ call ∈ calls, call.finishes = true ∧ call.jobId = task.jobId)
    (hclaims : ∀ jobId, .claimJob jobId ∈ calls → jobId = task.jobId ∧ task'.Unwinding) :
    Cared s' := by
  have hmine : s'.runs.lookup t = some task' := by
    rw [hruns, Table.lookup_insert_ite, if_pos rfl]
  have hother : ∀ u v, u ≠ t → s.runs.lookup u = some v → s'.runs.lookup u = some v := by
    intro u v hut hu
    rw [hruns, Table.lookup_insert_ite, if_neg hut]
    exact hu
  have hfinishing : ∀ jobId, Finishing s jobId → Finishing s' jobId := by
    rintro jobId ⟨call, hcall, hf, hj⟩
    refine ⟨call, ?_, hf, hj⟩
    rw [horphans]
    exact mem_append_left calls hcall
  have hleft : (∃ call ∈ calls, call.finishes = true ∧ call.jobId = task.jobId) →
      Finishing s' task.jobId := by
    rintro ⟨call, hcall, hf, hj⟩
    refine ⟨call, ?_, hf, hj⟩
    rw [horphans]
    exact mem_append_right s.orphans hcall
  constructor
  · intro jobId hclaim
    rw [hstore]
    rw [horphans] at hclaim
    rcases mem_append.mp hclaim with hclaim | hclaim
    · rcases h.claims jobId hclaim with hs | ⟨u, v, hu, hj, hv⟩ | hf
      · exact Or.inl hs
      · by_cases hut : u = t
        · subst hut
          rw [ht, Option.some.injEq] at hu
          subst hu
          subst hj
          rcases hunwinding hv with hv' | hs | hleave
          · exact Or.inr (Or.inl ⟨u, task', hmine, hjob, hv'⟩)
          · exact Or.inl hs
          · exact Or.inr (Or.inr (hleft hleave))
        · exact Or.inr (Or.inl ⟨u, v, hother u v hut hu, hj, hv⟩)
      · exact Or.inr (Or.inr (hfinishing jobId hf))
    · obtain ⟨rfl, hv⟩ := hclaims jobId hclaim
      exact Or.inr (Or.inl ⟨t, task', hmine, hjob, hv⟩)
  · intro hr jobId hb
    rw [hstore] at hb
    rcases h.owned (hrecovered hr) jobId hb with ⟨u, v, hu, hj, hv⟩ | hf
    · by_cases hut : u = t
      · subst hut
        rw [ht, Option.some.injEq] at hu
        subst hu
        subst hj
        rcases howns hv with hv' | hs | hleave
        · exact Or.inl ⟨u, task', hmine, hjob, hv'⟩
        · exact absurd hb hs.not_busy
        · exact Or.inr (hleft hleave)
      · exact Or.inl ⟨u, v, hother u v hut hu, hj, hv⟩
    · exact Or.inr (hfinishing jobId hf)

/-- A store call made while `t`, the task that waits for it, waits. -/
theorem execute {task : Task U J} {call : StoreCall U J} (h : Cared s) (hc : Consistent s)
    (ht : s.runs.lookup t = some task) (hreply : task.reply = none)
    (hcall : task.phase.call task.jobId = some call)
    (hrequeue : ∀ jobId payload, call = .requeueJob jobId payload → .claimJob jobId ∉ s.orphans) :
    Cared ({ s with store := (call.perform s.store now).2 }.setTask t
      { task with reply := some (call.perform s.store now).1 }) := by
  have hjob := Phase.call_jobId hcall
  have hmine : ({ s with store := (call.perform s.store now).2 }.setTask t
      { task with reply := some (call.perform s.store now).1 }).runs.lookup t =
      some { task with reply := some (call.perform s.store now).1 } := by
    unfold Manager.setTask
    rw [Table.lookup_insert_ite, if_pos rfl]
  have hother : ∀ u v, u ≠ t → s.runs.lookup u = some v →
      ({ s with store := (call.perform s.store now).2 }.setTask t
        { task with reply := some (call.perform s.store now).1 }).runs.lookup u = some v := by
    intro u v hut hu
    unfold Manager.setTask
    rw [Table.lookup_insert_ite, if_neg hut]
    exact hu
  -- The call of a task that is about to end its job does end it.
  have hends : task.ending = true → Settled (call.perform s.store now).2 task.jobId := by
    intro hending
    obtain ⟨-, ending, hending, hfinishes⟩ := Task.ending_call hending
    rw [hcall, Option.some.injEq] at hending
    subst hending
    have hs := perform_finishes now hfinishes (hjob ▸ hc.known t task ht)
    rwa [hjob] at hs
  constructor
  · intro jobId hclaim
    rcases h.claims jobId hclaim with hs | ⟨u, v, hu, hj, hv⟩ | hf
    · rcases perform_settled call now hs with hs' | ⟨payload, hq⟩
      · exact Or.inl hs'
      · exact absurd hclaim (hrequeue jobId payload hq)
    · by_cases hut : u = t
      · subst hut
        rw [ht, Option.some.injEq] at hu
        subst hu
        subst hj
        exact Or.inl (hends hv.ending)
      · exact Or.inr (Or.inl ⟨u, v, hother u v hut hu, hj, hv⟩)
    · exact Or.inr (Or.inr hf)
  · intro hr jobId hb
    rcases perform_busy hb with hb' | ⟨rfl, hq⟩
    · rcases h.owned hr jobId hb' with ⟨u, v, hu, hj, hv⟩ | hf
      · by_cases hut : u = t
        · subst hut
          rw [ht, Option.some.injEq] at hu
          subst hu
          subst hj
          rcases hv.call hreply hcall with hending | ⟨lane, result, hphase⟩
          · exact absurd hb (hends hending).not_busy
          · refine Or.inl ⟨u, _, hmine, rfl, ?_⟩
            rw [hphase] at hcall
            cases hcall
            unfold Task.Owns
            dsimp only
            rw [hphase]
            cases hr : ((StoreCall.completeJob task.jobId result).perform s.store now).1 with
            | error e => exact trivial
            | ok row => exact absurd hb (completeJob_reply s.store task.jobId now result hr)
        · exact Or.inl ⟨u, v, hother u v hut hu, hj, hv⟩
      · exact Or.inr hf
    · -- The task has claimed its job.
      obtain ⟨lane, hphase⟩ : ∃ lane, task.phase = .claiming lane := by
        cases hphase : task.phase with
        | claiming lane => exact ⟨lane, rfl⟩
        | _ =>
          rw [hphase] at hcall
          cases hcall
      rw [hphase] at hcall
      cases hcall
      obtain ⟨row, hrow, hrunning⟩ := claimJob_busy s.store task.jobId now hc.sound hb
      refine Or.inl ⟨t, _, hmine, rfl, ?_⟩
      unfold Task.Owns
      dsimp only
      rw [hphase]
      simp only [StoreCall.perform, hrow]
      exact hrunning

theorem perform {call : StoreCall U J} (h : Cared s)
    (hstore : s'.store = (call.perform s.store now).2) (hruns : s'.runs = s.runs)
    (horphans : ∀ other, other ∈ s'.orphans → other ∈ s.orphans)
    (hkept : ∀ other, other ∈ s.orphans → other ∈ s'.orphans ∨ other = call)
    (hrecovered : Recovered s' → Recovered s)
    (hends : call.finishes = true → Exists s.store call.jobId)
    (hclaim : ∀ jobId, call = .claimJob jobId → call ∈ s.orphans)
    (hrequeue : ∀ jobId payload, call = .requeueJob jobId payload → .claimJob jobId ∉ s.orphans) :
    Cared s' := by
  have howned : ∀ jobId, Owned s jobId → Owned s' jobId := by
    rintro jobId ⟨u, v, hu, hv⟩
    exact ⟨u, v, hruns ▸ hu, hv⟩
  -- A call that was to end a job has ended it, or it is still in flight.
  have hfinishing : ∀ jobId, Finishing s jobId → Settled s'.store jobId ∨ Finishing s' jobId := by
    rintro jobId ⟨other, hother, hf, rfl⟩
    rcases hkept other hother with hkeep | rfl
    · exact Or.inr ⟨other, hkeep, hf, rfl⟩
    · rw [hstore]
      exact Or.inl (perform_finishes now hf (hends hf))
  constructor
  · intro jobId hmem
    rcases h.claims jobId (horphans _ hmem) with hs | ⟨u, v, hu, hv⟩ | hf
    · rcases perform_settled call now hs with hs' | ⟨payload, hq⟩
      · exact Or.inl (hstore ▸ hs')
      · exact absurd (horphans _ hmem) (hrequeue jobId payload hq)
    · exact Or.inr (Or.inl ⟨u, v, hruns ▸ hu, hv⟩)
    · rcases hfinishing jobId hf with hs | hf'
      · exact Or.inl hs
      · exact Or.inr (Or.inr hf')
  · intro hr jobId hb
    have hsettled : Settled s'.store jobId → Owned s' jobId ∨ Finishing s' jobId :=
      fun hs => absurd hb hs.not_busy
    have hb' := hb
    rw [hstore] at hb'
    rcases perform_busy hb' with hb' | ⟨rfl, hq⟩
    · rcases h.owned (hrecovered hr) jobId hb' with ho | hf
      · exact Or.inl (howned jobId ho)
      · rcases hfinishing jobId hf with hs | hf'
        · exact hsettled hs
        · exact Or.inr hf'
    · -- A late claim of a queued job: somebody is about to end the job.
      rcases h.claims jobId (hclaim jobId rfl) with ⟨st, hst, hterminal⟩ | ⟨u, v, hu, hj, hv⟩ | hf
      · rw [hq, Option.some.injEq] at hst
        subst hst
        cases hterminal
      · exact Or.inl (howned jobId ⟨u, v, hu, hj, hv.owns⟩)
      · rcases hfinishing jobId hf with hs | hf'
        · exact hsettled hs
        · exact Or.inr hf'

end Cared

/-! ### Steps of a caller that make no store call -/

/-- Nothing that matters to the jobs changes: tasks keep where they stand and may be added, and of
    the coroutines only `p` moves. -/
structure Frame (p : Nat) (s s' : Manager U J) : Prop where
  store : s'.store = s.store
  orphans : s'.orphans = s.orphans
  runs : ∀ t task, s.runs.lookup t = some task → ∃ task', s'.runs.lookup t = some task' ∧
    task'.jobId = task.jobId ∧ task'.phase = task.phase ∧ task'.reply = task.reply
  started : s'.started = true → s.started = true
  coroutines : ∀ q, q ≠ p → s'.coroutines.lookup q = s.coroutines.lookup q

namespace Frame

variable {s s' s'' : Manager U J} {p : Nat}

omit [DecidableEq U]

theorem refl (p : Nat) (s : Manager U J) : Frame p s s :=
  ⟨rfl, rfl, fun _ task ht => ⟨task, ht, rfl, rfl, rfl⟩, id, fun _ _ => rfl⟩

theorem trans (h : Frame p s s') (h' : Frame p s' s'') : Frame p s s'' := by
  refine ⟨h'.store.trans h.store, h'.orphans.trans h.orphans, ?_, fun hs => h.started (h'.started hs),
    fun q hq => (h'.coroutines q hq).trans (h.coroutines q hq)⟩
  intro t task ht
  obtain ⟨task₁, ht₁, hj₁, hp₁, hr₁⟩ := h.runs t task ht
  obtain ⟨task₂, ht₂, hj₂, hp₂, hr₂⟩ := h'.runs t task₁ ht₁
  exact ⟨task₂, ht₂, hj₂.trans hj₁, hp₂.trans hp₁, hr₂.trans hr₁⟩

theorem setTask {t : Nat} {task task' : Task U J} (ht : s.runs.lookup t = some task)
    (hjob : task'.jobId = task.jobId) (hphase : task'.phase = task.phase)
    (hreply : task'.reply = task.reply) : Frame p s (s.setTask t task') := by
  refine ⟨rfl, rfl, ?_, id, fun _ _ => rfl⟩
  intro u v hu
  unfold Manager.setTask
  rw [Table.lookup_insert_ite]
  by_cases hut : u = t
  · subst hut
    rw [ht, Option.some.injEq] at hu
    subst hu
    exact ⟨task', if_pos rfl, hjob, hphase, hreply⟩
  · exact ⟨v, by rw [if_neg hut]; exact hu, rfl, rfl, rfl⟩

theorem cancelTask (s : Manager U J) (t : Nat) : Frame p s (s.cancelTask t) := by
  unfold Manager.cancelTask
  cases ht : s.runs.lookup t with
  | none => exact .refl p s
  | some task =>
    dsimp only
    split
    · exact .refl p s
    · exact .setTask ht rfl rfl rfl

theorem setEvent (s : Manager U J) (t : Nat) : Frame p s (s.setEvent t) := by
  unfold Manager.setEvent
  cases ht : s.runs.lookup t with
  | none => exact .refl p s
  | some task => exact .setTask ht rfl rfl rfl

theorem cancelAll (s : Manager U J) (ts : List Nat) :
    Frame p s (ts.foldl Manager.cancelTask s) := by
  induction ts generalizing s with
  | nil => exact .refl p s
  | cons t ts ih => exact (Frame.cancelTask s t).trans (ih _)

theorem setCoroutine (s : Manager U J) (p : Nat) (c : Coroutine U J) :
    Frame p s (s.setCoroutine p c) := by
  refine ⟨rfl, rfl, fun _ task ht => ⟨task, ht, rfl, rfl, rfl⟩, id, ?_⟩
  intro q hq
  unfold Manager.setCoroutine
  rw [Table.lookup_insert_ite, if_neg hq]

theorem leave (s : Manager U J) (p : Nat) : Frame p s (s.leave p) := by
  refine ⟨rfl, rfl, fun _ task ht => ⟨task, ht, rfl, rfl, rfl⟩, id, ?_⟩
  intro q hq
  unfold Manager.leave
  rw [Table.lookup_erase_ite, if_neg hq]

/-- What the frame does not speak of may be anything. -/
theorem congr (h : Frame p s s') (hstore : s''.store = s'.store) (horphans : s''.orphans = s'.orphans)
    (hruns : s''.runs = s'.runs) (hstarted : s''.started = true → s'.started = true)
    (hcoroutines : s''.coroutines = s'.coroutines) : Frame p s s'' := by
  refine ⟨hstore.trans h.store, horphans.trans h.orphans, ?_, fun hs => h.started (hstarted hs), ?_⟩
  · rw [hruns]
    exact h.runs
  · rw [hcoroutines]
    exact h.coroutines

end Frame

namespace Frame

variable {s s' : Manager U J} {p : Nat}

theorem schedule (h : Consistent s) (jobId : U) : Frame p s (s.schedule jobId) := by
  unfold Manager.schedule
  split
  · exact .refl p s
  · refine ⟨rfl, rfl, ?_, id, fun _ _ => rfl⟩
    intro t task ht
    have hne : t ≠ s.nextTask := by
      have := h.fresh t task ht
      omega
    dsimp only
    rw [Table.lookup_insert_ite, if_neg hne]
    exact ⟨task, ht, rfl, rfl, rfl⟩

theorem scheduleAll (h : Consistent s) {ids : List U} (hids : ∀ j ∈ ids, Exists s.store j) :
    Frame p s (ids.foldl Manager.schedule s) := by
  induction ids generalizing s with
  | nil => exact .refl p s
  | cons j ids ih =>
    refine (Frame.schedule h j).trans (ih (h.schedule (hids j mem_cons_self)) ?_)
    intro k hk
    rw [(Consistent.schedule_frame s j).1]
    exact hids k (mem_cons_of_mem j hk)

theorem forget (s : Manager U J) (jobId : U) (t : Nat) : Frame p s (s.forget jobId t) := by
  unfold Manager.forget
  split
  · exact (Frame.refl p s).congr rfl rfl rfl id rfl
  · exact .refl p s

theorem claims (hf : Frame p s s') (h : Cared s) (jobId : U)
    (hclaim : .claimJob jobId ∈ s'.orphans) :
    Settled s'.store jobId ∨ Unwound s' jobId ∨ Finishing s' jobId := by
  rw [hf.orphans] at hclaim
  rcases h.claims jobId hclaim with hs | ⟨t, task, ht, hj, hu⟩ | ⟨call, hcall, hfin⟩
  · exact Or.inl (hf.store ▸ hs)
  · obtain ⟨task', ht', hj', hp', hr'⟩ := hf.runs t task ht
    refine Or.inr (Or.inl ⟨t, task', ht', hj'.trans hj, ?_⟩)
    unfold Task.Unwinding at hu ⊢
    rw [hp', hr']
    exact hu
  · exact Or.inr (Or.inr ⟨call, hf.orphans ▸ hcall, hfin⟩)

omit [DecidableEq U] in
theorem recovered (hf : Frame p s s')
    (hp : ∀ goal, s.coroutines.lookup p ≠ some (.recovering goal false)) :
    Recovered s' → Recovered s := by
  rintro ⟨hstarted, hnone⟩
  refine ⟨hf.started hstarted, ?_⟩
  intro q goal
  by_cases hq : q = p
  · rw [hq]
    exact hp goal
  · rw [← hf.coroutines q hq]
    exact hnone q goal

theorem cared_of_recovered (hf : Frame p s s') (h : Cared s)
    (hrecovered : Recovered s' → Recovered s) : Cared s' := by
  refine ⟨hf.claims h, ?_⟩
  intro hr jobId hb
  rw [hf.store] at hb
  rcases h.owned (hrecovered hr) jobId hb with ⟨t, task, ht, hj, ho⟩ | ⟨call, hcall, hfin⟩
  · obtain ⟨task', ht', hj', hp', hr'⟩ := hf.runs t task ht
    refine Or.inl ⟨t, task', ht', hj'.trans hj, ?_⟩
    unfold Task.Owns at ho ⊢
    rw [hp', hr']
    exact ho
  · exact Or.inr ⟨call, hf.orphans ▸ hcall, hfin⟩

theorem cared (hf : Frame p s s') (h : Cared s)
    (hp : ∀ goal, s.coroutines.lookup p ≠ some (.recovering goal false)) : Cared s' :=
  hf.cared_of_recovered h (hf.recovered hp)

end Frame

/-! ### Every step -/

namespace Cared

variable {s s' : Manager U J} {p t now : Nat} {cfg : Config U J}

theorem of_claims (hclaims : ∀ jobId, .claimJob jobId ∈ s'.orphans →
      Settled s'.store jobId ∨ Unwound s' jobId ∨ Finishing s' jobId)
    (hnot : ¬Recovered s') : Cared s' :=
  ⟨hclaims, fun hr => absurd hr hnot⟩

omit [DecidableEq U] in
theorem afterStart_frame (cfg : Config U J) (s : Manager U J) (p : Nat) (goal : Goal U J) :
    Frame p s (s.afterStart cfg p goal) := by
  cases goal with
  | nothing => exact .leave s p
  | submit kind payload jobId =>
    unfold Manager.afterStart
    dsimp only
    split
    · exact .setCoroutine s p _
    · exact .leave s p
  | retry jobId payload freshId => exact .setCoroutine s p _

theorem retryJob_frame (cfg : Config U J) (s : Manager U J) (p : Nat) (jobId : U)
    (payload : Option J) (freshId : U) (previous : Job J) :
    Frame p s (s.retryJob cfg p jobId payload freshId previous) := by
  unfold Manager.retryJob
  split
  · split
    · exact .leave s p
    · split
      · exact .leave s p
      · split <;> exact .setCoroutine s p _
  · split
    · exact .setCoroutine s p _
    · exact .leave s p

omit [DecidableEq U] in
theorem stop_frame (s : Manager U J) (p : Nat) : Frame p s (s.stop p) := by
  have hclosing : Frame p s { s with closing := true } := (Frame.refl p s).congr rfl rfl rfl id rfl
  exact (hclosing.trans (.cancelAll _ _)).trans (.setCoroutine _ p _)

theorem resume {c : Coroutine U J} (h : Cared s) (hc : Consistent s)
    (hp : s.coroutines.lookup p = some c) (hs : s.resume cfg p c = some s') : Cared s' := by
  have hknown := hc.answered p c hp
  -- A coroutine that waits for the recovery does not go on.
  have hwait : ∀ goal, s.coroutines.lookup p ≠ some (.recovering goal false) := by
    intro goal hr
    rw [hp, Option.some.injEq] at hr
    subst hr
    cases hs
  have hframe : Frame p s s' → Cared s' := fun hf => hf.cared h hwait
  cases c with
  | starting goal =>
    simp only [Manager.resume] at hs
    split at hs
    · cases hs
    · split at hs
      · cases hs
        exact hframe (afterStart_frame cfg s p goal)
      · cases hs
        refine of_claims (fun jobId hclaim => ?_) ?_
        · exact h.claims jobId hclaim
        · rintro ⟨-, hnone⟩
          refine hnone p goal ?_
          unfold Manager.setCoroutine
          rw [Table.lookup_insert_ite, if_pos rfl]
  | recovering goal done =>
    cases done with
    | false => cases hs
    | true =>
      cases hs
      exact hframe (.setCoroutine s p _)
  | listing goal ids =>
    cases ids with
    | none => cases hs
    | some ids =>
      cases hs
      have hall : Frame p s ((ids.foldl Manager.schedule s).leave p) :=
        (Frame.scheduleAll hc hknown).trans (.leave _ p)
      have hreleased : Frame p s { (ids.foldl Manager.schedule s).leave p with lock := none } :=
        hall.congr rfl rfl rfl id rfl
      exact hframe (hreleased.trans (afterStart_frame cfg _ p goal))
  | creating kind payload jobId reply =>
    rcases reply with _ | (e | row)
    · cases hs
    · cases hs
      exact hframe (.leave s p)
    · cases hs
      exact hframe ((Frame.schedule hc jobId).trans (.leave _ p))
  | looking jobId payload freshId reply =>
    rcases reply with _ | (e | row)
    · cases hs
    · cases hs
      exact hframe (.leave s p)
    · cases hs
      exact hframe (retryJob_frame cfg s p jobId payload freshId row)
  | joining jobId payload t =>
    simp only [Manager.resume] at hs
    split at hs
    · cases hs
      exact hframe ((Frame.forget s jobId t).trans (.setCoroutine _ p _))
    · cases hs
  | requeueing jobId payload reply =>
    rcases reply with _ | (e | row)
    · cases hs
    · cases hs
      exact hframe (.leave s p)
    · cases hs
      exact hframe ((Frame.schedule hc jobId).trans (.leave _ p))
  | requesting jobId reply =>
    rcases reply with _ | (e | row)
    · cases hs
    · cases hs
      exact hframe (.leave s p)
    · simp only [Manager.resume] at hs
      split at hs
      · cases hs
        exact hframe (.leave s p)
      · cases hs
        exact hframe (((Frame.setEvent s _).trans (.cancelTask _ _)).trans (.leave _ p))
  | closing =>
    simp only [Manager.resume] at hs
    have hlocked : Frame p s { s with lock := some p } := (Frame.refl p s).congr rfl rfl rfl id rfl
    split at hs
    · cases hs
    · split at hs
      · cases hs
        exact hframe (.leave s p)
      · split at hs
        · cases hs
          exact hframe (hlocked.trans (stop_frame _ p))
        · cases hs
          exact hframe (hlocked.trans (.setCoroutine _ p _))
  | unwinding ts =>
    cases hs
    exact hframe (stop_frame s p)
  | stopping ts =>
    simp only [Manager.resume] at hs
    split at hs
    · cases hs
      exact hframe ((Frame.leave s p).congr rfl rfl rfl (fun hf => by cases hf) rfl)
    · cases hs

theorem serve {c : Coroutine U J} (h : Cared s)
    (hp : s.coroutines.lookup p = some c) (hok : Admits s (.serve p now))
    (hs : s.serve p now c = some s') : Cared s' := by
  -- The frame of the coroutine around the store call.
  have hcall : ∀ (call : StoreCall U J) (c' : Coroutine U J),
      (∀ goal, c ≠ .recovering goal false) → (call.finishes = false) →
      (∀ jobId, call ≠ .claimJob jobId) →
      (∀ jobId payload, call = .requeueJob jobId payload → .claimJob jobId ∉ s.orphans) →
      Cared ({ s with store := (call.perform s.store now).2 }.setCoroutine p c') := by
    intro call c' hwait hf hclaim hrequeue
    have hdone : Cared { s with store := (call.perform s.store now).2 } :=
      h.perform rfl rfl (fun _ => id) (fun _ => Or.inl) id (fun hf' => by rw [hf] at hf'; cases hf')
        (fun jobId heq => absurd heq (hclaim jobId)) hrequeue
    refine (Frame.setCoroutine _ p c').cared hdone ?_
    intro goal hr
    change s.coroutines.lookup p = _ at hr
    rw [hp, Option.some.injEq] at hr
    exact hwait goal hr
  cases c with
  | recovering goal done =>
    cases done with
    | true => cases hs
    | false =>
      cases hs
      constructor
      · intro jobId hclaim
        rcases h.claims jobId hclaim with hs | hu | hf
        · exact Or.inl ((recover_status s.store now jobId).2 hs)
        · exact Or.inr (Or.inl hu)
        · exact Or.inr (Or.inr hf)
      · intro _ jobId hb
        exact absurd hb (recover_status s.store now jobId).1
  | listing goal ids =>
    cases ids with
    | some ids => cases hs
    | none =>
      cases hs
      refine (Frame.setCoroutine s p _).cared h ?_
      intro goal' hr
      rw [hp] at hr
      cases hr
  | creating kind payload jobId reply =>
    rcases reply with _ | reply
    · cases hs
      exact hcall _ _ (fun _ hr => by cases hr) rfl (fun _ hr => by cases hr)
        (fun _ _ hr => by cases hr)
    · cases hs
  | looking jobId payload freshId reply =>
    rcases reply with _ | reply
    · cases hs
      exact hcall _ _ (fun _ hr => by cases hr) rfl (fun _ hr => by cases hr)
        (fun _ _ hr => by cases hr)
    · cases hs
  | requeueing jobId payload reply =>
    rcases reply with _ | reply
    · cases hs
      refine hcall _ _ (fun _ hr => by cases hr) rfl (fun _ hr => by cases hr) ?_
      intro j payload' hr
      cases hr
      exact hok _ hp _ rfl rfl
    · cases hs
  | requesting jobId reply =>
    rcases reply with _ | reply
    · cases hs
      exact hcall _ _ (fun _ hr => by cases hr) rfl (fun _ hr => by cases hr)
        (fun _ _ hr => by cases hr)
    · cases hs
  | _ => cases hs

theorem cancelled {task : Task U J} {drop : Bool} (h : Cared s)
    (ht : s.runs.lookup t = some task) (hok : Admits s (.cancelled t drop))
    (hs : s.cancelled t task drop = some s') : Cared s' := by
  unfold Manager.cancelled at hs
  split at hs
  · cases hs
    -- What is about to end the job is left behind, or the job has ended.
    have hending : task.ending = true → Settled s.store task.jobId ∨
        ∃ call ∈ task.leaves drop, call.finishes = true ∧ call.jobId = task.jobId := by
      intro hending
      cases drop with
      | true => exact Or.inl (hok task ht rfl hending)
      | false => exact Or.inr (Task.ending_leaves hending)
    refine h.move ht Task.throwCancelled_job.1 rfl rfl rfl id ?_ ?_ ?_
    · intro ho
      rcases ho.throwCancelled with ho' | hend
      · exact Or.inl ho'
      · exact Or.inr (hending hend)
    · intro hu
      exact Or.inr (hending hu.ending)
    · intro jobId hclaim
      exact Task.claim_leaves hclaim
  · cases hs

theorem step (h : Cared s) (hc : Consistent s) {a : Action U J} (hok : Admits s a)
    (hs : s.step cfg a = some s') : Cared s' := by
  cases a with
  | invoke p request =>
    simp only [Manager.step] at hs
    split at hs
    · cases hs
    · rename_i hp
      cases hs
      refine (Frame.setCoroutine s p _).cared h ?_
      intro goal hr
      exact hp (Table.mem_of_lookup hr)
  | resume p =>
    obtain ⟨c, hp, hs⟩ := Option.bind_eq_some_iff.mp hs
    exact h.resume hc hp hs
  | serve p now =>
    obtain ⟨c, hp, hs⟩ := Option.bind_eq_some_iff.mp hs
    exact h.serve hp hok hs
  | run t =>
    obtain ⟨task, ht, hs⟩ := Option.bind_eq_some_iff.mp hs
    obtain ⟨task', hproceed, rfl⟩ := Option.map_eq_some_iff.mp (Manager.run_some hs)
    refine h.move ht (Task.proceed_job hproceed).1 rfl rfl (List.append_nil _).symm id ?_ ?_ ?_
    · exact fun ho => Or.inl (ho.proceed hproceed)
    · intro hu
      rw [hu.proceed] at hproceed
      cases hproceed
    · intro jobId hclaim
      cases hclaim
  | execute t now =>
    obtain ⟨task, ht, hs⟩ := Option.bind_eq_some_iff.mp hs
    unfold Manager.execute at hs
    split at hs
    · cases hs
    · rename_i hreply
      rw [Bool.not_eq_true, Option.isSome_eq_false_iff, Option.isNone_iff_eq_none] at hreply
      obtain ⟨call, hcall, rfl⟩ := Option.map_eq_some_iff.mp hs
      refine h.execute hc ht hreply hcall ?_
      intro jobId payload hq
      subst hq
      exact hok task ht _ hcall rfl
  | handlerEnds t outcome =>
    obtain ⟨task, ht, hs⟩ := Option.bind_eq_some_iff.mp hs
    unfold Manager.handlerEnds at hs
    split at hs
    · cases hs
    · split at hs
      · rename_i hphase
        cases hs
        refine h.move ht (Task.handled_job _ _) rfl rfl (List.append_nil _).symm id ?_ ?_ ?_
        · exact fun _ => Or.inl (Task.handled_owns _ _)
        · intro hu
          unfold Task.Unwinding at hu
          rw [hphase] at hu
          exact hu.elim
        · intro jobId hclaim
          cases hclaim
      · cases hs
  | cancelled t drop =>
    obtain ⟨task, ht, hs⟩ := Option.bind_eq_some_iff.mp hs
    exact h.cancelled ht hok hs
  | callback t =>
    obtain ⟨task, ht, hs⟩ := Option.bind_eq_some_iff.mp hs
    split at hs
    · cases hs
      have hf : Frame 0 s (s.forget task.jobId t) := .forget s task.jobId t
      refine hf.cared_of_recovered h ?_
      unfold Manager.forget
      split <;> exact id
    · cases hs
  | late index now =>
    obtain ⟨call, hindex, rfl⟩ := Option.map_eq_some_iff.mp hs
    have hmem : call ∈ s.orphans := mem_of_getElem? hindex
    have hsafe : ∀ jobId payload, call = .requeueJob jobId payload →
        .claimJob jobId ∉ s.orphans := by
      intro jobId payload hq
      subst hq
      exact hok _ hindex rfl
    refine h.perform rfl rfl (fun _ => mem_of_mem_eraseIdx) ?_ id
      (fun _ => hc.orphaned call hmem) (fun _ _ => hmem) hsafe
    intro other hother
    obtain ⟨i, hi⟩ := getElem?_of_mem hother
    by_cases hne : i = index
    · rw [hne, hindex, Option.some.injEq] at hi
      exact Or.inr hi.symm
    · exact Or.inl (mem_eraseIdx_iff_getElem?.mpr ⟨i, hne, hi⟩)

end Cared

end TyloQuant.JobManager
