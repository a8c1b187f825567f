import TyloQuant.JobStore.Moves

/-!
# The life of a job

`Sound` is what the row of a job and its events say together, in every state that calls can lead
to.  It holds of one job at a time and every move keeps it; what never happens to a job between
two points of a run follows the same way, from what one move cannot do.
-/

namespace TyloQuant.JobStore

open Lib List

variable {U J : Type}

/-! ### What a row and its log say -/

/-- The status that an event records. -/
def JobEvent.status (e : JobEvent U J) : Option JobStatus :=
  match e.data with
  | .status s _ => some s
  | .given _ => none

/-- The status that the last change of state records. -/
def lastState (log : List (JobEvent U J)) : Option JobStatus :=
  ((log.filter fun e => e.eventType = .state).getLast?).bind JobEvent.status

/-- A job and its events. -/
structure Sound (row : Job J) (log : List (JobEvent U J)) : Prop where
  numbered : log.map (fun e => e.sequence) = List.range' 1 log.length
  recorded : lastState log = some row.status
  completed : row.completedAt.isSome = true ↔ row.status.terminal = true
  progress : 0 ≤ row.progress ∧ row.progress ≤ 1
  uncancelled : row.status = .queued ∨ row.status = .running ∨ row.status = .succeeded →
    row.cancelRequested = false
  archived : row.archivedAt.isSome = true → row.status.terminal = true

/-- A job that does not exist has no events. -/
def View.Sound (v : View U J) : Prop :=
  match v.row with
  | none => v.log = []
  | some row => JobStore.Sound row v.log

/-! ### Logs -/

theorem foldl_max_range' (n m : Nat) : (List.range' 1 n).foldl max m = max m n := by
  induction n generalizing m with
  | zero => simp
  | succ n ih =>
    rw [range'_1_concat, foldl_append, ih]
    simp only [foldl_cons, foldl_nil]
    omega

variable {log : List (JobEvent U J)}

/-- In a log numbered from one, the next number is the one after its length. -/
theorem nextOf_eq (h : log.map (fun e => e.sequence) = List.range' 1 log.length) :
    nextOf log = log.length + 1 := by
  unfold nextOf
  rw [h, foldl_max_range']
  omega

theorem numbered_append {e : JobEvent U J}
    (h : log.map (fun e => e.sequence) = List.range' 1 log.length) (he : e.sequence = nextOf log) :
    (log ++ [e]).map (fun e => e.sequence) = List.range' 1 (log ++ [e]).length := by
  rw [map_append, h, length_append, length_singleton, range'_1_concat]
  simp only [map_cons, map_nil, he, nextOf_eq h]
  rw [Nat.add_comm]

variable {log' : List (JobEvent U J)}

theorem lastState_records {status : JobStatus} (h : Records log status log') :
    lastState log' = some status := by
  obtain ⟨e, reason, rfl, -, htype, hdata⟩ := h
  simp [lastState, filter_append, htype, JobEvent.status, hdata]

theorem lastState_notes (h : Notes log log') : lastState log' = lastState log := by
  obtain ⟨e, rfl, -, htype⟩ := h
  simp [lastState, filter_append, htype]

theorem Records.numbered {status : JobStatus} (h : Records log status log')
    (hlog : log.map (fun e => e.sequence) = List.range' 1 log.length) :
    log'.map (fun e => e.sequence) = List.range' 1 log'.length := by
  obtain ⟨e, reason, rfl, hseq, -⟩ := h
  exact numbered_append hlog hseq

theorem Notes.numbered (h : Notes log log')
    (hlog : log.map (fun e => e.sequence) = List.range' 1 log.length) :
    log'.map (fun e => e.sequence) = List.range' 1 log'.length := by
  obtain ⟨e, rfl, hseq, -⟩ := h
  exact numbered_append hlog hseq

/-! ### One move -/

variable {row row' : Job J}

section OneMove

variable {now : Nat} {requeued : Prop} {v v' : View U J}

theorem Sound.change (h : Sound row log) (hchange : Change now requeued row row')
    (hlog : Records log row'.status log') :
    Sound row' log' := by
  have hnumbered := hlog.numbered h.numbered
  have hrecorded := lastState_records hlog
  obtain ⟨-, -, hcompleted, hprogress, huncancelled, harchived⟩ := h
  cases hchange with
  | claim hq =>
    refine ⟨hnumbered, hrecorded, ?_, hprogress, fun _ => huncancelled (Or.inl hq), ?_⟩
    · simp only [hq, JobStatus.terminal] at hcompleted ⊢
      exact hcompleted
    · intro ha
      have := harchived ha
      simp [hq, JobStatus.terminal] at this
  | withdraw hq =>
    refine ⟨hnumbered, hrecorded, ?_, hprogress, ?_, fun _ => rfl⟩
    · simp [JobStatus.terminal]
    · simp
  | requestCancel hr =>
    refine ⟨hnumbered, hrecorded, ?_, hprogress, ?_, ?_⟩
    · simp [JobStatus.terminal]
    · simp
    · intro ha
      have := harchived ha
      rcases hr with hr | hr <;> simp [hr, JobStatus.terminal] at this
  | complete result hr =>
    refine ⟨hnumbered, hrecorded, ?_, ?_, fun _ => huncancelled (Or.inr (Or.inl hr)), fun _ => rfl⟩
    · simp [JobStatus.terminal]
    · constructor <;> norm_num
  | finish status error ho hs =>
    have hterminal : status.terminal = true := by
      rcases hs with rfl | rfl | rfl <;> rfl
    refine ⟨hnumbered, hrecorded, ?_, hprogress, ?_, fun _ => hterminal⟩
    · simp [hterminal]
    · rcases hs with rfl | rfl | rfl <;> simp
  | resume hr hc =>
    refine ⟨hnumbered, hrecorded, ?_, hprogress, fun _ => hc, ?_⟩
    · simp [JobStatus.terminal]
    · intro ha
      have := harchived ha
      rcases hr with hr | hr <;> simp [hr, JobStatus.terminal] at this
  | requeue payload hr hs ha =>
    refine ⟨hnumbered, hrecorded, ?_, hprogress, fun _ => rfl, ?_⟩
    · simp [JobStatus.terminal]
    · simp [ha]

/-- **Every move keeps a job sound.** -/
theorem View.Sound.move (h : v.Sound) (hmove : Move now requeued v v') : v'.Sound := by
  cases hmove with
  | stay => exact h
  | create row log log' hs hp hc hd ha hlog =>
    obtain rfl : log = [] := h
    refine ⟨hlog.numbered rfl, ?_, ?_, ?_, fun _ => hc, ?_⟩
    · rw [lastState_records hlog, hs]
    · simp [hd, hs, JobStatus.terminal]
    · rw [hp]
      constructor <;> norm_num
    · simp [ha]
  | note row log log' hlog =>
    obtain ⟨hnumbered, hrecorded, hcompleted, hprogress, huncancelled, harchived⟩ := h
    exact ⟨hlog.numbered hnumbered, (lastState_notes hlog).trans hrecorded, hcompleted, hprogress,
      huncancelled, harchived⟩
  | progress row p data log log' hp hle hlog =>
    obtain ⟨hnumbered, hrecorded, hcompleted, hprogress, huncancelled, harchived⟩ := h
    refine ⟨hlog.numbered hnumbered, (lastState_notes hlog).trans hrecorded, hcompleted, ?_,
      huncancelled, harchived⟩
    refine ⟨hprogress.1.trans hp, ?_⟩
    rcases hle with hle | rfl
    · exact hle
    · exact hprogress.2
  | archive row log hterminal ha =>
    obtain ⟨hnumbered, hrecorded, hcompleted, hprogress, huncancelled, harchived⟩ := h
    exact ⟨hnumbered, hrecorded, hcompleted, hprogress, huncancelled, fun _ => hterminal⟩
  | change row row' log log' hchange hlog => exact JobStore.Sound.change h hchange hlog

/-- What no move does to a job: lose its row, lower its progress, take it out of the archive or
    change the status of an archived job; and what only a re-queue does: leave a terminal status or
    forget a request to cancel. -/
structure Onward (requeued : Prop) (row row' : Job J) : Prop where
  progress : row.progress ≤ row'.progress
  archived : row.archivedAt.isSome = true → row'.archivedAt.isSome = true ∧ row'.status = row.status
  terminal : ¬requeued → row.status.terminal = true → row'.status = row.status
  cancelled : ¬requeued → row.cancelRequested = true → row'.cancelRequested = true

theorem Onward.refl (row : Job J) : Onward requeued row row :=
  ⟨le_refl _, fun h => ⟨h, rfl⟩, fun _ _ => rfl, fun _ h => h⟩

theorem Change.onward (h : Sound row log) (hchange : Change now requeued row row') :
    Onward requeued row row' := by
  -- An open job is neither archived nor terminal, so only its progress and its flag are left.
  have hopen : row.status.terminal = false → row.progress ≤ row'.progress →
      (row.cancelRequested = true → row'.cancelRequested = true) → Onward requeued row row' := by
    intro hterminal hprogress hcancelled
    refine ⟨hprogress, ?_, ?_, fun _ => hcancelled⟩
    · intro ha
      have := h.archived ha
      rw [hterminal] at this
      cases this
    · intro _ ht
      rw [hterminal] at ht
      cases ht
  cases hchange with
  | claim hq => exact hopen (by rw [hq]; rfl) (le_refl _) id
  | withdraw hq => exact hopen (by rw [hq]; rfl) (le_refl _) fun _ => rfl
  | requestCancel hr =>
    refine hopen ?_ (le_refl _) fun _ => rfl
    rcases hr with hr | hr <;> rw [hr] <;> rfl
  | complete result hr => exact hopen (by rw [hr]; rfl) h.progress.2 id
  | finish status error ho hs => exact hopen ho (le_refl _) id
  | resume hr hc =>
    refine hopen ?_ (le_refl _) id
    rcases hr with hr | hr <;> rw [hr] <;> rfl
  | requeue payload hr hs ha =>
    refine ⟨le_refl _, ?_, fun hnot => absurd hr hnot, fun hnot => absurd hr hnot⟩
    intro h
    rw [ha] at h
    cases h

theorem Move.onward (hrow : v.row = some row) (h : v.Sound) (hmove : Move now requeued v v') :
    ∃ row', v'.row = some row' ∧ Onward requeued row row' := by
  cases hmove with
  | stay => exact ⟨row, hrow, .refl row⟩
  | create => cases hrow
  | note row₀ log log' hlog => exact ⟨row, hrow, .refl row⟩
  | progress row₀ p data log log' hp hle hlog =>
    cases hrow
    exact ⟨_, rfl, hp, fun ha => ⟨ha, rfl⟩, fun _ _ => rfl, fun _ hc => hc⟩
  | archive row₀ log hterminal ha =>
    cases hrow
    exact ⟨_, rfl, le_refl _, fun _ => ⟨rfl, rfl⟩, fun _ _ => rfl, fun _ hc => hc⟩
  | change row₀ row' log log' hchange hlog =>
    cases hrow
    exact ⟨row', rfl, hchange.onward h⟩

end OneMove

theorem Onward.trans {p q : Prop} {row'' : Job J} (h : Onward p row row')
    (h' : Onward q row' row'') : Onward (p ∨ q) row row'' := by
  refine ⟨h.progress.trans h'.progress, ?_, ?_, ?_⟩
  · intro ha
    obtain ⟨ha', hs⟩ := h.archived ha
    obtain ⟨ha'', hs'⟩ := h'.archived ha'
    exact ⟨ha'', hs'.trans hs⟩
  · intro hnot ht
    have hs := h.terminal (fun hp => hnot (Or.inl hp)) ht
    rw [← hs]
    refine h'.terminal (fun hq => hnot (Or.inr hq)) ?_
    rw [hs]
    exact ht
  · intro hnot hc
    exact h'.cancelled (fun hq => hnot (Or.inr hq)) (h.cancelled (fun hp => hnot (Or.inl hp)) hc)

/-! ### Runs -/

variable [DecidableEq U]

/-- Every job of the tables is sound. -/
def Jobs.Sound (c : Jobs U J) : Prop := ∀ jobId, (c.view jobId).Sound

variable {c : Jobs U J}

theorem Jobs.Sound.step (h : c.Sound) (now : Nat) (a : Action U J) : (c.step now a).Sound :=
  fun jobId => (h jobId).move (step_move c now a jobId)

theorem Jobs.Sound.exec (h : c.Sound) (calls : List (Nat × Action U J)) : (c.exec calls).Sound := by
  induction calls generalizing c with
  | nil => exact h
  | cons call calls ih => exact ih (h.step call.1 call.2)

theorem Jobs.sound_empty : ({} : Jobs U J).Sound := fun _ => rfl

/-- Whether one of the calls asks to queue the job again. -/
def requeuedIn (jobId : U) (calls : List (Nat × Action U J)) : Prop :=
  ∃ call ∈ calls, call.2.requeues jobId = true

theorem Jobs.Sound.onward (h : c.Sound) {jobId : U} (hrow : c.jobs.lookup jobId = some row)
    (calls : List (Nat × Action U J)) :
    ∃ row', (c.exec calls).jobs.lookup jobId = some row' ∧
      Onward (requeuedIn jobId calls) row row' := by
  induction calls generalizing c row with
  | nil =>
    exact ⟨row, hrow, .refl row⟩
  | cons call calls ih =>
    obtain ⟨row₁, hrow₁, hfirst⟩ :=
      Move.onward (v := c.view jobId) hrow (h jobId) (step_move c call.1 call.2 jobId)
    obtain ⟨row₂, hrow₂, hrest⟩ := ih (h.step call.1 call.2) hrow₁
    refine ⟨row₂, hrow₂, ?_⟩
    have hboth := hfirst.trans hrest
    have hiff : (call.2.requeues jobId = true ∨ requeuedIn jobId calls) ↔
        requeuedIn jobId (call :: calls) := by
      simp [requeuedIn]
    rwa [hiff] at hboth

/-- **The job store.**  After any calls, the events of a job are numbered from one, the last
    recorded status is the job's status, it is completed exactly when its status is terminal, no
    queued, running or succeeded job has a cancel request, and only terminal jobs are archived.
    Whatever calls follow, the progress does not go down and the status of an archived job stays;
    without a re-queue of the job a terminal status stays too, and a job with a cancel request does
    not succeed. -/
theorem job_store_sound (calls : List (Nat × Action U J)) (jobId : U) (row : Job J)
    (hrow : (Jobs.exec {} calls).jobs.lookup jobId = some row) :
    Sound row ((Jobs.exec {} calls).eventsOf jobId) ∧ ∀ later : List (Nat × Action U J), ∃ row',
        (Jobs.exec {} (calls ++ later)).jobs.lookup jobId = some row' ∧
          row.progress ≤ row'.progress ∧
          (row.archivedAt.isSome = true →
            row'.archivedAt.isSome = true ∧ row'.status = row.status) ∧
          (¬requeuedIn jobId later → (row.status.terminal = true → row'.status = row.status) ∧
              (row.cancelRequested = true → row'.status ≠ .succeeded)) := by
  have hsound := Jobs.sound_empty.exec calls
  constructor
  · have hview := hsound jobId
    unfold View.Sound Jobs.view at hview
    rw [hrow] at hview
    exact hview
  · intro later
    have hexec : Jobs.exec {} (calls ++ later) = (Jobs.exec {} calls).exec later :=
      foldl_append
    rw [hexec]
    obtain ⟨row', hrow', honward⟩ := hsound.onward hrow later
    refine ⟨row', hrow', honward.progress, honward.archived, ?_⟩
    intro hnot
    refine ⟨honward.terminal hnot, ?_⟩
    intro hcancel hsucceeded
    have hview := (hsound.exec later) jobId
    unfold View.Sound Jobs.view at hview
    rw [hrow'] at hview
    have hflag := hview.uncancelled (Or.inr (Or.inr hsucceeded))
    rw [honward.cancelled hnot hcancel] at hflag
    cases hflag

/-- A job that a worker has claimed. -/
def claimedCalls : List (Nat × Action Nat Unit) := [(0, .create "kernel.test" () 0), (1, .claim 0)]

def claimedJob : Job Unit :=
  { kind := "kernel.test", status := .running, payload := (), progress := 0, progressData := none,
    cancelRequested := false, result := none, error := none, createdAt := 0, updatedAt := 1,
    startedAt := some 1, completedAt := none, archivedAt := none }

theorem claimedCalls_sound :
    (Jobs.exec {} claimedCalls).jobs.lookup 0 = some claimedJob ∧
      Sound claimedJob ((Jobs.exec {} claimedCalls).eventsOf 0) := by
  have hrow : (Jobs.exec {} claimedCalls).jobs.lookup 0 = some claimedJob := by decide
  exact ⟨hrow, (job_store_sound claimedCalls 0 claimedJob hrow).1⟩

end TyloQuant.JobStore
