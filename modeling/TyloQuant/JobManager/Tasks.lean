import TyloQuant.JobManager.Statuses

/-!
# Tasks and the lifecycle lock

A job has at most one task that is not done, the one in `_tasks`; `close` empties that table only
when every task is done, which the lifecycle lock and `_closing` see to.  The invariant is kept by
each small operation on the manager, and a step is a composition of those.
-/

namespace TyloQuant.JobManager

open Lib JobStore

variable {U J : Type}

/-! ### The invariant -/

/-- Whether the coroutine is inside `async with self._lifecycle_lock`. -/
def Coroutine.locks : Coroutine U J → Bool
  | .recovering _ _ | .listing _ _ | .unwinding _ | .stopping _ => true
  | _ => false

variable [DecidableEq U]

/-- The job exists. -/
abbrev Exists (c : Jobs U J) (jobId : U) : Prop := (status c jobId).isSome = true

/-- A coroutine that is about to schedule jobs knows them from the store. -/
def Coroutine.Known (c : Jobs U J) : Coroutine U J → Prop
  | .creating _ _ jobId (some (.ok _)) => Exists c jobId
  | .requeueing jobId _ (some (.ok _)) => Exists c jobId
  | .listing _ (some ids) => ∀ jobId ∈ ids, Exists c jobId
  | _ => True

structure Consistent (s : Manager U J) : Prop where
  sound : s.store.Sound
  fresh : ∀ t task, s.runs.lookup t = some task → t < s.nextTask
  mapped : ∀ t task, s.runs.lookup t = some task → task.live → s.tasks.lookup task.jobId = some t
  locked : ∀ p c, s.coroutines.lookup p = some c → c.locks = true → s.lock = some p
  stopping : ∀ p ts, s.coroutines.lookup p = some (.stopping ts) →
    s.closing = true ∧ ∀ t task, s.runs.lookup t = some task → task.live → t ∈ ts
  known : ∀ t task, s.runs.lookup t = some task → Exists s.store task.jobId
  orphaned : ∀ call ∈ s.orphans, Exists s.store call.jobId
  answered : ∀ p c, s.coroutines.lookup p = some c → c.Known s.store

/-- Two live tasks of one job are one task. -/
theorem Consistent.unique {s : Manager U J} (h : Consistent s) {t t' : Nat} {task task' : Task U J}
    (ht : s.runs.lookup t = some task) (ht' : s.runs.lookup t' = some task') (hl : task.live)
    (hl' : task'.live) (hjob : task.jobId = task'.jobId) : t = t' := by
  have hm := h.mapped t task ht hl
  rw [hjob, h.mapped t' task' ht' hl', Option.some.injEq] at hm
  exact hm.symm

theorem Coroutine.Known.mono {c c' : Jobs U J} (hmono : ∀ jobId, Exists c jobId → Exists c' jobId)
    {co : Coroutine U J} (h : co.Known c) : co.Known c' := by
  unfold Coroutine.Known at h ⊢
  split
  · exact hmono _ h
  · exact hmono _ h
  · exact fun jobId hid => hmono _ (h jobId hid)
  · trivial

/-! ### The small operations -/

variable {c : Coroutine U J} {jobId : U}

namespace Consistent

variable {s : Manager U J} {p t : Nat}

/-- The store may change as long as it stays sound and loses no job. -/
theorem setStore (h : Consistent s) {c : Jobs U J} (hsound : c.Sound)
    (hmono : ∀ jobId, Exists s.store jobId → Exists c jobId) :
    Consistent { s with store := c } where
  sound := hsound
  fresh := h.fresh
  mapped := h.mapped
  locked := h.locked
  stopping := h.stopping
  known := fun t task ht => hmono _ (h.known t task ht)
  orphaned := fun call hc => hmono _ (h.orphaned call hc)
  answered := fun p c hp => (h.answered p c hp).mono hmono

theorem perform (h : Consistent s) (call : StoreCall U J) (now : Nat) :
    Consistent { s with store := (call.perform s.store now).2 } :=
  h.setStore (perform_sound h.sound) fun _ => perform_exists h.sound

theorem setOrphans (h : Consistent s) {calls : List (StoreCall U J)}
    (hcalls : ∀ call ∈ calls, Exists s.store call.jobId) : Consistent { s with orphans := calls } :=
  { h with orphaned := hcalls }

/-- A task moves within its job, and none comes back to life. -/
theorem setTask (h : Consistent s) {task task' : Task U J} (ht : s.runs.lookup t = some task)
    (hjob : task'.jobId = task.jobId) (hlive : task'.live → task.live) :
    Consistent (s.setTask t task') := by
  have hlookup : ∀ u v, (s.setTask t task').runs.lookup u = some v →
      ∃ w, s.runs.lookup u = some w ∧ v.jobId = w.jobId ∧ (v.live → w.live) := by
    intro u v hu
    rcases Table.lookup_insert_cases hu with ⟨rfl, rfl⟩ | ⟨-, hu⟩
    · exact ⟨task, ht, hjob, hlive⟩
    · exact ⟨v, hu, rfl, id⟩
  refine ⟨h.sound, ?_, ?_, h.locked, ?_, ?_, h.orphaned, h.answered⟩
  · intro u v hu
    obtain ⟨w, hw, -⟩ := hlookup u v hu
    exact h.fresh u w hw
  · intro u v hu hv
    obtain ⟨w, hw, hj, hl⟩ := hlookup u v hu
    rw [hj]
    exact h.mapped u w hw (hl hv)
  · intro q ts hq
    obtain ⟨hc, hall⟩ := h.stopping q ts hq
    refine ⟨hc, ?_⟩
    intro u v hu hv
    obtain ⟨w, hw, -, hl⟩ := hlookup u v hu
    exact hall u w hw (hl hv)
  · intro u v hu
    obtain ⟨w, hw, hj, -⟩ := hlookup u v hu
    rw [hj]
    exact h.known u w hw

theorem cancelTask (h : Consistent s) (t : Nat) : Consistent (s.cancelTask t) := by
  unfold Manager.cancelTask
  cases ht : s.runs.lookup t with
  | none => exact h
  | some task =>
    dsimp only
    split
    · exact h
    · exact h.setTask ht rfl id

theorem setEvent (h : Consistent s) (t : Nat) : Consistent (s.setEvent t) := by
  unfold Manager.setEvent
  cases ht : s.runs.lookup t with
  | none => exact h
  | some task => exact h.setTask ht rfl id

theorem schedule (h : Consistent s) (hexists : Exists s.store jobId) :
    Consistent (s.schedule jobId) := by
  unfold Manager.schedule
  split
  · exact h
  · rename_i hfree
    rw [not_or] at hfree
    obtain ⟨hopen, habsent⟩ := hfree
    have hnone : s.tasks.lookup jobId = none := AList.lookup_eq_none.mpr habsent
    refine ⟨h.sound, ?_, ?_, h.locked, ?_, ?_, h.orphaned, h.answered⟩
    · exact Table.forall_insert (fun u v hu => Nat.lt_succ_of_lt (h.fresh u v hu)) (Nat.lt_succ_self _)
    · intro u v hu hv
      dsimp only at hu ⊢
      rw [Table.lookup_insert_ite] at hu ⊢
      by_cases hut : u = s.nextTask
      · rw [if_pos hut, Option.some.injEq] at hu
        subst hu
        rw [if_pos rfl, hut]
      · rw [if_neg hut] at hu
        have hm := h.mapped u v hu hv
        by_cases hj : v.jobId = jobId
        · rw [hj, hnone] at hm
          cases hm
        · rw [if_neg hj]
          exact hm
    · intro q ts hq
      exact absurd (h.stopping q ts hq).1 hopen
    · exact Table.forall_insert h.known hexists

omit [DecidableEq U] in
theorem done_dead (hdone : s.done t = true) {task : Task U J} (ht : s.runs.lookup t = some task) :
    ¬task.live := by
  unfold Manager.done at hdone
  rw [ht] at hdone
  dsimp only at hdone
  split at hdone
  · rename_i hended
    exact fun hl => hl hended
  · cases hdone

theorem forget (h : Consistent s) (jobId : U) (hdone : s.done t = true) :
    Consistent (s.forget jobId t) := by
  unfold Manager.forget
  split
  · rename_i hmap
    refine { h with mapped := ?_ }
    intro u v hu hv
    dsimp only
    rw [Table.lookup_erase_ite]
    have hm := h.mapped u v hu hv
    by_cases hj : v.jobId = jobId
    · rw [hj, hmap, Option.some.injEq] at hm
      subst hm
      exact absurd hv (done_dead hdone hu)
    · rw [if_neg hj]
      exact hm
  · exact h

theorem setCoroutine (h : Consistent s) (hlocks : c.locks = true → s.lock = some p)
    (hstopping : ∀ ts, c = .stopping ts →
      s.closing = true ∧ ∀ t task, s.runs.lookup t = some task → task.live → t ∈ ts)
    (hknown : c.Known s.store) : Consistent (s.setCoroutine p c) := by
  have hlookup : ∀ q d, (s.setCoroutine p c).coroutines.lookup q = some d →
      q = p ∧ d = c ∨ s.coroutines.lookup q = some d :=
    fun q d hq => (Table.lookup_insert_cases hq).imp_right And.right
  refine ⟨h.sound, h.fresh, h.mapped, ?_, ?_, h.known, h.orphaned, ?_⟩
  · intro q d hq hd
    rcases hlookup q d hq with ⟨rfl, rfl⟩ | hq
    · exact hlocks hd
    · exact h.locked q d hq hd
  · intro q ts hq
    rcases hlookup q _ hq with ⟨rfl, hc⟩ | hq
    · exact hstopping ts hc.symm
    · exact h.stopping q ts hq
  · intro q d hq
    rcases hlookup q d hq with ⟨rfl, rfl⟩ | hq
    · exact hknown
    · exact h.answered q d hq

theorem setOutside (h : Consistent s) (hlocks : c.locks = false) (hknown : c.Known s.store) :
    Consistent (s.setCoroutine p c) := by
  refine h.setCoroutine (fun hl => ?_) (fun ts hc => ?_) hknown
  · rw [hlocks] at hl
    cases hl
  · subst hc
    cases hlocks

theorem leave (h : Consistent s) (p : Nat) : Consistent (s.leave p) := by
  have hlookup : ∀ q d, (s.leave p).coroutines.lookup q = some d →
      s.coroutines.lookup q = some d := fun q d hq => Table.lookup_of_erase hq
  exact ⟨h.sound, h.fresh, h.mapped, fun q d hq => h.locked q d (hlookup q d hq),
    fun q ts hq => h.stopping q ts (hlookup q _ hq), h.known, h.orphaned,
    fun q d hq => h.answered q d (hlookup q d hq)⟩

/-- While the lock is free nobody is inside. -/
theorem outside (h : Consistent s) (hfree : s.lock = none) (hp : s.coroutines.lookup p = some c) :
    c.locks = false := by
  cases hc : c.locks with
  | false => rfl
  | true =>
    have hl := h.locked p c hp hc
    rw [hfree] at hl
    cases hl

theorem acquire (h : Consistent s) (hfree : s.lock = none) (lock : Option Nat)
    (started closing : Bool) :
    Consistent { s with lock, started, closing } := by
  refine ⟨h.sound, h.fresh, h.mapped, ?_, ?_, h.known, h.orphaned, h.answered⟩
  · intro q c hq hc
    rw [h.outside hfree hq] at hc
    cases hc
  · intro q ts hq
    cases h.outside hfree hq

/-- The coroutine that holds the lock gives it back. -/
theorem release (h : Consistent s) (hp : s.coroutines.lookup p = some c) (hc : c.locks = true)
    (started : Bool) : Consistent { s.leave p with lock := none, started } := by
  have hleft := h.leave p
  have hlock := h.locked p c hp hc
  have hout : ∀ q d, (s.leave p).coroutines.lookup q = some d → d.locks = false := by
    intro q d hq
    cases hd : d.locks with
    | false => rfl
    | true =>
      have hq' := hleft.locked q d hq hd
      change s.lock = some q at hq'
      rw [hlock, Option.some.injEq] at hq'
      subst hq'
      unfold Manager.leave at hq
      rw [Table.lookup_erase_ite, if_pos rfl] at hq
      cases hq
  refine ⟨hleft.sound, hleft.fresh, hleft.mapped, ?_, ?_, hleft.known, hleft.orphaned,
    hleft.answered⟩
  · intro q d hq hd
    rw [hout q d hq] at hd
    cases hd
  · intro q ts hq
    cases hout q _ hq

theorem clear (h : Consistent s)
    (hdead : ∀ t task, s.runs.lookup t = some task → ¬task.live) :
    Consistent { s with tasks := ∅ } :=
  { h with mapped := fun t task ht hl => absurd hl (hdead t task ht) }

end Consistent

/-! ### Tasks in motion -/

section Motion

omit [DecidableEq U]

variable {task task' : Task U J} {closing : Bool}

theorem Task.proceed_job {cfg : Config U J} (h : task.proceed cfg closing = some task') :
    task'.jobId = task.jobId ∧ task.live := by
  unfold Task.proceed at h
  constructor
  · split at h <;> (try split at h) <;> (try split at h) <;> (try split at h) <;>
      first
        | exact (Option.some.inj h) ▸ rfl
        | cases h
  · intro hended
    rw [hended] at h
    simp at h

theorem Task.handled_job {cfg : Config U J} (lane : Lane) (outcome : Outcome J) :
    (task.handled cfg closing lane outcome).jobId = task.jobId := by
  cases outcome with
  | returned result =>
    simp only [Task.handled]
    split <;> rfl
  | failed detail => rfl
  | raised message typeName => rfl
  | cancelled => rfl

theorem Task.throwCancelled_job :
    (task.throwCancelled closing).jobId = task.jobId ∧
      ((task.throwCancelled closing).live → task.live) := by
  constructor
  · unfold Task.throwCancelled
    dsimp only
    split <;> rfl
  · intro hl hended
    unfold Task.throwCancelled at hl
    dsimp only at hl
    rw [hended] at hl
    exact hl rfl

variable {call : StoreCall U J}

theorem Phase.call_jobId {phase : Phase J} (h : phase.call jobId = some call) :
    call.jobId = jobId := by
  unfold Phase.call at h
  split at h <;> first | exact (Option.some.inj h) ▸ rfl | cases h

theorem Task.mem_leaves {drop : Bool} (h : call ∈ task.leaves drop) :
    task.reply = none ∧ drop = false ∧ task.phase.call task.jobId = some call := by
  unfold Task.leaves at h
  split at h
  · rename_i hleft
    rw [Bool.and_eq_true, Option.isNone_iff_eq_none, Bool.not_eq_true'] at hleft
    exact ⟨hleft.1, hleft.2, Option.mem_toList.mp h⟩
  · cases h

theorem Manager.run_some {cfg : Config U J} {s s' : Manager U J} {t : Nat}
    (h : s.run cfg t task = some s') : (task.proceed cfg s.closing).map (s.setTask t) = some s' := by
  unfold Manager.run at h
  split at h
  · cases h
  · split at h
    · split at h
      · exact h
      · cases h
    · exact h

end Motion

/-! ### Every step -/

namespace Consistent

variable {s s' : Manager U J} {p t now : Nat} {cfg : Config U J}

theorem schedule_frame (s : Manager U J) (j : U) :
    (s.schedule j).store = s.store ∧ (s.schedule j).coroutines = s.coroutines ∧
      (s.schedule j).orphans = s.orphans ∧ (s.schedule j).started = s.started := by
  unfold Manager.schedule
  split <;> exact ⟨rfl, rfl, rfl, rfl⟩

theorem schedule_all_frame (s : Manager U J) (ids : List U) :
    (ids.foldl Manager.schedule s).store = s.store ∧
      (ids.foldl Manager.schedule s).coroutines = s.coroutines ∧
      (ids.foldl Manager.schedule s).orphans = s.orphans ∧
      (ids.foldl Manager.schedule s).started = s.started := by
  induction ids generalizing s with
  | nil => exact ⟨rfl, rfl, rfl, rfl⟩
  | cons j ids ih =>
    obtain ⟨h₁, h₂, h₃, h₄⟩ := schedule_frame s j
    obtain ⟨g₁, g₂, g₃, g₄⟩ := ih (s.schedule j)
    exact ⟨g₁.trans h₁, g₂.trans h₂, g₃.trans h₃, g₄.trans h₄⟩

theorem schedule_all (h : Consistent s) {ids : List U} (hids : ∀ j ∈ ids, Exists s.store j) :
    Consistent (ids.foldl Manager.schedule s) := by
  induction ids generalizing s with
  | nil => exact h
  | cons j ids ih =>
    refine ih (h.schedule (hids j List.mem_cons_self)) ?_
    intro k hk
    rw [(schedule_frame s j).1]
    exact hids k (List.mem_cons_of_mem j hk)

omit [DecidableEq U] in
theorem cancelTask_frame (s : Manager U J) (t : Nat) :
    (s.cancelTask t).closing = s.closing ∧ (s.cancelTask t).lock = s.lock ∧
      (s.cancelTask t).tasks = s.tasks ∧ (s.cancelTask t).coroutines = s.coroutines ∧
      (s.cancelTask t).store = s.store ∧ (s.cancelTask t).orphans = s.orphans ∧
      (s.cancelTask t).started = s.started := by
  unfold Manager.cancelTask
  split
  · simp
  · split
    · simp
    · simp [Manager.setTask]

omit [DecidableEq U] in
theorem cancelAll_frame (s : Manager U J) (ts : List Nat) :
    (ts.foldl Manager.cancelTask s).closing = s.closing ∧
      (ts.foldl Manager.cancelTask s).lock = s.lock ∧
      (ts.foldl Manager.cancelTask s).tasks = s.tasks ∧
      (ts.foldl Manager.cancelTask s).coroutines = s.coroutines ∧
      (ts.foldl Manager.cancelTask s).store = s.store ∧
      (ts.foldl Manager.cancelTask s).orphans = s.orphans ∧
      (ts.foldl Manager.cancelTask s).started = s.started := by
  induction ts generalizing s with
  | nil => simp
  | cons t ts ih =>
    obtain ⟨h₁, h₂, h₃, h₄, h₅, h₆, h₇⟩ := cancelTask_frame s t
    obtain ⟨g₁, g₂, g₃, g₄, g₅, g₆, g₇⟩ := ih (s.cancelTask t)
    exact ⟨g₁.trans h₁, g₂.trans h₂, g₃.trans h₃, g₄.trans h₄, g₅.trans h₅, g₆.trans h₆,
      g₇.trans h₇⟩

theorem cancelAll (h : Consistent s) (ts : List Nat) :
    Consistent (ts.foldl Manager.cancelTask s) := by
  induction ts generalizing s with
  | nil => exact h
  | cons t ts ih => exact ih (h.cancelTask t)

theorem stop (h : Consistent s) (hlock : s.lock = some p) : Consistent (s.stop p) := by
  have hclosing : Consistent { s with closing := true } :=
    { h with stopping := fun q ts hq => ⟨rfl, (h.stopping q ts hq).2⟩ }
  have hall := hclosing.cancelAll (s.tasks.entries.map fun e => e.2)
  obtain ⟨hc, hl, htasks, -⟩ :=
    cancelAll_frame { s with closing := true } (s.tasks.entries.map fun e => e.2)
  refine hall.setCoroutine (fun _ => hl.trans hlock) (fun ts hts => ⟨hc, ?_⟩) trivial
  intro u v hu hv
  obtain rfl := Coroutine.stopping.inj hts
  have hm := hall.mapped u v hu hv
  rw [htasks] at hm
  exact List.mem_map.mpr ⟨⟨v.jobId, u⟩, AList.mem_lookup_iff.mp hm, rfl⟩

theorem afterStart (h : Consistent s) (cfg : Config U J) (p : Nat) (goal : Goal U J) :
    Consistent (s.afterStart cfg p goal) := by
  cases goal with
  | nothing => exact h.leave p
  | submit kind payload jobId =>
    unfold Manager.afterStart
    dsimp only
    split
    · exact h.setOutside rfl trivial
    · exact h.leave p
  | retry jobId payload freshId => exact h.setOutside rfl trivial

theorem retryJob (h : Consistent s) (cfg : Config U J) (p : Nat) (jobId : U) (payload : Option J)
    (freshId : U) (previous : Job J) :
    Consistent (s.retryJob cfg p jobId payload freshId previous) := by
  unfold Manager.retryJob
  split
  · split
    · exact h.leave p
    · split
      · exact h.leave p
      · split
        · exact h.setOutside rfl trivial
        · exact h.setOutside rfl trivial
  · split
    · exact h.setOutside rfl trivial
    · exact h.leave p

theorem resume (h : Consistent s) (hp : s.coroutines.lookup p = some c)
    (hs : s.resume cfg p c = some s') : Consistent s' := by
  have hknown := h.answered p c hp
  cases c with
  | starting goal =>
    simp only [Manager.resume] at hs
    by_cases hfree : s.lock = none
    · rw [if_neg (not_not.mpr hfree)] at hs
      split at hs
      · cases hs
        exact h.afterStart cfg p goal
      · cases hs
        exact (h.acquire hfree (some p) true false).setCoroutine (fun _ => rfl)
          (fun ts hc => by cases hc) trivial
    · rw [if_pos hfree] at hs
      cases hs
  | recovering goal done =>
    cases done with
    | false => cases hs
    | true =>
      cases hs
      exact h.setCoroutine (fun _ => h.locked p _ hp rfl) (fun ts hc => by cases hc) trivial
  | listing goal ids =>
    cases ids with
    | none => cases hs
    | some ids =>
      cases hs
      have hall := h.schedule_all hknown
      have hp' : (ids.foldl Manager.schedule s).coroutines.lookup p =
          some (.listing goal (some ids)) := by
        rw [(schedule_all_frame s ids).2.1]
        exact hp
      exact (hall.release hp' rfl _).afterStart cfg p goal
  | creating kind payload jobId reply =>
    rcases reply with _ | (e | row)
    · cases hs
    · cases hs
      exact h.leave p
    · cases hs
      exact (h.schedule hknown).leave p
  | looking jobId payload freshId reply =>
    rcases reply with _ | (e | row)
    · cases hs
    · cases hs
      exact h.leave p
    · cases hs
      exact h.retryJob cfg p jobId payload freshId row
  | joining jobId payload t =>
    simp only [Manager.resume] at hs
    split at hs
    · rename_i hdone
      cases hs
      exact (h.forget jobId hdone).setOutside rfl trivial
    · cases hs
  | requeueing jobId payload reply =>
    rcases reply with _ | (e | row)
    · cases hs
    · cases hs
      exact h.leave p
    · cases hs
      exact (h.schedule hknown).leave p
  | requesting jobId reply =>
    rcases reply with _ | (e | row)
    · cases hs
    · cases hs
      exact h.leave p
    · simp only [Manager.resume] at hs
      split at hs
      · cases hs
        exact h.leave p
      · cases hs
        exact ((h.setEvent _).cancelTask _).leave p
  | closing =>
    simp only [Manager.resume] at hs
    by_cases hfree : s.lock = none
    · rw [if_neg (not_not.mpr hfree)] at hs
      have hlocked : Consistent { s with lock := some p } :=
        h.acquire hfree (some p) s.started s.closing
      split at hs
      · cases hs
        exact h.leave p
      · split at hs
        · cases hs
          exact hlocked.stop rfl
        · cases hs
          exact hlocked.setCoroutine (fun _ => rfl) (fun ts hc => by cases hc) trivial
    · rw [if_pos hfree] at hs
      cases hs
  | unwinding ts =>
    cases hs
    exact h.stop (h.locked p _ hp rfl)
  | stopping ts =>
    simp only [Manager.resume] at hs
    split at hs
    · rename_i hdone
      cases hs
      have hdead : ∀ u v, s.runs.lookup u = some v → ¬v.live := by
        intro u v hu hv
        have hmem := (h.stopping p ts hp).2 u v hu hv
        exact done_dead (List.all_eq_true.mp hdone u hmem) hu hv
      exact (h.clear hdead).release hp rfl false
    · cases hs

theorem serve (h : Consistent s) (hp : s.coroutines.lookup p = some c)
    (hs : s.serve p now c = some s') : Consistent s' := by
  cases c with
  | recovering goal done =>
    cases done with
    | true => cases hs
    | false =>
      cases hs
      refine Consistent.setCoroutine ?_ (fun _ => h.locked p _ hp rfl)
        (fun ts hc => by cases hc) trivial
      exact h.setStore (h.sound.step now .recover) fun j hj => step_exists h.sound .recover hj
  | listing goal ids =>
    cases ids with
    | some ids => cases hs
    | none =>
      cases hs
      refine h.setCoroutine (fun _ => h.locked p _ hp rfl) (fun ts hc => by cases hc) ?_
      intro j hj
      obtain ⟨e, he, rfl⟩ := List.mem_map.mp hj
      rw [Exists, status_isSome, Table.lookup_of_mem_entries (List.mem_filter.mp he).1]
      rfl
  | creating kind payload jobId reply =>
    rcases reply with _ | reply
    · cases hs
      refine (h.perform (.createJob kind payload jobId) now).setOutside rfl ?_
      cases hr : ((StoreCall.createJob kind payload jobId).perform s.store now).1 with
      | error e => trivial
      | ok row => exact createJob_reply hr
    · cases hs
  | looking jobId payload freshId reply =>
    rcases reply with _ | reply
    · cases hs
      exact (h.perform (.getJob jobId) now).setOutside rfl trivial
    · cases hs
  | requeueing jobId payload reply =>
    rcases reply with _ | reply
    · cases hs
      refine (h.perform (.requeueJob jobId payload) now).setOutside rfl ?_
      cases hr : ((StoreCall.requeueJob jobId payload).perform s.store now).1 with
      | error e => trivial
      | ok row => exact requeueJob_reply hr
    · cases hs
  | requesting jobId reply =>
    rcases reply with _ | reply
    · cases hs
      exact (h.perform (.requestJobCancel jobId) now).setOutside rfl trivial
    · cases hs
  | _ => cases hs

/-- **Every step keeps the books.** -/
theorem step (h : Consistent s) {a : Action U J} (hs : s.step cfg a = some s') : Consistent s' := by
  cases a with
  | invoke p request =>
    simp only [Manager.step] at hs
    split at hs
    · cases hs
    · cases hs
      cases request <;> exact h.setOutside rfl trivial
  | resume p =>
    obtain ⟨c, hp, hs⟩ := Option.bind_eq_some_iff.mp hs
    exact h.resume hp hs
  | serve p now =>
    obtain ⟨c, hp, hs⟩ := Option.bind_eq_some_iff.mp hs
    exact h.serve hp hs
  | run t =>
    obtain ⟨task, ht, hs⟩ := Option.bind_eq_some_iff.mp hs
    obtain ⟨task', hproceed, rfl⟩ := Option.map_eq_some_iff.mp (Manager.run_some hs)
    obtain ⟨hjob, hlive⟩ := Task.proceed_job hproceed
    exact h.setTask ht hjob fun _ => hlive
  | execute t now =>
    obtain ⟨task, ht, hs⟩ := Option.bind_eq_some_iff.mp hs
    unfold Manager.execute at hs
    split at hs
    · cases hs
    · obtain ⟨call, -, rfl⟩ := Option.map_eq_some_iff.mp hs
      exact (h.perform call now).setTask ht rfl id
  | handlerEnds t outcome =>
    obtain ⟨task, ht, hs⟩ := Option.bind_eq_some_iff.mp hs
    unfold Manager.handlerEnds at hs
    split at hs
    · cases hs
    · split at hs
      · rename_i hphase
        cases hs
        refine h.setTask ht (Task.handled_job _ _) fun _ hended => ?_
        rw [hended] at hphase
        cases hphase
      · cases hs
  | cancelled t drop =>
    obtain ⟨task, ht, hs⟩ := Option.bind_eq_some_iff.mp hs
    unfold Manager.cancelled at hs
    split at hs
    · cases hs
      refine Consistent.setTask ?_ ht Task.throwCancelled_job.1 Task.throwCancelled_job.2
      refine h.setOrphans ?_
      intro call hcall
      rcases List.mem_append.mp hcall with hcall | hcall
      · exact h.orphaned call hcall
      · rw [Phase.call_jobId (Task.mem_leaves hcall).2.2]
        exact h.known t task ht
    · cases hs
  | callback t =>
    obtain ⟨task, ht, hs⟩ := Option.bind_eq_some_iff.mp hs
    split at hs
    · rename_i hdone
      cases hs
      exact h.forget task.jobId hdone
    · cases hs
  | late index now =>
    obtain ⟨call, -, rfl⟩ := Option.map_eq_some_iff.mp hs
    refine Consistent.setOrphans (h.perform call now) ?_
    intro other hother
    exact perform_exists h.sound (h.orphaned other (List.mem_of_mem_eraseIdx hother))

end Consistent

end TyloQuant.JobManager
