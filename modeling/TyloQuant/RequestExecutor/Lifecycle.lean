import TyloQuant.RequestExecutor.Executor

/-!
# The life of a request

A log of what happens to the ids: an admission, then the events of its request.  `Lifecycle` is
the grammar of the log of one id: a request has its progress and output until a terminal event
ends it.  Every visit of a step keeps it, with the request in the table exactly while it lives.
-/

namespace TyloQuant.RequestExecutor

open Lib Engine List

/-! ### Runs -/

inductive Entry where
  | admitted
  | event (data : EventData)
deriving DecidableEq

structure World where
  executor : Executor
  log : List (RequestId × Entry) := []

inductive Action where
  | admitRequest (id : RequestId) (batched exclusive : Bool) (prepared : Except Failure Nat)
  | cancel (id : RequestId)
  | step (eligible order : List RequestId) (environment : Environment)

def EngineEvent.entry (event : EngineEvent) : RequestId × Entry := (event.id, .event event.data)

/-- A call of the executor.  A call of `admit` that throws or defers leaves it as it is; a step
    may go through the table in any order. -/
def call (world : World) : Action → Option World
  | .admitRequest id batched exclusive prepared =>
    match world.executor.admitRequest id batched exclusive prepared with
    | .ok (.accepted, executor) =>
      some { executor, log := world.log ++ [(id, .admitted)] }
    | _ => some world
  | .cancel id => some { world with executor := world.executor.cancel id }
  | .step eligible order environment =>
    if order.Perm world.executor.requests.keys then
      let (result, executor) := world.executor.step eligible order environment
      some { executor, log := world.log ++ result.events.map EngineEvent.entry }
    else none

/-- What the log has of one id. -/
def logOf (id : RequestId) (log : List (RequestId × Entry)) : List Entry :=
  (log.filter fun entry => entry.1 = id).map Prod.snd

/-- The log of one id, and whether its request is alive. -/
inductive Lifecycle : Bool → List Entry → Prop where
  | nil : Lifecycle false []
  | admitted {log : List Entry} (before : Lifecycle false log) : Lifecycle true (log ++ [.admitted])
  | progress {log : List Entry} {data : EventData} (before : Lifecycle true log)
      (hopen : data.terminal = false) : Lifecycle true (log ++ [.event data])
  | terminal {log : List Entry} {data : EventData} (before : Lifecycle true log)
      (hterminal : data.terminal = true) : Lifecycle false (log ++ [.event data])

/-! ### Logs -/

section Logs

variable {id other : RequestId} {log : List (RequestId × Entry)}

theorem logOf_append (id : RequestId) (log more : List (RequestId × Entry)) :
    logOf id (log ++ more) = logOf id log ++ logOf id more := by
  unfold logOf
  rw [filter_append, map_append]

theorem logOf_events_self (id : RequestId) (events : List EventData) :
    logOf id ((events.map (EngineEvent.mk id)).map EngineEvent.entry)
      = events.map Entry.event := by
  induction events with
  | nil => rfl
  | cons data events ih =>
    unfold logOf at ih ⊢
    rw [map_cons, map_cons, filter_cons_of_pos (by simp [EngineEvent.entry]),
      map_cons, map_cons, ih]
    rfl

theorem logOf_events_of_ne (hne : other ≠ id) (events : List EventData) :
    logOf id ((events.map (EngineEvent.mk other)).map EngineEvent.entry) = [] := by
  unfold logOf
  rw [map_eq_nil_iff, filter_eq_nil_iff]
  intro entry hentry
  obtain ⟨event, hevent, rfl⟩ := mem_map.mp hentry
  obtain ⟨data, -, rfl⟩ := mem_map.mp hevent
  exact fun hsame => hne (of_decide_eq_true hsame)

variable {events : List EventData}

/-- A request that lives may have more progress. -/
theorem Lifecycle.progresses {log : List Entry} (h : Lifecycle true log)
    (hopen : ∀ data ∈ events, data.terminal = false) :
    Lifecycle true (log ++ events.map Entry.event) := by
  induction events generalizing log with
  | nil => simpa using h
  | cons data events ih =>
    rw [forall_mem_cons] at hopen
    rw [map_cons, append_cons]
    exact ih (h.progress hopen.1) hopen.2

variable {alive : Bool}

/-- A life goes on with progress, or ends with a terminal event. -/
theorem Lifecycle.of_concat {log : List Entry} {data : EventData}
    (h : Lifecycle alive (log ++ [.event data])) :
    Lifecycle true log ∧ data.terminal = !alive := by
  generalize hmore : log ++ [Entry.event data] = more at h
  cases h with
  | nil => simp at hmore
  | admitted before =>
    obtain ⟨-, hlast⟩ := append_inj' hmore rfl
    cases hlast
  | progress before hopen =>
    obtain ⟨rfl, hlast⟩ := append_inj' hmore rfl
    cases hlast
    exact ⟨before, hopen⟩
  | terminal before hterminal =>
    obtain ⟨rfl, hlast⟩ := append_inj' hmore rfl
    cases hlast
    exact ⟨before, hterminal⟩

variable {alive' : Bool}

/-- A log tells whether its request is alive. -/
theorem Lifecycle.alive_eq {log : List Entry} (h : Lifecycle alive log)
    (h' : Lifecycle alive' log) : alive = alive' := by
  induction h with
  | nil =>
    generalize hlog : ([] : List Entry) = log at h'
    cases h' with
    | nil => rfl
    | admitted | progress | terminal => simp at hlog
  | @admitted log before _ =>
    generalize hlog : log ++ [Entry.admitted] = more at h'
    cases h' with
    | nil => simp at hlog
    | admitted => rfl
    | progress | terminal =>
      obtain ⟨-, hlast⟩ := append_inj' hlog rfl
      cases hlast
  | @progress log data before hopen _ =>
    have hdata := h'.of_concat.2
    rw [hopen] at hdata
    cases alive' with
    | true => rfl
    | false => cases hdata
  | @terminal log data before hterminal _ =>
    have hdata := h'.of_concat.2
    rw [hterminal] at hdata
    cases alive' with
    | true => cases hdata
    | false => rfl

/-- What a list of events says of a life: none has passed, it goes on, or its last event ended
    it. -/
structure Passage (alive alive' : Bool) (events : List EventData) : Prop where
  none : alive = false → events = []
  progress : alive = true → alive' = true → ∀ data ∈ events, data.terminal = false
  ends : alive = true → alive' = false → ∃ before terminal, events = before ++ [terminal] ∧
    (∀ data ∈ before, data.terminal = false) ∧ terminal.terminal = true

theorem Lifecycle.passage {log : List Entry} (h : Lifecycle alive log)
    (h' : Lifecycle alive' (log ++ events.map Entry.event)) :
    Passage alive alive' events := by
  induction events using List.reverseRecOn generalizing alive' with
  | nil =>
    rw [map_nil, List.append_nil] at h'
    have hsame := h.alive_eq h'
    refine ⟨fun _ => rfl, fun _ _ => forall_mem_nil _, fun halive hgone => ?_⟩
    rw [hsame, hgone] at halive
    cases halive
  | append_singleton events data ih =>
    rw [map_append, map_singleton, ← List.append_assoc] at h'
    obtain ⟨hbefore, hdata⟩ := h'.of_concat
    have hpassage := ih hbefore
    have halive : alive = true := by
      cases alive with
      | true => rfl
      | false =>
        have hnone := hpassage.none rfl
        subst hnone
        rw [map_nil, List.append_nil] at hbefore
        exact h.alive_eq hbefore
    have hopen := hpassage.progress halive rfl
    refine ⟨fun hgone => ?_, fun _ hstays => ?_, fun _ hgone => ?_⟩
    · rw [halive] at hgone
      cases hgone
    · rw [hstays] at hdata
      exact forall_mem_append.mpr ⟨hopen, forall_mem_singleton.mpr hdata⟩
    · rw [hgone] at hdata
      exact ⟨events, data, rfl, hopen, hdata⟩

end Logs

/-- The events of one id in the result of a step. -/
def StepResult.eventsOf (result : StepResult) (id : RequestId) : List EventData :=
  (result.events.filter fun event => event.id = id).map EngineEvent.data

theorem logOf_events (id : RequestId) (events : List EngineEvent) :
    logOf id (events.map EngineEvent.entry)
      = ((events.filter fun event => event.id = id).map EngineEvent.data).map Entry.event := by
  unfold logOf
  rw [filter_map, map_map, map_map]
  rfl

/-! ### The last events -/

/-- The last events of a request end with its only terminal event. -/
theorem finish_events (healthy : Bool) (request : ExecutionRequest) (quantum : Quantum) :
    ∃ events terminal, (finish healthy request quantum).1 = events ++ [terminal] ∧
      (∀ data ∈ events, data.terminal = false) ∧ terminal.terminal = true := by
  unfold finish
  split
  · exact ⟨[], _, rfl, forall_mem_nil _, rfl⟩
  · exact ⟨[], _, rfl, forall_mem_nil _, rfl⟩
  · next output _ =>
      dsimp only
      rw [append_cons]
      refine ⟨_, _, rfl, ?_, ?_⟩
      · intro data hdata
        rcases mem_append.mp hdata with hdata | hdata
        · split at hdata
          · cases hdata
          · obtain rfl := mem_singleton.mp hdata
            rfl
        · obtain rfl := mem_singleton.mp hdata
          rfl
      · split <;> rfl

/-- A generation yields no terminal event. -/
theorem resume_events (request : ExecutionRequest) (quantum : Quantum) :
    ∀ data ∈ (resume request quantum).2.2, data.terminal = false := by
  unfold resume
  split
  · exact forall_mem_nil _
  · exact forall_mem_nil _
  · next state value _ _ =>
      cases value with
      | none => exact forall_mem_nil _
      | some v =>
        intro data hdata
        obtain rfl := mem_singleton.mp hdata
        exact v.property

/-! ### The table -/

/-- The table is within the capacity, and a request that is not batched has it for itself. -/
structure Orderly (executor : Executor) : Prop where
  size_le : executor.requests.entries.length ≤ executor.capacity
  alone : ∀ {id request}, executor.requests.lookup id = some request → request.batched = false →
    executor.requests.entries.length ≤ 1

section Table

variable {executor : Executor} {id : RequestId} {old request : ExecutionRequest}

theorem length_insert (h : executor.requests.lookup id = some old) (request : ExecutionRequest) :
    (executor.requests.insert id request).entries.length = executor.requests.entries.length := by
  have herase := Table.length_erase h
  change (executor.requests.erase id).entries.length + 1 = _
  omega

theorem Orderly.replace (h : Orderly executor) (hold : executor.requests.lookup id = some old)
    (hbatched : request.batched = old.batched) (healthy : Bool) :
    Orderly { executor with healthy, requests := executor.requests.insert id request } where
  size_le := by
    change (executor.requests.insert id request).entries.length ≤ _
    rw [length_insert hold]
    exact h.size_le
  alone {other current} hcurrent hserial := by
    change (executor.requests.insert id request).lookup other = some current at hcurrent
    change (executor.requests.insert id request).entries.length ≤ 1
    rw [length_insert hold]
    rw [Table.lookup_insert_ite] at hcurrent
    split at hcurrent
    · cases hcurrent
      rw [hbatched] at hserial
      exact h.alone hold hserial
    · exact h.alone hcurrent hserial

theorem Orderly.erase (h : Orderly executor) (hold : executor.requests.lookup id = some old)
    (healthy : Bool) :
    Orderly { executor with healthy, requests := executor.requests.erase id } where
  size_le := by
    have := Table.length_erase hold
    have := h.size_le
    change (executor.requests.erase id).entries.length ≤ executor.capacity
    omega
  alone {other current} hcurrent hserial := by
    have := Table.length_erase hold
    have := h.alone (Table.lookup_of_erase hcurrent) hserial
    change (executor.requests.erase id).entries.length ≤ 1
    omega

theorem Orderly.fail (h : Orderly executor) (error : Failure) (p : RequestId → Bool) :
    Orderly (executor.fail error p) where
  size_le := by
    unfold Executor.fail Table.mapVal
    rw [length_map]
    exact h.size_le
  alone {other current} hcurrent hserial := by
    unfold Executor.fail at hcurrent ⊢
    rw [Table.lookup_mapVal, Option.map_eq_some_iff] at hcurrent
    obtain ⟨request, hrequest, rfl⟩ := hcurrent
    have hbatched : request.batched = false := by
      split at hserial
      · exact hserial
      · exact hserial
    unfold Table.mapVal
    rw [length_map]
    exact h.alone hrequest hbatched

theorem mem_fail (error : Failure) (p : RequestId → Bool) :
    id ∈ (executor.fail error p).requests ↔ id ∈ executor.requests := by
  rw [Table.mem_iff, Table.mem_iff]
  unfold Executor.fail
  simp only [Table.lookup_mapVal, Option.map_eq_some_iff]
  constructor
  · rintro ⟨_, request, hrequest, -⟩
    exact ⟨request, hrequest⟩
  · rintro ⟨request, hrequest⟩
    exact ⟨_, request, hrequest, rfl⟩

/-- Whatever the shared execution throws, the table has the same requests. -/
theorem afterExecute_spec (h : Orderly executor) (eligible : List RequestId)
    (outcome : Option Failure) :
    (executor.afterExecute eligible outcome).capacity = executor.capacity ∧
    Orderly (executor.afterExecute eligible outcome) ∧
      ∀ id, id ∈ (executor.afterExecute eligible outcome).requests ↔ id ∈ executor.requests := by
  have hunhealthy : Orderly { executor with healthy := false } := { h with }
  unfold Executor.afterExecute
  split
  · exact ⟨rfl, h, fun _ => Iff.rfl⟩
  · exact ⟨rfl, hunhealthy.fail _ _, fun _ => mem_fail _ _⟩
  · exact ⟨rfl, hunhealthy.fail _ _, fun _ => mem_fail _ _⟩
  · exact ⟨rfl, h.fail _ _, fun _ => mem_fail _ _⟩

end Table

/-! ### A step -/

/-- The invariant of the loop of a step that began with this log. -/
structure Keeps (capacity : Nat) (log : List (RequestId × Entry)) (progress : Progress) : Prop where
  capacity_eq : progress.executor.capacity = capacity
  orderly : Orderly progress.executor
  living : ∀ id, Lifecycle (decide (id ∈ progress.executor.requests))
    (logOf id (log ++ progress.events.map EngineEvent.entry))

section Step

variable {capacity : Nat} {log : List (RequestId × Entry)} {progress : Progress} {id : RequestId}
  {old request : ExecutionRequest}

/-- One more list of events of a request leaves the logs of the others. -/
theorem logOf_more (log : List (RequestId × Entry)) (events : List EngineEvent)
    (data : List EventData) (other : RequestId) :
    logOf other (log ++ (events ++ data.map (EngineEvent.mk id)).map EngineEvent.entry)
      = logOf other (log ++ events.map EngineEvent.entry) ++
        if other = id then data.map Entry.event else [] := by
  rw [map_append, ← List.append_assoc, logOf_append]
  congr 1
  split
  · next hsame =>
      subst hsame
      exact logOf_events_self other data
  · next hne => exact logOf_events_of_ne (Ne.symm hne) data

theorem Keeps.values (h : Keeps capacity log progress) (hid : id ∈ progress.executor.requests)
    {data : List EventData} (hopen : ∀ d ∈ data, d.terminal = false) (advanced : List RequestId) :
    Keeps capacity log { progress with
      advanced
      events := progress.events ++ data.map (EngineEvent.mk id) } where
  capacity_eq := h.capacity_eq
  orderly := h.orderly
  living other := by
    have hother := h.living other
    change Lifecycle _ (logOf other (log ++ (progress.events ++ _).map EngineEvent.entry))
    rw [logOf_more]
    split
    · next hsame =>
        subst hsame
        rw [decide_eq_true hid] at hother ⊢
        exact hother.progresses hopen
    · rw [List.append_nil]
      exact hother

/-- The end of a visit: the request stays, or leaves with its only terminal event. -/
theorem Keeps.settle (h : Keeps capacity log progress)
    (hold : progress.executor.requests.lookup id = some old)
    (hbatched : request.batched = old.batched) (quantum : Quantum) :
    Keeps capacity log (progress.settle id request quantum) := by
  have hid : id ∈ progress.executor.requests := Table.mem_of_lookup hold
  unfold Progress.settle
  split
  · refine ⟨h.capacity_eq, h.orderly.replace hold hbatched _, fun other => ?_⟩
    change Lifecycle (decide (other ∈ progress.executor.requests.insert id request)) _
    rw [decide_eq_decide.mpr (Table.mem_insert_of_mem hid)]
    exact h.living other
  · dsimp only
    refine ⟨h.capacity_eq, h.orderly.erase hold _, fun other => ?_⟩
    have hother := h.living other
    change Lifecycle (decide (other ∈ progress.executor.requests.erase id)) _
    change Lifecycle _ (logOf other (log ++ (progress.events ++ _).map EngineEvent.entry))
    rw [logOf_more]
    split
    · next hsame =>
        subst hsame
        obtain ⟨events, terminal, hevents, hopen, hterminal⟩ := finish_events
          (progress.executor.healthy && quantum.cleanup.isNone)
          { request with failure := quantum.cleanup.or request.failure } quantum
        have hgone : other ∉ progress.executor.requests.erase other := by
          rw [AList.mem_erase]
          exact fun hmem => hmem.1 rfl
        rw [hevents, decide_eq_false hgone, map_append, ← List.append_assoc]
        rw [decide_eq_true hid] at hother
        exact (hother.progresses hopen).terminal hterminal
    · next hne =>
        have hmem : (other ∈ progress.executor.requests.erase id) ↔
            other ∈ progress.executor.requests := by
          rw [AList.mem_erase]
          exact and_iff_right hne
        rw [List.append_nil, decide_eq_decide.mpr hmem]
        exact hother

theorem resume_batched (request : ExecutionRequest) (quantum : Quantum) :
    (resume request quantum).1.batched = request.batched := by
  unfold resume
  split
  · rfl
  · rfl
  · dsimp only
    split <;> rfl

theorem Keeps.visit (h : Keeps capacity log progress) (environment : Environment)
    (eligible : List RequestId) (id : RequestId) :
    Keeps capacity log (progress.visit environment eligible id) := by
  unfold Progress.visit
  split
  · exact h
  · next request hrequest =>
      dsimp only
      split
      · exact (h.values (Table.mem_of_lookup hrequest) (resume_events request _) _).settle hrequest
          (resume_batched request _) _
      · exact h.settle hrequest rfl _

theorem Keeps.visits (h : Keeps capacity log progress) (environment : Environment)
    (eligible order : List RequestId) :
    Keeps capacity log (order.foldl (Progress.visit environment eligible) progress) := by
  induction order generalizing progress with
  | nil => exact h
  | cons id order ih => exact ih (h.visit environment eligible id)

end Step

/-! ### Calls -/

/-- What holds of the executor and its log after any calls. -/
structure Sound (capacity : Nat) (world : World) : Prop where
  capacity_eq : world.executor.capacity = capacity
  orderly : Orderly world.executor
  living : ∀ id, Lifecycle (decide (id ∈ world.executor.requests)) (logOf id world.log)

section Calls

variable {capacity : Nat} {world world' : World} {exclusive : Bool}

/-- A place is free, and the one who asks for all of them finds none taken. -/
theorem available_spec {executor : Executor} (h : Orderly executor)
    (hne : executor.available exclusive ≠ 0) :
    executor.requests.entries.length < executor.capacity ∧
      ∀ {id request}, executor.requests.lookup id = some request → request.batched = true := by
  unfold Executor.available at hne
  split at hne
  · exact absurd rfl hne
  · next hfree =>
      simp only [Bool.or_eq_true, not_or, any_eq_true, not_exists, not_and,
        Bool.not_eq_true', Bool.not_eq_false] at hfree
      refine ⟨?_, fun hrequest => hfree.2 _ (AList.mem_lookup_iff.mp hrequest)⟩
      have := h.size_le
      have := executor.capacity_lt
      omega

theorem orderly_admitted {executor : Executor} (h : Orderly executor) {id : RequestId}
    (hid : id ∉ executor.requests) (hfree : executor.available exclusive ≠ 0)
    {request : ExecutionRequest}
    (halone : request.batched = false → executor.requests.entries = []) :
    Orderly { executor with requests := executor.requests.insert id request } := by
  obtain ⟨hsize, hbatched⟩ := available_spec h hfree
  have hlength : (executor.requests.insert id request).entries.length
      = executor.requests.entries.length + 1 := by
    rw [AList.entries_insert_of_notMem hid]
    rfl
  refine ⟨?_, fun {other current} hcurrent hserial => ?_⟩
  · change (executor.requests.insert id request).entries.length ≤ executor.capacity
    omega
  · change (executor.requests.insert id request).lookup other = some current at hcurrent
    change (executor.requests.insert id request).entries.length ≤ 1
    rw [Table.lookup_insert_ite] at hcurrent
    split at hcurrent
    · cases hcurrent
      rw [hlength, halone hserial]
      exact Nat.le_refl 1
    · rw [hbatched hcurrent] at hserial
      cases hserial

theorem sound_admit (h : Sound capacity world) {id : RequestId} {batched : Bool}
    {prepared : Except Failure Nat} {executor : Executor}
    (hadmitted :
      world.executor.admitRequest id batched exclusive prepared = .ok (.accepted, executor)) :
    Sound capacity { executor, log := world.log ++ [(id, .admitted)] } := by
  unfold Executor.admitRequest at hadmitted
  split at hadmitted
  · cases hadmitted
  next hid =>
  split at hadmitted
  · cases hadmitted
  next hplace =>
  rw [not_or, not_and] at hplace
  split at hadmitted
  · cases hadmitted
  next promptTokens =>
  cases hadmitted
  refine ⟨h.capacity_eq, orderly_admitted h.orderly hid hplace.1 ?_, fun other => ?_⟩
  · intro hserial
    by_contra hne
    apply hplace.2 _ hne
    change batched = false at hserial
    rw [hserial]
    rfl
  · have hother := h.living other
    change Lifecycle (decide (other ∈ world.executor.requests.insert id _)) (logOf other (_ ++ _))
    rw [logOf_append]
    by_cases hsame : other = id
    · subst hsame
      have hnew : logOf other [(other, Entry.admitted)] = [.admitted] := by
        simp [logOf]
      rw [decide_eq_false hid] at hother
      rw [hnew, decide_eq_true ((AList.mem_insert _).mpr (.inl rfl))]
      exact hother.admitted
    · have hnew : logOf other [(id, Entry.admitted)] = [] := by
        simp [logOf, Ne.symm hsame]
      have hmem : (other ∈ world.executor.requests.insert id
          { promptTokens, batched }) ↔ other ∈ world.executor.requests := by
        rw [AList.mem_insert, or_iff_right hsame]
      rw [hnew, List.append_nil, decide_eq_decide.mpr hmem]
      exact hother

theorem sound_cancel (h : Sound capacity world) (id : RequestId) :
    Sound capacity { world with executor := world.executor.cancel id } := by
  unfold Executor.cancel
  split
  · exact h
  · next request hrequest =>
      have hid := Table.mem_of_lookup hrequest
      have hbatched : ({ request with cancelled := true } : ExecutionRequest).batched
          = request.batched := rfl
      refine ⟨h.capacity_eq, h.orderly.replace hrequest hbatched _, fun other => ?_⟩
      change Lifecycle (decide (other ∈ world.executor.requests.insert id _)) _
      rw [decide_eq_decide.mpr (Table.mem_insert_of_mem hid)]
      exact h.living other

theorem sound_step (h : Sound capacity world) (eligible order : List RequestId)
    (environment : Environment) :
    Sound capacity {
      executor := (world.executor.step eligible order environment).2
      log := world.log ++
        (world.executor.step eligible order environment).1.events.map EngineEvent.entry } := by
  obtain ⟨hcapacity, horderly, hmem⟩ := afterExecute_spec h.orderly eligible environment.execute
  have hbegin : Keeps capacity world.log
      { executor := world.executor.afterExecute eligible environment.execute } := by
    refine ⟨hcapacity.trans h.capacity_eq, horderly, fun id => ?_⟩
    rw [decide_eq_decide.mpr (hmem id), map_nil, List.append_nil]
    exact h.living id
  have hkeeps := hbegin.visits environment eligible order
  exact ⟨hkeeps.capacity_eq, hkeeps.orderly, hkeeps.living⟩

theorem sound_call (h : Sound capacity world) {action : Action}
    (hcall : call world action = some world') : Sound capacity world' := by
  cases action with
  | admitRequest id batched exclusive prepared =>
    unfold call at hcall
    dsimp only at hcall
    split at hcall
    · next executor hadmitted =>
        cases hcall
        exact sound_admit h hadmitted
    · cases hcall
      exact h
  | cancel id =>
    cases hcall
    exact sound_cancel h id
  | step eligible order environment =>
    obtain ⟨-, hstep⟩ := Option.ite_none_right_eq_some.mp hcall
    cases hstep
    exact sound_step h eligible order environment

end Calls

theorem sound_init {capacity : Nat} (hcapacity : capacity < 2 ^ 64) :
    Sound capacity { executor := { capacity, capacity_lt := hcapacity } } where
  capacity_eq := rfl
  orderly := ⟨Nat.zero_le _, fun hrequest _ => by cases hrequest⟩
  living id := by
    rw [decide_eq_false (AList.notMem_empty id)]
    exact .nil

/-- **Every request has one terminal event**: the table stays within the capacity, a request that
    is not batched has it for itself, and the log of an id is a sequence of lives, with the id in
    the table exactly while it lives.  The step that a request leaves the table in has its
    terminal event, after all its others. -/
theorem executor_lifecycle {capacity : Nat} {hcapacity : capacity < 2 ^ 64}
    {actions : List Action} {world : World}
    (hrun : run call { executor := { capacity, capacity_lt := hcapacity } } actions
      = some world) :
    world.executor.requests.entries.length ≤ capacity ∧
    (∀ {id request}, world.executor.requests.lookup id = some request →
      request.batched = false → world.executor.requests.entries.length = 1) ∧
    (∀ id, Lifecycle (decide (id ∈ world.executor.requests)) (logOf id world.log)) ∧
    ∀ eligible order environment id, Passage (decide (id ∈ world.executor.requests))
        (decide (id ∈ (world.executor.step eligible order environment).2.requests))
        ((world.executor.step eligible order environment).1.eventsOf id) := by
  have hsound : Sound capacity world :=
    run_invariant (fun _ _ _ h _ hcall => sound_call h hcall) (sound_init hcapacity)
      (Meets.of_forall (p := fun _ => True) fun _ _ => trivial) hrun
  refine ⟨hsound.capacity_eq ▸ hsound.orderly.size_le, fun hrequest hserial => ?_,
    hsound.living, fun eligible order environment id => ?_⟩
  · have hone := hsound.orderly.alone hrequest hserial
    have hpos := Table.length_erase hrequest
    omega
  · have hafter := (sound_step hsound eligible order environment).living id
    dsimp only at hafter
    rw [logOf_append, logOf_events] at hafter
    exact (hsound.living id).passage hafter

/-- Two requests share an execution that fails for one of them; the other is cancelled before it
    starts, and its generation ends at once. -/
def sharedFailure : List Action :=
  let environment := {
    execute := some (.resourceExhausted [])
    quantum := fun _ => { finish := .ok { finishReason := [] } } }
  [.admitRequest [97] true false (.ok 3), .admitRequest [98] true false (.ok 5), .cancel [98],
    .step [[97]] [[98], [97]] environment]

theorem executor_lifecycle_shared :
    ∃ world, run call { executor := { capacity := 2, capacity_lt := by decide } } sharedFailure
        = some world ∧ world.log.length = 5 ∧
      world.executor.requests.entries.length ≤ 2 ∧
      ∀ id, Lifecycle (decide (id ∈ world.executor.requests)) (logOf id world.log) := by
  have hrun : ((run call { executor := { capacity := 2, capacity_lt := by decide } }
      sharedFailure).map fun world => world.log.length) = some 5 := by
    decide +kernel
  obtain ⟨world, hworld, hlength⟩ := Option.map_eq_some_iff.mp hrun
  obtain ⟨hsize, -, hliving, -⟩ := executor_lifecycle hworld
  exact ⟨world, hworld, hlength, hsize, hliving⟩

end TyloQuant.RequestExecutor
