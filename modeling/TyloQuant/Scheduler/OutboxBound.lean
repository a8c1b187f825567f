import TyloQuant.Scheduler.Outbox

/-!
# The bound of the outbox

Without a terminal event the outbox leaves room for one: an event and `terminal_reserve` bytes.
`Sound` adds that at most one terminal event waits, and none behind one that was sent, so that
the room is taken once.  Every action keeps it, unless a terminal event is published while
another waits.
-/

namespace TyloQuant.Scheduler

open Lib Engine List

variable {c : Config} {request : Request} {data : EventData}

/-! ### Terminal events -/

@[simp] theorem terminal_truncate (data : EventData) :
    (truncate data).terminal = data.terminal := by
  cases data <;> rfl

/-- The reserve has room for any terminal event, once it is cut. -/
theorem Request.accounted_truncate_le (request : Request) (h : data.terminal = true) :
    request.accounted c (truncate data) ≤ c.sizes.terminalReserve := by
  have hid := request.id.length_le
  unfold Request.accounted Sizes.terminalReserve
  cases data with
  | prefillProgress => cases h
  | outputDelta => cases h
  | usageUpdate => cases h
  | completed finishReason usage =>
    have hcut : (finishReason.take 64).length ≤ 64 := length_take_le _ _
    simp only [truncate, Sizes.eventBytes]
    omega
  | cancelled usage =>
    simp only [truncate, Sizes.eventBytes]
    omega
  | failed failure =>
    have hcode : (failure.code.take 64).length ≤ 64 := length_take_le _ _
    have hmessage : (failure.message.take 512).length ≤ 512 := length_take_le _ _
    simp only [truncate, Sizes.eventBytes]
    omega

theorem openBytes_add (c : Config) :
    Request.openBytes c + c.sizes.terminalReserve = c.limits.bytes := by
  have hevent := c.sizes.event_le
  have hbytes := c.limits.bytes_ge
  unfold Request.openBytes Sizes.terminalReserve
  omega

/-! ### The outbox -/

/-- The counters of an outbox, with room for one terminal event until there is one. -/
structure Room (c : Config) (request : Request) : Prop where
  bytes_eq : request.outbox.bytes = (request.outbox.events.map (request.accounted c)).sum
  events_le : request.outbox.events.length ≤ c.limits.events
  bytes_le : request.outbox.bytes ≤ c.limits.bytes
  open_events : request.outbox.terminal = false → request.outbox.events.length ≤ c.limits.events - 1
  open_bytes : request.outbox.terminal = false → request.outbox.bytes ≤ Request.openBytes c

namespace Room

theorem sum_push (h : Room c request) (data : EventData) :
    request.outbox.bytes + request.accounted c data
      = ((request.outbox.events ++ [data]).map (request.accounted c)).sum := by
  rw [h.bytes_eq, map_append, sum_append, map_singleton, sum_singleton]

theorem push_open (h : Room c request)
    (hfull : request.full c data = false) : Room c (request.push c data) := by
  have hadd := openBytes_add c
  have hevents := c.limits.events_ge
  simp only [Request.full, Bool.or_eq_false_iff, decide_eq_false_iff_not, not_le, not_lt] at hfull
  have hlength : (request.outbox.events ++ [data]).length = request.outbox.events.length + 1 := by
    rw [length_append, length_singleton]
  exact {
    bytes_eq := h.sum_push data
    events_le := by
      change (request.outbox.events ++ [data]).length ≤ _
      omega
    bytes_le := by
      change request.outbox.bytes + request.accounted c data ≤ _
      omega
    open_events := fun _ => by
      change (request.outbox.events ++ [data]).length ≤ _
      omega
    open_bytes := fun _ => hfull.2 }

/-- A terminal event takes the room. -/
theorem push_terminal (h : Room c request) (hopen : request.outbox.terminal = false)
    (hdata : data.terminal = true)
    (hfits : request.accounted c data ≤ c.sizes.terminalReserve) :
    Room c (request.push c data) := by
  have hadd := openBytes_add c
  have hevents := c.limits.events_ge
  have hlength : (request.outbox.events ++ [data]).length = request.outbox.events.length + 1 := by
    rw [length_append, length_singleton]
  have hopen_events := h.open_events hopen
  have hopen_bytes := h.open_bytes hopen
  have hterminal : (request.push c data).outbox.terminal = true := hdata
  exact {
    bytes_eq := h.sum_push data
    events_le := by
      change (request.outbox.events ++ [data]).length ≤ _
      omega
    bytes_le := by
      change request.outbox.bytes + request.accounted c data ≤ _
      omega
    open_events := fun hfalse => by
      rw [hterminal] at hfalse
      cases hfalse
    open_bytes := fun hfalse => by
      rw [hterminal] at hfalse
      cases hfalse }

theorem drain (c : Config) (request : Request) : Room c request.drain where
  bytes_eq := rfl
  events_le := Nat.zero_le _
  bytes_le := Nat.zero_le _
  open_events _ := Nat.zero_le _
  open_bytes _ := Nat.zero_le _

end Room

/-! ### What waits -/

/-- No terminal event is in the list. -/
def Open (pending : List EventData) : Prop := ∀ data ∈ pending, data.terminal = false

/-- At most one terminal event is in the list, none if one was sent, and it fits the reserve. -/
structure Waiting (c : Config) (request : Request) (pending : List EventData) : Prop where
  one : pending.countP EventData.terminal ≤ 1
  sent : request.outbox.terminal = true → Open pending
  fits : ∀ data ∈ pending, data.terminal = true → request.accounted c data ≤ c.sizes.terminalReserve

/-- The invariant of a request. -/
structure Sound (c : Config) (request : Request) : Prop where
  room : Room c request
  waiting : Waiting c request request.pending

variable {pending : List EventData}

theorem open_iff_countP : Open pending ↔ pending.countP EventData.terminal = 0 := by
  rw [countP_eq_zero]
  unfold Open
  simp only [Bool.not_eq_true]

theorem waiting_nil (c : Config) (request : Request) : Waiting c request [] where
  one := Nat.zero_le _
  sent _ := forall_mem_nil _
  fits := forall_mem_nil _

/-- One more event waits: a terminal one only if none does. -/
theorem Waiting.concat (h : Waiting c request pending) (hopen : request.outbox.terminal = false)
    (hone : data.terminal = true → Open pending)
    (hfits : data.terminal = true → request.accounted c data ≤ c.sizes.terminalReserve) :
    Waiting c request (pending ++ [data]) where
  one := by
    rw [countP_append, countP_singleton]
    cases hdata : data.terminal with
    | false => simpa using h.one
    | true => simp [open_iff_countP.mp (hone hdata)]
  sent hsent := by
    rw [hopen] at hsent
    cases hsent
  fits e he hterminal := by
    rcases mem_append.mp he with he | he
    · exact h.fits e he hterminal
    · obtain rfl := mem_singleton.mp he
      exact hfits hterminal

/-- The loop of `flush` sends at most one terminal event. -/
theorem flushLoop_sound (hroom : Room c request) (hwaiting : Waiting c request pending) :
    Sound c (request.flushLoop c pending) := by
  induction pending generalizing request with
  | nil => exact ⟨{ hroom with }, waiting_nil c _⟩
  | cons data pending ih =>
    rw [Request.flushLoop]
    have hrest : ∀ e ∈ pending, e.terminal = true →
        request.accounted c e ≤ c.sizes.terminalReserve :=
      fun e he => hwaiting.fits e (mem_cons_of_mem _ he)
    have hone := hwaiting.one
    rw [countP_cons] at hone
    cases hdata : data.terminal with
    | true =>
      rw [Bool.not_true, Bool.false_and, if_neg Bool.false_ne_true]
      have hrest_open : Open pending := by
        rw [open_iff_countP]
        rw [hdata, if_pos rfl] at hone
        omega
      have hopen : request.outbox.terminal = false := by
        by_contra hsent
        have := hwaiting.sent (Bool.eq_true_of_not_eq_false hsent) data mem_cons_self
        rw [hdata] at this
        cases this
      apply ih (hroom.push_terminal hopen hdata (hwaiting.fits data mem_cons_self hdata))
      exact ⟨by rw [open_iff_countP.mp hrest_open]; exact Nat.zero_le _, fun _ => hrest_open, hrest⟩
    | false =>
      rw [Bool.not_false, Bool.true_and]
      cases hfull : request.full c data with
      | true =>
        rw [if_pos rfl]
        exact ⟨{ hroom with }, hwaiting.one, hwaiting.sent, hwaiting.fits⟩
      | false =>
        rw [if_neg Bool.false_ne_true]
        apply ih (hroom.push_open hfull)
        refine ⟨by omega, fun hsent => ?_, hrest⟩
        change data.terminal = true at hsent
        rw [hdata] at hsent
        cases hsent

/-! ### One action -/

/-- No other terminal event waits when this one is published. -/
def OnlyTerminal (request : Request) (data : EventData) : Prop :=
  data.terminal = true → Open request.pending

theorem place_sound (h : Sound c request) (hopen : request.outbox.terminal = false)
    (hone : OnlyTerminal request data) : Sound c (request.place c data).1 := by
  unfold Request.place
  dsimp only
  have hfits (hdata : (truncate data).terminal = true) :
      request.accounted c (truncate data) ≤ c.sizes.terminalReserve := by
    rw [terminal_truncate] at hdata
    exact request.accounted_truncate_le hdata
  have hone' : (truncate data).terminal = true → Open request.pending := by
    rw [terminal_truncate]
    exact hone
  by_cases hlarge : (!(truncate data).terminal &&
      decide (Request.openBytes c < request.accounted c (truncate data))) = true
  · rw [if_pos hlarge]
    exact ⟨{ h.room with }, { h.waiting with }⟩
  rw [if_neg hlarge]
  by_cases hwait : (!request.pending.isEmpty ||
      (!(truncate data).terminal && request.full c (truncate data))) = true
  · rw [if_pos hwait]
    exact ⟨{ h.room with }, { h.waiting.concat hopen hone' hfits with }⟩
  rw [if_neg hwait]
  simp only [Bool.or_eq_true, Bool.not_eq_true', Bool.and_eq_true, not_or, Bool.not_eq_false,
    List.isEmpty_iff] at hwait
  obtain ⟨hempty, hfull⟩ := hwait
  have hwaiting : Waiting c (request.push c (truncate data))
      (request.push c (truncate data)).pending := by
    change Waiting c _ request.pending
    rw [hempty]
    exact waiting_nil c _
  cases hdata : (truncate data).terminal with
  | true => exact ⟨h.room.push_terminal hopen hdata (hfits hdata), hwaiting⟩
  | false =>
    refine ⟨h.room.push_open ?_, hwaiting⟩
    rw [hdata] at hfull
    simpa using hfull

theorem publishLocked_sound (h : Sound c request) (hone : OnlyTerminal request data) :
    Sound c (request.publishLocked c data).1 := by
  unfold Request.publishLocked
  cases hopen : request.outbox.terminal with
  | true => exact h
  | false =>
    rw [if_neg Bool.false_ne_true]
    have hfinished : Sound c { request with finished := request.finished || data.terminal } :=
      ⟨{ h.room with }, { h.waiting with }⟩
    dsimp only
    split
    · exact place_sound hfinished hopen hone
    · split
      · next hdata =>
          apply place_sound hfinished hopen
          intro _
          exact hone hdata
      · exact hfinished

/-- `cancel` drops what waits before it publishes. -/
theorem cancel_sound (h : Sound c request) : Sound c (request.cancel c) := by
  have hdropped : Sound c { request with pending := [] } := ⟨{ h.room with }, waiting_nil c _⟩
  unfold Request.cancel
  split
  · split
    · exact h
    · apply publishLocked_sound hdropped
      intro _
      exact forall_mem_nil _
  · split
    · exact h
    · have hcancelling : Sound c { request with cancelling := true, pending := [] } :=
        ⟨{ h.room with }, waiting_nil c _⟩
      dsimp only
      split
      · exact hcancelling
      · apply publishLocked_sound hcancelling
        intro _
        exact forall_mem_nil _

theorem drain_sound (h : Sound c request) : Sound c request.drain :=
  ⟨Room.drain c request, { h.waiting with }⟩

theorem publish_sound (h : Sound c request) (hone : OnlyTerminal request data) (drained : Bool) :
    Sound c (request.publish c data drained) := by
  have hlocked := publishLocked_sound h hone
  unfold Request.publish
  split
  · next placed heq =>
      rw [heq] at hlocked
      exact hlocked
  · next placed heq =>
      rw [heq] at hlocked
      apply cancel_sound
      cases drained with
      | true => exact drain_sound hlocked
      | false => exact hlocked

/-- The action publishes no terminal event while another waits. -/
def ParksOne (request : Request) : Action → Prop
  | .publish data _ => OnlyTerminal request data
  | _ => True

theorem step_sound {request' : Request} {action : Action} (h : Sound c request)
    (hone : ParksOne request action) (hstep : step c request action = some request') :
    Sound c request' := by
  cases action with
  | admitRequest =>
    cases hstep
    exact ⟨{ h.room with }, { h.waiting with }⟩
  | publish data drained =>
    cases hstep
    exact publish_sound h hone drained
  | flush =>
    cases hstep
    exact flushLoop_sound h.room h.waiting
  | cancel =>
    cases hstep
    exact cancel_sound h
  | expire =>
    cases hstep
    unfold Request.expire
    split
    · exact h
    · apply cancel_sound
      exact ⟨{ h.room with }, { h.waiting with }⟩
  | wait =>
    obtain ⟨-, hdrain⟩ := Option.ite_none_right_eq_some.mp hstep
    cases hdrain
    exact drain_sound h

/-! ### Runs -/

theorem submitted_sound (c : Config) (id : SubmittedId) : Sound c { id } where
  room := {
    bytes_eq := rfl
    events_le := Nat.zero_le _
    bytes_le := Nat.zero_le _
    open_events := fun _ => Nat.zero_le _
    open_bytes := fun _ => Nat.zero_le _ }
  waiting := waiting_nil c _

/-- The outbox is within its limits, its bytes are those of its events, and until it has a
    terminal event any terminal event still fits. -/
structure Bounded (c : Config) (request : Request) : Prop where
  events_le : request.outbox.events.length ≤ c.limits.events
  bytes_eq : request.outbox.bytes = (request.outbox.events.map (request.accounted c)).sum
  bytes_le : request.outbox.bytes ≤ c.limits.bytes
  terminal_fits : request.outbox.terminal = false → ∀ data : EventData, data.terminal = true →
    request.outbox.events.length + 1 ≤ c.limits.events ∧
      request.outbox.bytes + request.accounted c (truncate data) ≤ c.limits.bytes

theorem Sound.bounded (h : Sound c request) : Bounded c request where
  events_le := h.room.events_le
  bytes_eq := h.room.bytes_eq
  bytes_le := h.room.bytes_le
  terminal_fits hopen data hdata := by
    have hevents := h.room.open_events hopen
    have hbytes := h.room.open_bytes hopen
    have hlimit := c.limits.events_ge
    have hadd := openBytes_add c
    have hfits := request.accounted_truncate_le (c := c) hdata
    exact ⟨by omega, by omega⟩

/-- A run that publishes no terminal event while another waits keeps the outbox within its
    limits. -/
theorem outbox_bounded {id : SubmittedId} {actions : List Action}
    (hmeets : Meets (step c) ParksOne { id } actions)
    (hrun : run (step c) { id } actions = some request) : Bounded c request :=
  (run_invariant (fun _ _ _ h hone hstep => step_sound h hone hstep) (submitted_sound c id)
    hmeets hrun).bounded

instance (request : Request) (action : Action) : Decidable (ParksOne request action) := by
  cases action <;> unfold ParksOne
  case publish data drained =>
    exact inferInstanceAs (Decidable (data.terminal = true →
      ∀ data ∈ request.pending, data.terminal = false))
  all_goals exact isTrue trivial

/-- Four events of 400 bytes and more, in 4096 bytes. -/
def smallest : Config where
  sizes := { event := 400, diff := 64, event_le := by decide }
  limits := { events := 4, bytes := 4096, events_ge := by decide, bytes_ge := by decide }

def shortId : SubmittedId := ⟨[97], by decide, by decide⟩

/-- Six deltas in one step of the engine, three of which wait; then the engine fails. -/
def failedBehind : List Action :=
  [.admitRequest] ++ (List.range 6).map (fun token => .publish (.outputDelta [token] []) false) ++
    [.publish (.failed { code := text "backend_failure", message := text "step" }) false]

theorem outbox_bounded_failed :
    ∃ request, run (step smallest) { id := shortId } (failedBehind ++ [.wait, .flush])
        = some request ∧ request.outbox.events.length = 4 ∧ Bounded smallest request := by
  have hrun : ((run (step smallest) { id := shortId } (failedBehind ++ [.wait, .flush])).map
      fun request => request.outbox.events.length) = some 4 := by
    decide +kernel
  obtain ⟨request, hrequest, hlength⟩ := Option.map_eq_some_iff.mp hrun
  exact ⟨request, hrequest, hlength, outbox_bounded (by decide +kernel) hrequest⟩

/-- The engine's own terminal event comes late, and waits behind the failure: both are sent, and
    the outbox has five events. -/
theorem outbox_exceeds : ∃ request, run (step smallest) { id := shortId }
        (failedBehind ++ [.publish (.cancelled {}) false, .wait, .flush]) = some request ∧
      smallest.limits.events < request.outbox.events.length ∧ ¬Bounded smallest request := by
  have hrun : ((run (step smallest) { id := shortId }
      (failedBehind ++ [.publish (.cancelled {}) false, .wait, .flush])).map
        fun request => request.outbox.events.length) = some 5 := by
    decide +kernel
  obtain ⟨request, hrequest, hlength⟩ := Option.map_eq_some_iff.mp hrun
  have hlimit : smallest.limits.events = 4 := rfl
  refine ⟨request, hrequest, by omega, fun hbounded => ?_⟩
  have := hbounded.events_le
  omega

end TyloQuant.Scheduler
