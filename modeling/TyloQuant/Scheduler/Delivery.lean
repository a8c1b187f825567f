import TyloQuant.Scheduler.OutboxBound

/-!
# The order of delivery

What the client of a request has taken, what its outbox holds and what waits are one stream: the
events in the order in which they were published.  Nothing stands behind a terminal event, as long
as no event is published behind one that waits.  `flush` and `wait` move the stream along, and
only `cancel` drops some of it.
-/

namespace TyloQuant.Scheduler

open Lib Engine List

variable {c : Config} {request request' : Request} {data e : EventData}

/-- What the client takes out during the action. -/
def taken (c : Config) (request : Request) : Action → List EventData
  | .wait => request.outbox.events
  | .publish data true =>
    if (request.publishLocked c data).2 then (request.publishLocked c data).1.outbox.events else []
  | _ => []

/-- What the client takes out during the actions. -/
def received (c : Config) (request : Request) : List Action → List EventData
  | [] => []
  | action :: actions => taken c request action ++ ((step c request action).map fun request =>
      received c request actions).getD []

def kept (data : EventData) : List EventData := if data.terminal then [] else [data]

/-- The events that the action publishes and that are not terminal. -/
def Action.published : Action → List EventData
  | .publish data _ => kept data
  | _ => []

/-- The action publishes no event while a terminal one waits. -/
def PublishesFirst (request : Request) : Action → Prop
  | .publish _ _ => Open request.pending
  | _ => True

/-- The stream of a request, of which `sent` is not waiting: only its last event is terminal, and
    the others are some of the published ones in their order. -/
structure Line (sent events : List EventData) (request : Request) : Prop where
  last : Open (sent ++ request.pending).dropLast
  finished : request.finished = false ↔ Open (sent ++ request.pending)
  terminal : request.outbox.terminal = false ↔ Open sent
  order : ((sent ++ request.pending).filter fun e => !e.terminal).Sublist events

/-- Nothing is lost of a request that is neither finished nor cancelled. -/
structure Ordered (sent events : List EventData) (request : Request) : Prop
    extends Line sent events request where
  whole : request.finished = false → request.cancelling = false →
    request.failure = none ∧ sent ++ request.pending = events

variable {pre sent sent' events pending : List EventData}

theorem open_append : Open (sent ++ pending) ↔ Open sent ∧ Open pending :=
  forall_mem_append

theorem open_concat : Open (sent ++ [e]) ↔ Open sent ∧ e.terminal = false := by
  rw [open_append, Open, Open, forall_mem_singleton]

theorem kept_truncate : kept (truncate data) = kept data := by
  cases data <;> rfl

/-- In front of what waits there is no terminal event. -/
theorem Line.sent_open (h : Line sent events request) (hwaits : request.pending ≠ []) :
    Open sent := by
  have hlast := h.last
  rw [dropLast_append_of_ne_nil hwaits] at hlast
  exact (open_append.mp hlast).1

theorem Line.drain (h : Line (pre ++ request.outbox.events) events request) :
    Line (pre ++ request.outbox.events ++ request.drain.outbox.events) events request.drain := by
  rw [Request.drain, List.append_nil]
  exact { h with }

theorem Ordered.add (h : Ordered sent events request) (hfree : request.finished = false)
    (hstream : sent' ++ request'.pending = sent ++ request.pending ++ [e])
    (hfinished : request'.finished = e.terminal)
    (hterminal : request'.outbox.terminal = false ↔ Open sent')
    (hflags : request'.cancelling = request.cancelling ∧ request'.failure = request.failure) :
    Ordered sent' (events ++ kept e) request' := by
  have hopen := h.finished.mp hfree
  refine ⟨⟨?_, ?_, hterminal, ?_⟩, ?_⟩
  · rw [hstream, dropLast_concat]
    exact hopen
  · rw [hstream, hfinished, open_concat, and_iff_right hopen]
  · rw [hstream, filter_append]
    refine h.order.append ?_
    cases he : e.terminal <;> simp [kept, he]
  · intro hnew hcancelling
    obtain ⟨hfailure, hwhole⟩ := h.whole hfree (hflags.1 ▸ hcancelling)
    rw [hfinished] at hnew
    simp [hstream, hwhole, hflags.2, hfailure, kept, hnew]

/-- An event that is not placed changes nothing, once the request is over or cancelled. -/
theorem Ordered.ignore (h : Ordered sent events request)
    (hover : request.finished = false → request.cancelling = true) :
    Ordered sent (events ++ kept data) request where
  toLine := { h.toLine with order := h.order.trans (sublist_append_left _ _) }
  whole hfree hcancelling := by cases (hover hfree).symm.trans hcancelling

theorem place_ordered (h : Ordered (pre ++ request.outbox.events) events request)
    (hfree : request.finished = false) {placed : Request} {refused : Bool}
    (hplace : ({ request with finished := data.terminal } : Request).place c data =
      (placed, refused)) :
    (refused = false ∧ Ordered (pre ++ placed.outbox.events) (events ++ kept data) placed) ∨
      (refused = true ∧ data.terminal = false ∧
        placed = { request with failure := some Request.outputLimit }) := by
  rw [← kept_truncate]
  unfold Request.place at hplace
  dsimp only at hplace
  split at hplace
  · rename_i hlarge
    rw [terminal_truncate, Bool.and_eq_true, Bool.not_eq_true'] at hlarge
    obtain ⟨rfl, rfl⟩ := hplace
    rw [hlarge.1, ← hfree]
    exact Or.inr ⟨rfl, rfl, rfl⟩
  · split at hplace
    · obtain ⟨rfl, rfl⟩ := hplace
      exact Or.inl ⟨rfl, h.add hfree (List.append_assoc _ _ _).symm (terminal_truncate data).symm
        h.terminal ⟨rfl, rfl⟩⟩
    · rename_i hempty
      simp only [Bool.or_eq_true, Bool.not_eq_true', not_or, Bool.not_eq_false,
        List.isEmpty_iff] at hempty
      obtain ⟨rfl, rfl⟩ := hplace
      refine Or.inl ⟨rfl, h.add hfree ?_ (terminal_truncate data).symm ?_ ⟨rfl, rfl⟩⟩
      · simp [Request.push, hempty.1]
      · have hsent := (open_append.mp (h.finished.mp hfree)).1
        rw [Request.push, ← List.append_assoc, open_concat, and_iff_right hsent]

theorem publishLocked_terminal (hdata : data.terminal = true) (hnil : request.pending = [])
    (hopen : request.outbox.terminal = false) : ∃ e, e.terminal = true ∧
      (request.publishLocked c data).1 = ({ request with finished := true } : Request).push c e := by
  have hplace : ∀ d : EventData, d.terminal = true →
      (({ request with finished := true } : Request).place c d).1 =
        ({ request with finished := true } : Request).push c (truncate d) := by
    intro d hd
    simp [Request.place, hd, hnil]
  unfold Request.publishLocked
  rw [hopen, hdata, Bool.or_true, if_neg Bool.false_ne_true]
  cases hfailure : request.failure with
  | none =>
    have hsent := hplace data hdata
    rw [hfailure] at hsent
    exact ⟨truncate data, by rw [terminal_truncate, hdata], hsent⟩
  | some failure =>
    have hsent := hplace (.failed failure) rfl
    rw [hfailure] at hsent
    exact ⟨truncate (.failed failure), rfl, hsent⟩

/-- The terminal event of a `cancel` ends the stream. -/
theorem cancelled_ordered (hopen : Open (pre ++ request.outbox.events))
    (horder : ((pre ++ request.outbox.events).filter fun e => !e.terminal).Sublist events)
    (hdata : data.terminal = true) (hnil : request.pending = [])
    (hterminal : request.outbox.terminal = false) :
    Ordered (pre ++ (request.publishLocked c data).1.outbox.events) events
      (request.publishLocked c data).1 := by
  obtain ⟨e, he, heq⟩ := publishLocked_terminal (c := c) hdata hnil hterminal
  rw [heq, Request.push, hnil, ← List.append_assoc]
  refine ⟨⟨?_, ?_, ?_, ?_⟩, nofun⟩
  · rw [List.append_nil, dropLast_concat]
    exact hopen
  · rw [List.append_nil, open_concat]
    simp [he]
  · rw [open_concat]
    simp [he]
  · simpa [he] using horder

theorem cancel_ordered (h : Line (pre ++ request.outbox.events) events request) :
    Ordered (pre ++ (request.cancel c).outbox.events) events (request.cancel c) := by
  have hsent : ((pre ++ request.outbox.events).filter fun e => !e.terminal).Sublist events :=
    ((sublist_append_left _ _).filter _).trans h.order
  unfold Request.cancel
  split
  · rename_i hfinished
    split
    · exact ⟨h, fun hfree => by cases hfinished.symm.trans hfree⟩
    · rename_i terminal hlast
      obtain ⟨front, hfront⟩ := getLast?_eq_some_iff.mp hlast
      have hopen := h.sent_open (by simp [hfront])
      have hdropped := h.last
      have hclosed := mt h.finished.mpr (by simp [hfinished])
      rw [hfront, ← List.append_assoc] at hdropped hclosed
      rw [dropLast_concat] at hdropped
      rw [open_concat, not_and, Bool.not_eq_false] at hclosed
      exact cancelled_ordered hopen hsent (hclosed hdropped) rfl (h.terminal.mpr hopen)
  · rename_i hfree
    have hopen := (open_append.mp (h.finished.mp (Bool.eq_false_of_not_eq_true hfree))).1
    split
    · rename_i hcancelling
      exact ⟨h, fun _ hnot => by cases hcancelling.symm.trans hnot⟩
    · dsimp only
      split
      · refine ⟨⟨?_, ?_, h.terminal, ?_⟩, nofun⟩
        · rw [List.append_nil]
          exact fun d hd => hopen d (dropLast_subset _ hd)
        · rw [List.append_nil]
          exact ⟨fun _ => hopen, fun _ => Bool.eq_false_of_not_eq_true hfree⟩
        · rwa [List.append_nil]
      · exact cancelled_ordered hopen hsent rfl rfl (h.terminal.mpr hopen)

theorem publishLocked_ordered (h : Ordered (pre ++ request.outbox.events) events request)
    (hfirst : Open request.pending) {placed : Request} {refused : Bool}
    (heq : request.publishLocked c data = (placed, refused)) :
    (refused = false ∧ Ordered (pre ++ placed.outbox.events) (events ++ kept data) placed) ∨
      (refused = true ∧ data.terminal = false ∧
        placed = { request with failure := some Request.outputLimit }) := by
  unfold Request.publishLocked at heq
  split at heq
  · rename_i hsent
    obtain ⟨rfl, rfl⟩ := heq
    refine Or.inl ⟨rfl, h.ignore fun hfree => ?_⟩
    cases hsent.symm.trans (h.terminal.mpr (open_append.mp (h.finished.mp hfree)).1)
  · rename_i hopen
    have hsent := h.terminal.mp (Bool.eq_false_of_not_eq_true hopen)
    have hfree := h.finished.mpr (open_append.mpr ⟨hsent, hfirst⟩)
    dsimp only at heq
    rw [hfree, Bool.false_or] at heq
    split at heq
    · exact place_ordered h hfree heq
    · rename_i failure hfailure
      split at heq
      · rename_i hdata
        rw [hdata] at heq
        have hend : (EventData.failed failure).terminal = true := rfl
        have hplaced := @place_ordered c request (.failed failure) pre events h hfree _ _ heq
        simpa [kept, hdata, hend] using hplaced
      · rename_i hdata
        obtain ⟨rfl, rfl⟩ := heq
        refine Or.inl ⟨rfl, ?_⟩
        rw [Bool.eq_false_of_not_eq_true hdata, ← hfree]
        refine h.ignore fun _ => ?_
        by_contra hnot
        cases hfailure.symm.trans (h.whole hfree (Bool.eq_false_of_not_eq_true hnot)).1

theorem publish_ordered (h : Ordered (pre ++ request.outbox.events) events request)
    (hfirst : Open request.pending) (drained : Bool) :
    Ordered (pre ++ taken c request (.publish data drained) ++
      (request.publish c data drained).outbox.events) (events ++ kept data)
        (request.publish c data drained) := by
  unfold Request.publish
  cases hplaced : request.publishLocked c data with
  | mk placed refused =>
    rcases publishLocked_ordered h hfirst hplaced with ⟨rfl, hord⟩ | ⟨rfl, hdata, heq⟩
    · cases drained <;> simpa [taken, hplaced] using hord
    · have hline : Line (pre ++ placed.outbox.events) (events ++ kept data) placed := by
        subst heq
        exact { h.toLine with order := h.order.trans (sublist_append_left _ _) }
      cases drained with
      | false => simpa [taken] using cancel_ordered hline
      | true => simpa [taken, hplaced] using cancel_ordered hline.drain

theorem flushLoop_ordered
    (h : Ordered (pre ++ request.outbox.events) events { request with pending }) :
    Ordered (pre ++ (request.flushLoop c pending).outbox.events) events
      (request.flushLoop c pending) := by
  induction pending generalizing request with
  | nil => exact h
  | cons data pending ih =>
    rw [Request.flushLoop]
    split
    · exact h
    · have hstream : pre ++ (request.outbox.events ++ [data]) ++ pending =
          pre ++ request.outbox.events ++ data :: pending := by simp
      have hsent := h.sent_open (cons_ne_nil _ _)
      refine ih ⟨⟨?_, ?_, ?_, ?_⟩, ?_⟩
      · rw [Request.push, hstream]
        exact h.last
      · rw [Request.push, hstream]
        exact h.finished
      · rw [Request.push, ← List.append_assoc, open_concat, and_iff_right hsent]
      · rw [Request.push, hstream]
        exact h.order
      · rw [Request.push, hstream]
        exact h.whole

/-- **One action** lets the client take out the head of the stream, and adds to its end. -/
theorem step_ordered {action : Action} (h : Ordered (pre ++ request.outbox.events) events request)
    (hfirst : PublishesFirst request action) (hstep : step c request action = some request') :
    Ordered (pre ++ taken c request action ++ request'.outbox.events)
      (events ++ action.published) request' := by
  cases action with
  | admitRequest =>
    cases hstep
    simpa [taken, Action.published] using (⟨{ h.toLine with }, h.whole⟩ : Ordered _ _
      { request with admitted := true })
  | publish data drained =>
    cases hstep
    exact publish_ordered h hfirst drained
  | flush =>
    cases hstep
    simpa [taken, Action.published, Request.flush] using flushLoop_ordered h
  | cancel =>
    cases hstep
    simpa [taken, Action.published] using cancel_ordered h.toLine
  | expire =>
    cases hstep
    unfold Request.expire
    split
    · simpa [taken, Action.published] using h
    · have hcancelled := @cancel_ordered c { request with failure := some Request.deadlineExceeded }
        pre events { h.toLine with }
      simpa [taken, Action.published] using hcancelled
  | wait =>
    obtain ⟨-, hdrain⟩ := Option.ite_none_right_eq_some.mp hstep
    cases hdrain
    have hwhole := h.whole
    exact ⟨by simpa [taken, Action.published] using h.toLine.drain,
      by simpa [taken, Action.published, Request.drain] using hwhole⟩

theorem run_ordered {actions : List Action}
    (h : Ordered (pre ++ request.outbox.events) events request)
    (hmeets : Meets (step c) PublishesFirst request actions)
    (hrun : run (step c) request actions = some request') :
    Ordered (pre ++ received c request actions ++ request'.outbox.events)
      (events ++ actions.flatMap Action.published) request' := by
  induction actions generalizing request pre events with
  | nil =>
    cases hrun
    simpa [received] using h
  | cons action actions ih =>
    obtain ⟨middle, hstep, hrest⟩ := run_cons.mp hrun
    obtain ⟨hfirst, hlater⟩ := meets_cons hmeets hstep
    simpa [received, hstep] using ih (step_ordered h hfirst hstep) hlater hrest

/-- **The order of delivery.**  In a run that publishes no event behind a terminal one that waits,
    what the client has got, what it can take out and what waits are the published events in
    their order, ended by at most one terminal event: all of them, until the request is finished
    or cancelled. -/
theorem delivered_in_order {id : SubmittedId} {actions : List Action}
    (hmeets : Meets (step c) PublishesFirst { id } actions)
    (hrun : run (step c) { id } actions = some request) :
    Ordered (received c { id } actions ++ request.outbox.events)
      (actions.flatMap Action.published) request := by
  have hsubmitted : Ordered ([] ++ ({ id } : Request).outbox.events) [] { id } := by
    refine ⟨⟨?_, ?_, ?_, ?_⟩, fun _ _ => ⟨rfl, rfl⟩⟩ <;> simp [Open]
  simpa using run_ordered hsubmitted hmeets hrun

instance (request : Request) : (action : Action) → Decidable (PublishesFirst request action)
  | .publish _ _ => inferInstanceAs (Decidable (∀ data ∈ request.pending, data.terminal = false))
  | .admitRequest | .flush | .cancel | .expire | .wait => isTrue trivial

/-- The client takes out three deltas, and then finds three more and the failure. -/
def takenBetween : List Action := failedBehind ++ [.wait, .flush]

theorem delivered_in_order_failed : ∃ request,
    run (step smallest) { id := shortId } takenBetween = some request ∧
      Ordered (received smallest { id := shortId } takenBetween ++ request.outbox.events)
        (takenBetween.flatMap Action.published) request := by
  have hrun : (run (step smallest) { id := shortId } takenBetween).isSome = true := by
    decide +kernel
  obtain ⟨request, hrequest⟩ := Option.isSome_iff_exists.mp hrun
  exact ⟨request, hrequest, delivered_in_order (by decide +kernel) hrequest⟩

end TyloQuant.Scheduler
