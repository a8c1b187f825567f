import TyloQuant.StdioClient.Streams

/-!
# Runs of the stdio client

A stream has no gap and no request is orphaned, in every run in which the end of the reader finds
no full queue that begins with an event of an unfinished answer, and no call is cancelled while it
awaits `drain` for its request or the write lock for its `request.cancel`.
-/

namespace TyloQuant.StdioClient

open Lib List

variable {D : Type}

/-! ### What the claim speaks of -/

/-- A `request.cancel` for the id was written behind its request. -/
def CancelledAfter (written : List Written) (id : Nat) : Prop :=
  ∃ before after kind, written = before ++ .cancel id :: after ∧ .request id kind ∈ before

theorem CancelledAfter.append {written : List Written} {id : Nat}
    (h : CancelledAfter written id) (more : List Written) : CancelledAfter (written ++ more) id := by
  obtain ⟨before, after, kind, rfl, hbefore⟩ := h
  exact ⟨before, after ++ more, kind, by simp, hbefore⟩

/-- The reader ends with the line. -/
def Line.refused : Line D → Bool
  | .invalid => true
  | _ => false

namespace Client

/-- Everything that the worker has sent. -/
def sent (s : Client D) : List (Line D) := s.read ++ s.wire

/-- What is to hold of every state. -/
structure Kept (s : Client D) : Prop where
  /-- The events of a stream are a beginning of what the worker has sent, and all of it when the
      stream ends with `done`. -/
  streams : ∀ id c, s.calls id = some c → c.kind = .generate →
    c.yielded <+: events (bodies id s.sent) ∧
      (c.complete = true → c.yielded = events (bodies id s.sent))
  /-- A call takes only frames with its own id. -/
  separate : ∀ id c, s.calls id = some c → ∀ frame ∈ c.got, frame.1 = id
  /-- A request whose call has ended without its last frame was cancelled. -/
  cancelled : ∀ id c, s.calls id = some c → c.kind = .generate → c.phase = .ended →
    c.finished = false → c.openAtEnd = true → (∃ kind, .request id kind ∈ s.written) →
    CancelledAfter s.written id

def asked (s : Client D) (id : Nat) : Bool :=
  s.written.any fun
    | .request j _ => j = id
    | _ => false

/-- The worker answers requests that it was sent, and ends a generate request with one terminal
    frame. -/
def Obeys (s : Client D) : Event D → Prop
  | .send (.frame id _) => s.asked id = true ∧
      (.request id .generate ∈ s.written → ∀ f ∈ bodies id s.sent, f.terminal = false)
  | _ => True

/-- `_fail_pending` would leave no gap. -/
def gapless (cfg : Config D) (s : Client D) : Bool :=
  (List.range s.ids).all fun id => (s.calls id).all fun c => !c.gap cfg.limit

/-- The call does not await `drain` for its request, nor the lock for its `request.cancel`. -/
def settled (s : Client D) (id : Nat) : Bool :=
  (s.calls id).all fun c => c.kind ≠ .generate ||
    (c.phase ≠ .drain .request && c.phase ≠ .lockWait .cancel)

instance (s : Client D) : (a : Event D) → Decidable (s.Obeys a)
  | .send (.frame id _) => inferInstanceAs (Decidable (s.asked id = true ∧
      (.request id .generate ∈ s.written → ∀ f ∈ bodies id s.sent, f.terminal = false)))
  | .send .ready | .send .invalid | .opening _ | .grant _ | .drained _ | .drainFailed _ | .next _
  | .wake _ | .timeout _ | .leave _ | .cancel _ | .readLine | .stopReader | .breakPipe | .shutdown
  | .shutdownDrained | .close | .cancelReader | .failClosed => isTrue trivial

/-- The step is none of those that leave a gap in a stream or an orphaned request. -/
def Spares (cfg : Config D) (s : Client D) : Event D → Prop
  | .stopReader => s.gapless cfg = true
  | .failClosed => s.gapless cfg = true
  | .readLine => s.wire.head?.any Line.refused = true → s.gapless cfg = true
  | .cancel id => s.settled id = true ∧ cfg.fits (.cancel id) = true
  | .leave id => cfg.fits (.cancel id) = true
  | _ => True

instance (cfg : Config D) (s : Client D) : (a : Event D) → Decidable (s.Spares cfg a)
  | .stopReader | .failClosed => inferInstanceAs (Decidable (s.gapless cfg = true))
  | .readLine => inferInstanceAs (Decidable
      (s.wire.head?.any Line.refused = true → s.gapless cfg = true))
  | .cancel id => inferInstanceAs (Decidable
      (s.settled id = true ∧ cfg.fits (.cancel id) = true))
  | .leave id => inferInstanceAs (Decidable (cfg.fits (.cancel id) = true))
  | .send _ | .opening _ | .grant _ | .drained _ | .drainFailed _ | .next _ | .wake _ | .timeout _
  | .breakPipe | .shutdown | .shutdownDrained | .close | .cancelReader => isTrue trivial

/-! ### The invariant -/

/-- What the invariant of a call reads of the client. -/
structure View (D : Type) where
  ids : Nat
  written : List Written
  read : List (Line D)
  wire : List (Line D)
  reading : Bool

def view (s : Client D) : View D :=
  { ids := s.ids, written := s.written, read := s.read, wire := s.wire, reading := s.reading }

structure CallSound (v : View D) (id : Nat) (c : Call D) : Prop where
  fresh : id < v.ids
  tagged : ∀ j body, .frame j body ∈ c.queue → j = id
  got : ∀ frame ∈ c.got, frame.1 = id
  stream : c.kind = .generate → Stream c (bodies id v.read) v.reading
  last : c.kind = .generate → TerminalLast (bodies id (v.read ++ v.wire))
  unfinished : c.alive → c.complete = false
  kind : ∀ kind, .request id kind ∈ v.written → kind = c.kind
  unasked : c.phase = .lockWait .request → ∀ kind, .request id kind ∉ v.written
  asked : c.phase ≠ .lockWait .request → c.phase ≠ .ended → .request id c.kind ∈ v.written
  cancelled : c.phase = .drain .cancel → CancelledAfter v.written id
  ended : c.kind = .generate → c.phase = .ended → c.finished = false → c.openAtEnd = true →
    (∃ kind, .request id kind ∈ v.written) → CancelledAfter v.written id

structure Sound (s : Client D) : Prop where
  calls : ∀ id c, s.calls id = some c → CallSound s.view id c
  silent : ∀ id, bodies id s.sent ≠ [] → ∃ kind, .request id kind ∈ s.written
  known : ∀ id kind, .request id kind ∈ s.written → ∃ c, s.calls id = some c

variable {s s' : Client D} {id : Nat} {c c' : Call D}

theorem Sound.kept (h : Sound s) : Kept s where
  streams := by
    intro id c hc hkind
    have hcall := h.calls id c hc
    have hstream := hcall.stream hkind
    have hsent : bodies id s.sent = bodies id s.read ++ bodies id s.wire := bodies_append ..
    constructor
    · rw [hsent, events_append]
      exact hstream.yielded.trans (prefix_append ..)
    · intro hcomplete
      obtain ⟨hyielded, hdone⟩ := hstream.complete hcomplete
      obtain ⟨pre, post, hread⟩ := append_of_mem hdone
      have hlast := hcall.last hkind pre .done (post ++ bodies id s.wire)
        (by
          show bodies id (s.read ++ s.wire) = _
          rw [bodies_append]
          show bodies id s.read ++ _ = _
          rw [show bodies id s.read = pre ++ .done :: post from hread, List.append_assoc]
          rfl) rfl
      have hwire : bodies id s.wire = [] := (append_eq_nil_iff.mp hlast).2
      rw [hsent, hwire, List.append_nil]
      exact hyielded
  separate := fun id c hc => (h.calls id c hc).got
  cancelled := fun id c hc => (h.calls id c hc).ended

theorem Sound.init : Sound (init : Client D) where
  calls := fun id c hc => by cases hc
  silent := fun id hne => absurd rfl hne
  known := fun id kind hw => absurd hw not_mem_nil

theorem setCall_self (s : Client D) (id : Nat) (c : Call D) : (s.setCall id c).calls id = some c :=
  Function.update_self ..

theorem setCall_ne (s : Client D) {id j : Nat} (c : Call D) (h : j ≠ id) :
    (s.setCall id c).calls j = s.calls j :=
  Function.update_of_ne h ..

theorem Sound.setCall (h : Sound s) (hnew : CallSound s.view id c') : Sound (s.setCall id c') where
  calls := by
    intro j c hj
    by_cases hid : j = id
    · subst hid
      rw [setCall_self] at hj
      cases hj
      exact hnew
    · rw [setCall_ne s c' hid] at hj
      exact h.calls j c hj
  silent := h.silent
  known := by
    intro j kind hw
    by_cases hid : j = id
    · exact ⟨c', hid ▸ setCall_self s id c'⟩
    · rw [setCall_ne s c' hid]
      exact h.known j kind hw

theorem Sound.unlock (h : Sound s) : Sound s.unlock := ⟨h.calls, h.silent, h.known⟩

theorem Sound.setIds (h : Sound s) : Sound { s with ids := s.ids + 1 } where
  calls := fun id c hc =>
    { h.calls id c hc with fresh := (h.calls id c hc).fresh.trans (Nat.lt_succ_self _) }
  silent := h.silent
  known := h.known

/-- The call ends.  It was not asked for, or it is closed anyway, or it has been cancelled. -/
theorem Sound.finish (h : Sound s) (hc : CallSound s.view id c)
    (hend : c.kind = .generate → c.finished = false → s.isOpen = true →
      (∃ kind, .request id kind ∈ s.written) → CancelledAfter s.written id) :
    Sound (s.finish id c) := by
  have hdead : ∀ c' : Call D, c'.phase = .ended → ¬c'.alive := by
    rintro c' hphase (h | h | h | h) <;> cases hphase.symm.trans h
  refine h.setCall {
    fresh := hc.fresh
    tagged := hc.tagged
    got := hc.got
    stream := fun hkind => (hc.stream hkind).dead rfl rfl (hdead _ rfl)
    last := hc.last
    unfinished := fun halive => absurd halive (hdead _ rfl)
    kind := hc.kind
    unasked := fun hphase => by cases hphase
    asked := fun _ hover => absurd rfl hover
    cancelled := fun hphase => by cases hphase
    ended := fun hkind _ => hend hkind }

variable {v : View D}

theorem CallSound.wrote (hc : CallSound v id c) {frame : Written}
    (hother : ∀ kind, frame ≠ .request id kind) :
    CallSound { v with written := v.written ++ [frame] } id c := by
  have hback : ∀ kind, .request id kind ∈ v.written ++ [frame] → .request id kind ∈ v.written := by
    intro kind hmem
    rcases mem_append.mp hmem with hold | hnew
    · exact hold
    · exact absurd (mem_singleton.mp hnew).symm (hother kind)
  exact {
    fresh := hc.fresh
    tagged := hc.tagged
    got := hc.got
    stream := hc.stream
    last := hc.last
    unfinished := hc.unfinished
    kind := fun kind hmem => hc.kind kind (hback kind hmem)
    unasked := fun hphase kind hmem => hc.unasked hphase kind (hback kind hmem)
    asked := fun hwait hover => mem_append_left _ (hc.asked hwait hover)
    cancelled := fun hphase => (hc.cancelled hphase).append _
    ended := fun hkind hphase hfinished hopen hasked =>
      (hc.ended hkind hphase hfinished hopen
        (hasked.imp fun kind hmem => hback kind hmem)).append _ }

variable {w : Write}

/-- A waiting call writes its frame. -/
theorem Sound.write (h : Sound s) (hc : CallSound s.view id { c with phase := .lockWait w }) :
    Sound (s.write id c w) := by
  have hothers : ∀ j c', j ≠ id → s.calls j = some c' →
      CallSound { s.view with written := s.written ++ [frameOf id c.kind w] } j c' := by
    intro j c' hj hc'
    refine (h.calls j c' hc').wrote fun kind heq => ?_
    cases w with
    | request =>
      cases heq
      exact hj rfl
    | cancel => cases heq
  have hself : CallSound { s.view with written := s.written ++ [frameOf id c.kind w] } id
      { c with phase := .drain w } := by
    cases w with
    | request =>
      have hnone : ∀ kind, .request id kind ∉ s.written := hc.unasked rfl
      have hmem : ∀ kind, .request id kind ∈ s.written ++ [.request id c.kind] →
          kind = c.kind := by
        intro kind hkind
        rcases mem_append.mp hkind with hold | hnew
        · exact absurd hold (hnone kind)
        · cases mem_singleton.mp hnew
          rfl
      have halive : Call.alive { c with phase := .lockWait .request } := .inl rfl
      exact {
        fresh := hc.fresh
        tagged := hc.tagged
        got := hc.got
        stream := fun hkind => (hc.stream hkind).goOn halive rfl rfl rfl rfl
        last := hc.last
        unfinished := fun _ => hc.unfinished halive
        kind := hmem
        unasked := fun hphase => by cases hphase
        asked := fun _ _ => mem_append_right _ mem_cons_self
        cancelled := fun hphase => by cases hphase
        ended := fun _ hphase => by cases hphase }
    | cancel =>
      have hwrote : CallSound { s.view with written := s.written ++ [.cancel id] } id _ :=
        hc.wrote fun kind heq => by cases heq
      have hasked := hc.asked (by simp) (by simp)
      have hdead : ¬Call.alive { c with phase := .drain .cancel } := by
        rintro (h | h | h | h) <;> cases h
      exact {
        fresh := hc.fresh
        tagged := hc.tagged
        got := hc.got
        stream := fun hkind => (hc.stream hkind).dead rfl rfl hdead
        last := hc.last
        unfinished := fun halive => absurd halive hdead
        kind := hwrote.kind
        unasked := fun hphase => by cases hphase
        asked := fun _ _ => mem_append_left _ hasked
        cancelled := fun _ => ⟨s.written, [], c.kind, rfl, hasked⟩
        ended := fun _ hphase => by cases hphase }
  constructor
  · intro j c' hj
    by_cases hid : j = id
    · subst hid
      rw [Client.write, setCall_self] at hj
      cases hj
      exact hself
    · rw [Client.write, setCall_ne _ _ hid] at hj
      exact hothers j c' hid hj
  · intro j hne
    obtain ⟨kind, hmem⟩ := h.silent j hne
    exact ⟨kind, mem_append_left _ hmem⟩
  · intro j kind hmem
    by_cases hid : j = id
    · subst hid
      exact ⟨_, setCall_self ..⟩
    · rw [Client.write, setCall_ne _ _ hid]
      rcases mem_append.mp hmem with hold | hnew
      · exact h.known j kind hold
      · cases w with
        | request =>
          cases mem_singleton.mp hnew
          exact absurd rfl hid
        | cancel => cases mem_singleton.mp hnew

theorem Sound.beginWrite (h : Sound s) (hc : CallSound s.view id { c with phase := .lockWait w }) :
    Sound (s.beginWrite id c w) := by
  unfold Client.beginWrite
  split
  · exact h.write hc
  · exact h.setCall hc

theorem CallSound.lockWait (hc : CallSound v id c)
    (hphase : c.phase ≠ .lockWait .request ∧ c.phase ≠ .ended) :
    CallSound v id { c with phase := .lockWait .cancel } := by
  have hdead : ¬Call.alive { c with phase := .lockWait .cancel } := by
    rintro (h | h | h | h) <;> cases h
  exact {
    fresh := hc.fresh
    tagged := hc.tagged
    got := hc.got
    stream := fun hkind => (hc.stream hkind).dead rfl rfl hdead
    last := hc.last
    unfinished := fun halive => absurd halive hdead
    kind := hc.kind
    unasked := fun hphase => by cases hphase
    asked := fun _ _ => hc.asked hphase.1 hphase.2
    cancelled := fun hphase => by cases hphase
    ended := fun _ hphase => by cases hphase }

variable {cfg : Config D}

theorem Sound.notifyCancel (h : Sound s) (hc : CallSound s.view id c)
    (hphase : c.phase ≠ .lockWait .request ∧ c.phase ≠ .ended)
    (hfits : c.kind = .generate → cfg.fits (.cancel id) = true) :
    Sound (s.notifyCancel cfg id c) := by
  unfold Client.notifyCancel
  split
  · rename_i hclosed
    refine h.finish hc fun hkind _ hopen => ?_
    have hfit := hfits hkind
    simp [isOpen] at hopen
    simp [hfit, hopen] at hclosed
  · exact h.beginWrite (hc.lockWait hphase)

theorem CallSound.dead (hc : CallSound v id c)
    (hphase : c.phase ≠ .lockWait .request ∧ c.phase ≠ .ended) (pending : Bool) :
    CallSound v id { c with phase := .dead, pending } := by
  have hdead : ∀ c' : Call D, c'.phase = .dead → ¬c'.alive := by
    rintro c' hphase (h | h | h | h) <;> cases hphase.symm.trans h
  exact {
    fresh := hc.fresh
    tagged := hc.tagged
    got := hc.got
    stream := fun hkind => (hc.stream hkind).dead rfl rfl (hdead _ rfl)
    last := hc.last
    unfinished := fun halive => absurd halive (hdead _ rfl)
    kind := hc.kind
    unasked := fun hphase => by cases hphase
    asked := fun _ _ => hc.asked hphase.1 hphase.2
    cancelled := fun hphase => by cases hphase
    ended := fun _ hphase => by cases hphase }

theorem Sound.leave (h : Sound s) (hc : CallSound s.view id c)
    (hphase : c.phase ≠ .lockWait .request ∧ c.phase ≠ .ended)
    (hfits : cfg.fits (.cancel id) = true) : Sound (s.leave cfg id c) := by
  unfold Client.leave
  split
  · have hdead := hc.dead hphase false
    have hnotify : Sound (s.notifyCancel cfg id { c with phase := .dead, pending := false }) :=
      h.notifyCancel hdead ⟨by simp, by simp⟩ fun _ => hfits
    exact hnotify
  · rename_i hstay
    refine h.finish hc fun hkind hfinished hopen => absurd ⟨hkind, ?_, ?_⟩ hstay
    · simp [hfinished]
    · simp [isOpen] at hopen
      simp [hopen]

theorem Sound.newCall (h : Sound s) (kind : Kind) : CallSound { s.view with ids := s.ids + 1 } s.ids
      { kind, phase := .lockWait .request } := by
  have hunasked : ∀ kind, .request s.ids kind ∉ s.written := by
    intro kind hmem
    obtain ⟨c, hc⟩ := h.known s.ids kind hmem
    exact absurd (h.calls s.ids c hc).fresh (Nat.lt_irrefl _)
  have hsent : bodies s.ids (s.read ++ s.wire) = [] := by
    by_contra hne
    obtain ⟨kind, hmem⟩ := h.silent s.ids hne
    exact hunasked kind hmem
  have hread : bodies s.ids s.read = [] := by
    rw [bodies_append] at hsent
    exact (append_eq_nil_iff.mp hsent).1
  have hwhole : Whole { kind, phase := .lockWait .request } (bodies s.ids s.read) := by
    rw [hread]
    exact ⟨suffix_rfl, rfl⟩
  exact {
    fresh := Nat.lt_succ_self _
    tagged := fun j body hmem => absurd hmem not_mem_nil
    got := fun frame hmem => absurd hmem not_mem_nil
    stream := fun _ => {
      yielded := List.nil_prefix
      complete := fun hcomplete => by cases hcomplete
      alive := fun _ => .inl hwhole
      reading := fun _ _ _ => hwhole
      dropped := fun _ hpending => by cases hpending }
    last := by
      intro _ pre f post hsplit
      have hnil : bodies s.ids (s.read ++ s.wire) = pre ++ f :: post := hsplit
      rw [hsent] at hnil
      cases pre <;> cases hnil
    unfinished := fun _ => rfl
    kind := fun kind hmem => absurd hmem (hunasked kind)
    unasked := fun _ => hunasked
    asked := fun hwait => absurd rfl hwait
    cancelled := fun hphase => by cases hphase
    ended := fun _ hphase => by cases hphase }

theorem Sound.opening (h : Sound s) {kind : Kind} (hs' : s.opening cfg kind = some s') :
    Sound s' := by
  unfold Client.opening at hs'
  split at hs'
  · cases hs'
  split at hs'
  · cases hs'
    exact h
  dsimp only at hs'
  have hnew := h.newCall kind
  split at hs'
  · cases hs'
    refine h.setIds.finish (c := { kind, phase := .lockWait .request }) hnew ?_
    rintro - - - ⟨kind, hmem⟩
    exact absurd hmem (hnew.unasked rfl kind)
  · cases hs'
    exact h.setIds.beginWrite hnew

theorem Sound.drained (h : Sound s) (hc : CallSound s.view id c) (hphase : c.phase = .drain w) :
    Sound (s.drained id c w) := by
  cases w with
  | request =>
    have hasked := hc.asked (by simp [hphase]) (by simp [hphase])
    have halive : c.alive := .inr (.inl hphase)
    refine h.unlock.setCall {
      fresh := hc.fresh
      tagged := hc.tagged
      got := hc.got
      stream := fun hkind => (hc.stream hkind).goOn halive rfl rfl rfl rfl
      last := hc.last
      unfinished := fun _ => hc.unfinished halive
      kind := hc.kind
      unasked := ?_
      asked := fun _ _ => hasked
      cancelled := ?_
      ended := ?_ }
    · intro hwait
      dsimp only at hwait
      split at hwait <;> cases hwait
    · intro hdrain
      dsimp only at hdrain
      split at hdrain <;> cases hdrain
    · intro _ hover
      dsimp only at hover
      split at hover <;> cases hover
  | cancel => exact h.unlock.finish hc fun _ _ _ _ => hc.cancelled hphase

theorem CallSound.record (hc : CallSound v id c) {item : Item D} {queue : List (Item D)}
    (hq : c.queue = item :: queue) :
    ∀ frame ∈ ({ c with queue }.record item).got, frame.1 = id := by
  intro frame hmem
  cases item with
  | failure => exact hc.got frame hmem
  | frame j body =>
    rcases mem_append.mp hmem with hold | hnew
    · exact hc.got frame hold
    · rw [mem_singleton.mp hnew]
      exact hc.tagged j body (by rw [hq]; exact mem_cons_self)

/-- What taking an item leaves as it is. -/
structure SameCall (c c' : Call D) : Prop where
  kind : c'.kind = c.kind
  queue : c'.queue = c.queue
  got : c'.got = c.got

theorem record_same (c : Call D) (item : Item D) :
    (c.record item).kind = c.kind ∧ (c.record item).queue = c.queue := by
  cases item <;> exact ⟨rfl, rfl⟩

theorem generate_same (c : Call D) (item : Item D) : SameCall c (c.generate cfg item) ∧
    ((c.generate cfg item).phase = .idle ∨ (c.generate cfg item).phase = .dead) ∧
    ((c.generate cfg item).phase = .idle → (c.generate cfg item).complete = c.complete) := by
  cases item with
  | failure => exact ⟨⟨rfl, rfl, rfl⟩, .inr rfl, fun h => by cases h⟩
  | frame j body =>
    cases body with
    | event data =>
      rw [Call.generate]
      split
      · exact ⟨⟨rfl, rfl, rfl⟩, .inl rfl, fun _ => rfl⟩
      · exact ⟨⟨rfl, rfl, rfl⟩, .inr rfl, fun h => by cases h⟩
    | result => exact ⟨⟨rfl, rfl, rfl⟩, .inr rfl, fun h => by cases h⟩
    | done => exact ⟨⟨rfl, rfl, rfl⟩, .inr rfl, fun h => by cases h⟩
    | error => exact ⟨⟨rfl, rfl, rfl⟩, .inr rfl, fun h => by cases h⟩
    | other => exact ⟨⟨rfl, rfl, rfl⟩, .inr rfl, fun h => by cases h⟩

theorem realtime_same (c : Call D) (item : Item D) : SameCall c (c.realtime item) ∧
    ((c.realtime item).phase = .idle ∨ (c.realtime item).phase = .dead) ∧
    (c.realtime item).complete = c.complete := by
  cases item with
  | failure => exact ⟨⟨rfl, rfl, rfl⟩, .inr rfl, rfl⟩
  | frame j body =>
    cases body with
    | event data => exact ⟨⟨rfl, rfl, rfl⟩, .inl rfl, rfl⟩
    | result => exact ⟨⟨rfl, rfl, rfl⟩, .inl rfl, rfl⟩
    | done => exact ⟨⟨rfl, rfl, rfl⟩, .inr rfl, rfl⟩
    | error => exact ⟨⟨rfl, rfl, rfl⟩, .inr rfl, rfl⟩
    | other => exact ⟨⟨rfl, rfl, rfl⟩, .inr rfl, rfl⟩

theorem Sound.take (h : Sound s) (hc : CallSound s.view id c)
    (hphase : c.phase = .idle ∨ c.phase = .getting) (hs' : s.take cfg id c = some s') :
    Sound s' := by
  have halive : c.alive := hphase.elim (fun hi => .inr (.inr (.inl hi)))
    fun hg => .inr (.inr (.inr hg))
  have hasked := hc.asked (by rcases hphase with hp | hp <;> simp [hp])
    (by rcases hphase with hp | hp <;> simp [hp])
  have hunfinished := hc.unfinished halive
  unfold Client.take at hs'
  split at hs'
  · cases hs'
  · rename_i item queue hq
    have hgot := hc.record hq
    have htagged : ∀ j body, .frame j body ∈ queue → j = id := fun j body hmem =>
      hc.tagged j body (by rw [hq]; exact mem_cons_of_mem _ hmem)
    obtain ⟨hkind, hqueue⟩ := record_same { c with queue } item
    -- The call as the caller finds it, with the item taken off and the same stream otherwise.
    have hnext : ∀ c' : Call D, SameCall ({ c with queue }.record item) c' →
        (c'.phase = .idle ∨ c'.phase = .dead) → (c'.phase = .idle → c'.complete = false) →
        (c.kind = .generate → Stream c' (bodies id s.read) s.reading) →
        CallSound s.view id c' := by
      intro c' hsame hafter hcomplete hstream
      have hkind' : c'.kind = c.kind := hsame.kind.trans hkind
      exact {
        fresh := hc.fresh
        tagged := by
          rw [hsame.queue, hqueue]
          exact htagged
        got := by
          rw [hsame.got]
          exact hgot
        stream := fun hgen => hstream (hkind' ▸ hgen)
        last := fun hgen => hc.last (hkind' ▸ hgen)
        unfinished := by
          intro halive'
          rcases hafter with hidle | hdead
          · exact hcomplete hidle
          · rcases halive' with hp | hp | hp | hp <;> cases hdead.symm.trans hp
        kind := fun kind hmem => (hc.kind kind hmem).trans hkind'.symm
        unasked := fun hp => by rcases hafter with ha | ha <;> cases ha.symm.trans hp
        asked := fun _ _ => hkind'.symm ▸ hasked
        cancelled := fun hp => by rcases hafter with ha | ha <;> cases ha.symm.trans hp
        ended := fun _ hp => by rcases hafter with ha | ha <;> cases ha.symm.trans hp }
    have hcomplete : ({ c with queue }.record item).complete = false := by
      cases item <;> exact hunfinished
    dsimp only at hs'
    split at hs'
    · rename_i hgen
      cases hs'
      have hgenerate := @generate_same _ cfg ({ c with queue }.record item) item
      obtain ⟨hsame, hafter, hidle⟩ := hgenerate
      have hgen' : c.kind = .generate := hkind.symm.trans hgen
      refine h.setCall (hnext _ hsame hafter (fun hp => (hidle hp).trans hcomplete) fun _ => ?_)
      refine (hc.stream hgen').generate cfg hq halive hunfinished fun pre post hread => ?_
      have hlast := hc.last hgen' pre .done (post ++ bodies id s.wire)
        (by
          have hread' : bodies id s.read = pre ++ .done :: post := hread
          show bodies id (s.read ++ s.wire) = _
          rw [bodies_append, hread', List.append_assoc]
          rfl) rfl
      exact (append_eq_nil_iff.mp hlast).1
    · rename_i hunary
      cases hs'
      have hunary' : c.kind = .unary := hkind.symm.trans hunary
      have hdead := hnext { { c with queue }.record item with phase := .dead } ⟨rfl, rfl, rfl⟩
        (.inr rfl) (fun hp => by cases hp) fun hgen => by cases hunary'.symm.trans hgen
      have hover : Sound (s.finish id { { c with queue }.record item with phase := .dead }) :=
        h.finish hdead fun hgen => by cases hunary.symm.trans hgen
      exact hover
    · rename_i hreal
      cases hs'
      have hreal' : c.kind = .realtime := hkind.symm.trans hreal
      obtain ⟨hsame, hafter, hkeep⟩ := realtime_same ({ c with queue }.record item) item
      refine h.setCall (hnext _ hsame hafter (fun _ => hkeep.trans hcomplete) fun hgen => ?_)
      cases hreal'.symm.trans hgen

theorem settled_generate (h : s.settled id = true) (hc : s.calls id = some c)
    (hkind : c.kind = .generate) : c.phase ≠ .drain .request ∧ c.phase ≠ .lockWait .cancel := by
  rw [settled, hc] at h
  simpa [hkind] using h

theorem cancel_lockWait (h : c.phase = .lockWait w) : s.cancel cfg id c = s.finish id c := by
  unfold Client.cancel
  rw [h]

theorem cancel_drain (h : c.phase = .drain w) : s.cancel cfg id c = s.unlock.finish id c := by
  unfold Client.cancel
  rw [h]

theorem cancel_idle (h : c.phase = .idle ∨ c.phase = .dead) :
    s.cancel cfg id c = s.leave cfg id c := by
  unfold Client.cancel
  rcases h with h | h <;> rw [h]

theorem cancel_over (h : c.phase = .ended) : s.cancel cfg id c = s := by
  unfold Client.cancel
  rw [h]

theorem Sound.cancel (h : Sound s) (hget : s.calls id = some c) (hsettled : s.settled id = true)
    (hfits : cfg.fits (.cancel id) = true) : Sound (s.cancel cfg id c) := by
  have hc := h.calls id c hget
  cases hphase : c.phase with
  | lockWait w =>
    rw [cancel_lockWait hphase]
    refine h.finish hc fun hkind _ _ hasked => ?_
    cases w with
    | request =>
      obtain ⟨kind, hmem⟩ := hasked
      exact absurd hmem (hc.unasked hphase kind)
    | cancel => exact absurd hphase (settled_generate hsettled hget hkind).2
  | drain w =>
    rw [cancel_drain hphase]
    refine h.unlock.finish hc fun hkind _ _ _ => ?_
    cases w with
    | request => exact absurd hphase (settled_generate hsettled hget hkind).1
    | cancel => exact hc.cancelled hphase
  | getting =>
    have hleave := h.leave hc ⟨by simp [hphase], by simp [hphase]⟩ hfits
    cases hkind : c.kind with
    | generate =>
      rw [Client.cancel, hphase, hkind]
      exact hleave
    | unary =>
      rw [Client.cancel, hphase, hkind]
      exact h.finish hc fun hgen => by cases hkind.symm.trans hgen
    | realtime =>
      have hdead := hc.dead ⟨by simp [hphase], by simp [hphase]⟩ c.pending
      rw [hkind] at hdead
      rw [Client.cancel, hphase, hkind]
      exact h.setCall hdead
  | idle =>
    rw [cancel_idle (.inl hphase)]
    exact h.leave hc ⟨by simp [hphase], by simp [hphase]⟩ hfits
  | dead =>
    rw [cancel_idle (.inr hphase)]
    exact h.leave hc ⟨by simp [hphase], by simp [hphase]⟩ hfits
  | ended =>
    rw [cancel_over hphase]
    exact h

/-! ### The reader -/

variable {wire : List (Line D)}

/-- A line that is not for the call. -/
theorem CallSound.readOther (hc : CallSound v id c) {line : Line D}
    (hwire : v.wire = line :: wire) (hline : bodies id [line] = []) :
    CallSound { v with read := v.read ++ [line], wire } id c := by
  have hread : bodies id (v.read ++ [line]) = bodies id v.read := by
    rw [bodies_append, hline, List.append_nil]
  have hsent : v.read ++ [line] ++ wire = v.read ++ v.wire := by
    rw [hwire, List.append_assoc]
    rfl
  exact { hc with
    stream := fun hkind => by
      show Stream c (bodies id (v.read ++ [line])) v.reading
      rw [hread]
      exact hc.stream hkind
    last := fun hkind => by
      show TerminalLast (bodies id (v.read ++ [line] ++ wire))
      rw [hsent]
      exact hc.last hkind }

variable {body : Frame D}

/-- The stream of a call that has ended with `done` gets no further frame. -/
theorem CallSound.complete_last (hc : CallSound v id c) (hwire : v.wire = .frame id body :: wire)
    (hkind : c.kind = .generate) (hcomplete : c.complete = true) : False := by
  obtain ⟨-, hdone⟩ := (hc.stream hkind).complete hcomplete
  obtain ⟨pre, post, hread⟩ := append_of_mem hdone
  have hlast := hc.last hkind pre .done (post ++ (body :: bodies id wire))
    (by
      rw [bodies_append, hread, hwire, List.append_assoc]
      show pre ++ (.done :: post ++ bodies id ([.frame id body] ++ wire)) = _
      rw [bodies_append, bodies_frame_self]
      rfl) rfl
  simp at hlast

variable {limit : Nat}

theorem CallSound.fed (hc : CallSound v id c) {read wire : List (Line D)} {reading : Bool}
    (hsame : c'.kind = c.kind ∧ c'.phase = c.phase ∧ c'.got = c.got ∧ c'.complete = c.complete ∧
      c'.finished = c.finished ∧ c'.openAtEnd = c.openAtEnd)
    (htagged : ∀ j body, .frame j body ∈ c'.queue → j = id)
    (hstream : c.kind = .generate → Stream c' (bodies id read) reading)
    (hlast : c.kind = .generate → TerminalLast (bodies id (read ++ wire))) :
    CallSound { v with read, wire, reading } id c' := by
  obtain ⟨hkind, hphase, hgot, hcomplete, hfinished, hopen⟩ := hsame
  have halive : c'.alive → c.alive := by
    unfold Call.alive
    rw [hphase]
    exact fun halive => halive
  exact {
    fresh := hc.fresh
    tagged := htagged
    got := hgot.symm ▸ hc.got
    stream := fun hgen => hstream (hkind.symm.trans hgen)
    last := fun hgen => hlast (hkind.symm.trans hgen)
    unfinished := fun ha => hcomplete.trans (hc.unfinished (halive ha))
    kind := fun kind hmem => (hc.kind kind hmem).trans hkind.symm
    unasked := fun hp => hc.unasked (hphase ▸ hp)
    asked := fun hwait hover => hkind.symm ▸ hc.asked (hphase ▸ hwait) (hphase ▸ hover)
    cancelled := fun hp => hc.cancelled (hphase ▸ hp)
    ended := fun hgen hp hf ho =>
      hc.ended (hkind ▸ hgen) (hphase ▸ hp) (hfinished ▸ hf) (hopen ▸ ho) }

theorem CallSound.readOwn (hc : CallSound v id c) (hwire : v.wire = .frame id body :: wire)
    (hreading : v.reading = true) (hc' : c' = if c.pending then c.put limit id body else c) :
    CallSound { v with read := v.read ++ [.frame id body], wire } id c' := by
  have hread : bodies id (v.read ++ [.frame id body]) = bodies id v.read ++ [body] := by
    rw [bodies_append, bodies_frame_self]
  have hsent : v.read ++ [.frame id body] ++ wire = v.read ++ v.wire := by
    rw [hwire, List.append_assoc]
    rfl
  have hlast : ∀ hkind : c.kind = .generate,
      TerminalLast (bodies id (v.read ++ [.frame id body] ++ wire)) := by
    intro hkind
    rw [hsent]
    exact hc.last hkind
  by_cases hpending : c.pending = true
  · rw [if_pos hpending] at hc'
    subst hc'
    refine hc.fed ?_ (fun j b hmem => ?_) (fun hgen => ?_) hlast
    · unfold Call.put
      split <;> exact ⟨rfl, rfl, rfl, rfl, rfl, rfl⟩
    · unfold Call.put at hmem
      split at hmem
      · rcases mem_append.mp hmem with hold | hnew
        · exact hc.tagged j b hold
        · cases mem_singleton.mp hnew
          rfl
      · cases mem_singleton.mp hmem
    · have hstream := hc.stream hgen
      rw [hreading] at hstream
      rw [hread, hreading]
      exact hstream.put hpending (hc.complete_last hwire hgen)
  · rw [if_neg hpending] at hc'
    subst hc'
    refine hc.fed ⟨rfl, rfl, rfl, rfl, rfl, rfl⟩ hc.tagged (fun hgen => ?_) hlast
    rw [hread]
    exact (hc.stream hgen).miss (Bool.of_not_eq_true hpending) (hc.complete_last hwire hgen)

theorem fail_same (limit : Nat) (c : Call D) : (c.fail limit).kind = c.kind ∧
    (c.fail limit).phase = c.phase ∧ (c.fail limit).got = c.got ∧
    (c.fail limit).complete = c.complete ∧ (c.fail limit).finished = c.finished ∧
    (c.fail limit).openAtEnd = c.openAtEnd := by
  unfold Call.fail
  split
  · split <;> exact ⟨rfl, rfl, rfl, rfl, rfl, rfl⟩
  · exact ⟨rfl, rfl, rfl, rfl, rfl, rfl⟩

theorem mem_fail {j : Nat} (h : .frame j body ∈ (c.fail limit).queue) :
    .frame j body ∈ c.queue := by
  have hroom : .frame j body ∈ Call.makeRoom limit c.queue → .frame j body ∈ c.queue := by
    intro hmem
    unfold Call.makeRoom at hmem
    split at hmem
    · exact hmem
    · exact mem_of_mem_drop hmem
  unfold Call.fail at h
  split at h
  · split at h
    · rcases mem_append.mp h with hold | hnew
      · exact hroom hold
      · cases mem_singleton.mp hnew
    · exact hroom h
  · exact h

theorem CallSound.fail (hc : CallSound v id c) (hgap : c.gap limit = false) :
    CallSound { v with reading := false } id (c.fail limit) :=
  hc.fed (fail_same limit c) (fun j body hmem => hc.tagged j body (mem_fail hmem))
    (fun hgen => (hc.stream hgen).stop.fail hgen hgap) hc.last

theorem gap_of_gapless (h : s.gapless cfg = true) (hc : s.calls id = some c)
    (hid : id < s.ids) : c.gap cfg.limit = false := by
  have hcall := all_eq_true.mp h id (mem_range.mpr hid)
  rw [hc] at hcall
  simpa using hcall

theorem Sound.failPending (h : Sound s) (hgap : s.gapless cfg = true) (hreading : s.reading = false) :
    Sound (s.failPending cfg) where
  calls := by
    intro id c hc
    obtain ⟨c₀, hc₀, rfl⟩ := Option.map_eq_some_iff.mp hc
    have hcall := h.calls id c₀ hc₀
    have hfail := hcall.fail (gap_of_gapless hgap hc₀ hcall.fresh)
    have hview : (s.failPending cfg).view = { s.view with reading := false } := by
      rw [← hreading]
      rfl
    rw [hview]
    exact hfail
  silent := h.silent
  known := by
    intro id kind hmem
    obtain ⟨c, hc⟩ := h.known id kind hmem
    refine ⟨c.fail cfg.limit, ?_⟩
    show (s.calls id).map _ = _
    rw [hc]
    rfl

/-- A reader that has stopped. -/
theorem Sound.stopped (h : Sound s) {ready terminalError : Bool} :
    Sound { s with reading := false, ready, terminalError } where
  calls := fun id c hc => { h.calls id c hc with
    stream := fun hkind => ((h.calls id c hc).stream hkind).stop }
  silent := h.silent
  known := h.known

theorem Sound.stopReader (h : Sound s) (hgap : s.gapless cfg = true) : Sound (s.stopReader cfg) :=
  h.stopped.failPending hgap rfl

theorem Sound.readLine (h : Sound s) (hok : s.wire.head?.any Line.refused = true →
    s.gapless cfg = true) (hs' : s.readLine cfg = some s') : Sound s' := by
  unfold Client.readLine at hs'
  split at hs'
  · cases hs'
  rename_i hreading
  split at hs'
  · cases hs'
  rename_i line wire hwire
  have hsent : s.read ++ [line] ++ wire = s.sent := by
    rw [Client.sent, hwire, List.append_assoc]
    rfl
  have hsilent : ∀ id, bodies id (s.read ++ [line] ++ wire) ≠ [] →
      ∃ kind, .request id kind ∈ s.written := by
    rw [hsent]
    exact h.silent
  have hothers : ∀ id c, s.calls id = some c → bodies id [line] = [] →
      CallSound { s.view with read := s.read ++ [line], wire } id c :=
    fun id c hc hline => (h.calls id c hc).readOther hwire hline
  have hsame : (∀ id, bodies id [line] = []) → ∀ ready, Sound
      { s with read := s.read ++ [line], wire, ready } := fun hline ready =>
    ⟨fun id c hc => hothers id c hc (hline id), hsilent, h.known⟩
  dsimp only at hs'
  split at hs'
  · cases hs'
    exact hsame (fun id => rfl) true
  · cases hs'
    have hgap := hok (by rw [hwire]; rfl)
    exact (hsame (fun id => rfl) s.ready).stopReader hgap
  · rename_i id body
    split at hs'
    · rename_i c hc
      have hreading' : s.reading = true := by simpa using hreading
      have hc' : CallSound { s.view with read := s.read ++ [.frame id body], wire } id
          (if c.pending then c.put cfg.limit id body else c) :=
        (h.calls id c hc).readOwn hwire hreading' rfl
      have hset : Sound (Client.setCall { s with read := s.read ++ [.frame id body], wire } id
          (if c.pending then c.put cfg.limit id body else c)) := by
        constructor
        · intro j c₁ hj
          by_cases hid : j = id
          · subst hid
            rw [setCall_self] at hj
            cases hj
            exact hc'
          · rw [setCall_ne _ _ hid] at hj
            exact hothers j c₁ hj (bodies_frame_ne (Ne.symm hid) body)
        · exact hsilent
        · intro j kind hmem
          by_cases hid : j = id
          · subst hid
            exact ⟨_, setCall_self ..⟩
          · rw [setCall_ne _ _ hid]
            exact h.known j kind hmem
      split at hs'
      · rename_i hpending
        cases hs'
        rw [if_pos hpending] at hset
        exact hset
      · rename_i hpending
        cases hs'
        rw [if_neg hpending] at hset
        refine ⟨fun j c₁ hj => ?_, hsilent, h.known⟩
        by_cases hid : j = id
        · subst hid
          cases hc.symm.trans hj
          exact hset.calls j c (setCall_self ..)
        · exact hothers j c₁ hj (bodies_frame_ne (Ne.symm hid) body)
    · rename_i hnone
      cases hs'
      refine ⟨fun j c₁ hj => ?_, hsilent, h.known⟩
      have hid : id ≠ j := by
        rintro rfl
        cases hnone.symm.trans hj
      exact hothers j c₁ hj (bodies_frame_ne hid body)

/-! ### The worker -/

theorem TerminalLast.append {fs : List (Frame D)} (h : ∀ f ∈ fs, f.terminal = false)
    (body : Frame D) : TerminalLast (fs ++ [body]) := by
  intro pre f post hsplit hterminal
  rcases append_eq_append_iff.mp hsplit with ⟨as, hpre, hbody⟩ | ⟨bs, hfs, hpost⟩
  · cases as with
    | nil =>
      simp only [List.nil_append, List.cons.injEq] at hbody
      exact hbody.2.symm
    | cons a as => simp at hbody
  · cases bs with
    | nil =>
      simp only [List.nil_append, List.cons.injEq] at hpost
      exact hpost.2
    | cons b bs =>
      simp only [cons_append, List.cons.injEq] at hpost
      have hmem : f ∈ fs := by
        rw [hfs, hpost.1]
        simp
      cases (h f hmem).symm.trans hterminal

theorem asked_iff : s.asked id = true ↔ ∃ kind, .request id kind ∈ s.written := by
  rw [Client.asked, any_eq_true]
  constructor
  · rintro ⟨frame, hmem, hid⟩
    cases frame with
    | request j kind =>
      have hj : j = id := of_decide_eq_true hid
      exact ⟨kind, hj ▸ hmem⟩
    | cancel j => cases hid
    | shutdown => cases hid
  · rintro ⟨kind, hmem⟩
    exact ⟨_, hmem, decide_eq_true rfl⟩

theorem Sound.send (h : Sound s) {line : Line D} (hok : s.Obeys (.send line)) :
    Sound { s with wire := s.wire ++ [line] } := by
  have hsent : s.read ++ (s.wire ++ [line]) = s.sent ++ [line] := (List.append_assoc ..).symm
  constructor
  · intro id c hc
    have hcall := h.calls id c hc
    refine { hcall with last := fun hkind => ?_ }
    show TerminalLast (bodies id (s.read ++ (s.wire ++ [line])))
    rw [hsent, bodies_append]
    have hlast : TerminalLast (bodies id s.sent) := hcall.last hkind
    cases line with
    | ready => simpa using hlast
    | invalid => simpa using hlast
    | frame j body =>
      by_cases hj : j = id
      · subst hj
        obtain ⟨hasked, hnone⟩ := hok
        obtain ⟨kind, hmem⟩ := asked_iff.mp hasked
        have hgen : kind = .generate := (hcall.kind kind hmem).trans hkind
        rw [bodies_frame_self]
        exact TerminalLast.append (hnone (hgen ▸ hmem)) body
      · rw [bodies_frame_ne hj, List.append_nil]
        exact hlast
  · intro id hne
    have hne' : bodies id (s.sent ++ [line]) ≠ [] := by
      rw [← hsent]
      exact hne
    rw [bodies_append] at hne'
    cases line with
    | ready => exact h.silent id (by simpa using hne')
    | invalid => exact h.silent id (by simpa using hne')
    | frame j body =>
      by_cases hj : j = id
      · subst hj
        exact asked_iff.mp hok.1
      · rw [bodies_frame_ne hj, List.append_nil] at hne'
        exact h.silent id hne'
  · exact h.known

/-! ### Every run -/

theorem Sound.step (h : Sound s) {a : Event D} (hok : s.Obeys a ∧ s.Spares cfg a)
    (hs' : s.step cfg a = some s') : Sound s' := by
  obtain ⟨hobeys, hspares⟩ := hok
  cases a with
  | opening kind => exact h.opening hs'
  | grant id =>
    simp only [Client.step] at hs'
    split at hs'
    · rename_i c hc
      split at hs'
      · rename_i w hphase
        split at hs'
        · cases hs'
          have hcall := h.calls id c hc
          have heq : { c with phase := .lockWait w } = c := by rw [← hphase]
          exact h.write (heq.symm ▸ hcall)
        · cases hs'
      · cases hs'
    · cases hs'
  | drained id =>
    simp only [Client.step] at hs'
    split at hs'
    · rename_i c hc
      split at hs'
      · rename_i w hphase
        cases hs'
        exact h.drained (h.calls id c hc) hphase
      · cases hs'
    · cases hs'
  | drainFailed id =>
    simp only [Client.step] at hs'
    split at hs'
    · rename_i c hc
      split at hs'
      · split at hs'
        · cases hs'
        · rename_i hpipe
          cases hs'
          refine h.unlock.finish (h.calls id c hc) fun _ _ hopen => ?_
          have hpipe' : s.unlock.pipe = true := by
            simp only [isOpen, Bool.and_eq_true] at hopen
            exact hopen.2
          exact absurd hpipe' hpipe
      · cases hs'
    · cases hs'
  | next id =>
    simp only [Client.step] at hs'
    split at hs'
    · rename_i c hc
      have hcall := h.calls id c hc
      split at hs'
      · rename_i hidle
        split at hs'
        · cases hs'
          have halive : c.alive := .inr (.inr (.inl hidle))
          have hasked := hcall.asked (by simp [hidle]) (by simp [hidle])
          exact h.setCall {
            fresh := hcall.fresh
            tagged := hcall.tagged
            got := hcall.got
            stream := fun hkind => (hcall.stream hkind).goOn halive rfl rfl rfl rfl
            last := hcall.last
            unfinished := fun _ => hcall.unfinished halive
            kind := hcall.kind
            unasked := fun hphase => by cases hphase
            asked := fun _ _ => hasked
            cancelled := fun hphase => by cases hphase
            ended := fun _ hphase => by cases hphase }
        · exact h.take hcall (.inl hidle) hs'
      · cases hs'
    · cases hs'
  | wake id =>
    simp only [Client.step] at hs'
    split at hs'
    · rename_i c hc
      split at hs'
      · rename_i hgetting
        exact h.take (h.calls id c hc) (.inr hgetting) hs'
      · cases hs'
    · cases hs'
  | timeout id =>
    simp only [Client.step] at hs'
    split at hs'
    · rename_i c hc
      split at hs'
      · rename_i hwhen
        cases hs'
        refine h.notifyCancel (h.calls id c hc) ⟨by simp [hwhen.1], by simp [hwhen.1]⟩ ?_
        intro hkind
        cases hkind.symm.trans hwhen.2
      · cases hs'
    · cases hs'
  | leave id =>
    simp only [Client.step] at hs'
    split at hs'
    · rename_i c hc
      split at hs'
      · rename_i hwhen
        cases hs'
        refine h.leave (h.calls id c hc) ?_ hspares
        rcases hwhen.2 with hp | hp <;> simp [hp]
      · cases hs'
    · cases hs'
  | cancel id =>
    simp only [Client.step] at hs'
    split at hs'
    · rename_i c hc
      cases hs'
      exact h.cancel hc hspares.1 hspares.2
    · cases hs'
  | send line =>
    cases hs'
    exact h.send hobeys
  | readLine => exact h.readLine hspares hs'
  | stopReader =>
    simp only [Client.step] at hs'
    split at hs'
    · cases hs'
      exact h.stopReader hspares
    · cases hs'
  | breakPipe =>
    cases hs'
    exact ⟨h.calls, h.silent, h.known⟩
  | shutdown =>
    simp only [Client.step] at hs'
    split at hs'
    · cases hs'
      refine ⟨fun id c hc => (h.calls id c hc).wrote fun kind heq => ?_, ?_, ?_⟩
      · cases heq
      · intro id hne
        obtain ⟨kind, hmem⟩ := h.silent id hne
        exact ⟨kind, mem_append_left _ hmem⟩
      · intro id kind hmem
        rcases mem_append.mp hmem with hold | hnew
        · exact h.known id kind hold
        · cases mem_singleton.mp hnew
    · cases hs'
  | shutdownDrained =>
    simp only [Client.step] at hs'
    split at hs'
    · cases hs'
      exact h.unlock
    · cases hs'
  | close =>
    cases hs'
    exact ⟨h.calls, h.silent, h.known⟩
  | cancelReader =>
    simp only [Client.step] at hs'
    split at hs'
    · cases hs'
      exact h.stopped
    · cases hs'
  | failClosed =>
    simp only [Client.step] at hs'
    split at hs'
    · rename_i hwhen
      cases hs'
      exact h.failPending hspares (by simpa using hwhen.2)
    · cases hs'

/-- **Streams have no gap and requests are not orphaned** in every run of the client whose worker
    obeys the protocol and whose steps spare the full queues and the calls that write. -/
theorem stdio_streams_kept {as : List (Event D)}
    (hok : Meets (Client.step cfg) (fun s a => s.Obeys a ∧ s.Spares cfg a) Client.init as)
    (hrun : run (Client.step cfg) Client.init as = some s) : Kept s :=
  (run_invariant (fun _ _ _ h hok hstep => h.step hok hstep) Sound.init hok hrun).kept

/-- A client whose queues hold two frames. -/
def twoFrames : Config Nat where
  limit := 2
  limit_pos := by decide
  fits _ := true
  valid _ := true

/-- A generate call that the worker answers with one event. -/
def answeredRun : List (Event Nat) :=
  [.send .ready, .readLine, .opening .generate, .drained 1, .send (.frame 1 (.event 5)), .readLine,
    .next 1, .send (.frame 1 .done), .readLine, .next 1, .leave 1]

theorem stdio_streams_kept_answered :
    ∃ s, run (Client.step twoFrames) Client.init answeredRun = some s ∧ Kept s := by
  have hok : Meets (Client.step twoFrames) (fun s a => s.Obeys a ∧ s.Spares twoFrames a)
      Client.init answeredRun := by decide
  exact ⟨_, rfl, stdio_streams_kept hok rfl⟩

/-- The queue is full when the reader ends: the event is dropped, and `done` comes out. -/
def gapRun : List (Event Nat) :=
  [.send .ready, .readLine, .opening .generate, .drained 1, .send (.frame 1 (.event 5)), .readLine,
    .send (.frame 1 .done), .readLine, .stopReader, .next 1]

/-- A call is cancelled at `drain`, its request is written. -/
def drainRun : List (Event Nat) := [.send .ready, .readLine, .opening .generate, .cancel 1]

/-- A call is cancelled again while another call has the write lock. -/
def lockRun : List (Event Nat) :=
  [.send .ready, .readLine, .opening .generate, .drained 1, .opening .unary, .cancel 1, .cancel 1]

/-- The worker obeys the protocol in the run, and the state it ends in is not as it should be. -/
def Fails (as : List (Event Nat)) : Prop :=
  Meets (Client.step twoFrames) Obeys Client.init as ∧
    ∃ s, run (Client.step twoFrames) Client.init as = some s ∧ ¬Kept s

/-- In the first run a stream has ended with `done` and without its event, in the others a request
    was never cancelled. -/
theorem stdio_streams_not_kept : Fails gapRun ∧ Fails drainRun ∧ Fails lockRun := by
  have hnone : ∀ {written : List Written}, .cancel 1 ∉ written → ¬CancelledAfter written 1 := by
    rintro written hnot ⟨before, after, kind, rfl, -⟩
    exact hnot (mem_append_right before mem_cons_self)
  refine ⟨⟨by decide, _, rfl, fun hkept => ?_⟩, ⟨by decide, _, rfl, fun hkept => ?_⟩,
    ⟨by decide, _, rfl, fun hkept => ?_⟩⟩
  · have hall := (hkept.streams 1 _ rfl rfl).2 rfl
    exact absurd hall (by decide)
  · have hcancel := hkept.cancelled 1 _ rfl rfl rfl rfl rfl ⟨.generate, by decide⟩
    exact hnone (by decide) hcancel
  · have hcancel := hkept.cancelled 1 _ rfl rfl rfl rfl rfl ⟨.generate, by decide⟩
    exact hnone (by decide) hcancel

end Client

end TyloQuant.StdioClient
