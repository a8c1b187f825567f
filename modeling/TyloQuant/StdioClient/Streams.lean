import Mathlib.Data.List.Infix
import TyloQuant.StdioClient.Client

/-!
# What a stream has of the worker's frames

The invariant of one call: what its generator has yielded is a beginning of the events that the
reader has read for it, and what is missing is in the queue, unless the queue has lost something
and ends the call before anything behind the gap comes out.
-/

namespace TyloQuant.StdioClient

open List

variable {D : Type}

/-! ### Frames of a call -/

/-- The frames of an id among the worker's lines. -/
def bodies (id : Nat) (lines : List (Line D)) : List (Frame D) :=
  lines.filterMap fun
    | .frame j body => if j = id then some body else none
    | _ => none

def Frame.event? : Frame D → Option D
  | .event data => some data
  | _ => none

/-- The events among frames. -/
def events (frames : List (Frame D)) : List D := frames.filterMap Frame.event?

/-- The frames of a queue. -/
def frames (queue : List (Item D)) : List (Frame D) :=
  queue.filterMap fun
    | .frame _ body => some body
    | .failure => none

/-- A frame that ends a generate request. -/
def Frame.terminal : Frame D → Bool
  | .done => true
  | .error => true
  | _ => false

/-- A frame that lets a stream go on, or end well. -/
def Frame.smooth : Frame D → Bool
  | .event _ => true
  | .done => true
  | _ => false

@[simp] theorem bodies_append (id : Nat) (lines lines' : List (Line D)) :
    bodies id (lines ++ lines') = bodies id lines ++ bodies id lines' :=
  filterMap_append ..

@[simp] theorem bodies_frame_self (id : Nat) (body : Frame D) :
    bodies id [.frame id body] = [body] := by
  simp [bodies]

variable {id : Nat}

theorem bodies_frame_ne {j : Nat} (h : j ≠ id) (body : Frame D) :
    bodies id [.frame j body] = [] := by
  simp [bodies, h]

@[simp] theorem bodies_ready (id : Nat) : bodies id [(.ready : Line D)] = [] := rfl

@[simp] theorem bodies_invalid (id : Nat) : bodies id [(.invalid : Line D)] = [] := rfl

@[simp] theorem events_append (fs fs' : List (Frame D)) :
    events (fs ++ fs') = events fs ++ events fs' :=
  filterMap_append ..

@[simp] theorem frames_append (queue queue' : List (Item D)) :
    frames (queue ++ queue') = frames queue ++ frames queue' :=
  filterMap_append ..

@[simp] theorem frames_failure : frames [(.failure : Item D)] = [] := rfl

@[simp] theorem frames_cons_failure (queue : List (Item D)) :
    frames (.failure :: queue) = frames queue := rfl

@[simp] theorem frames_cons (id : Nat) (body : Frame D) (queue : List (Item D)) :
    frames (.frame id body :: queue) = body :: frames queue := rfl

@[simp] theorem frames_nil : frames ([] : List (Item D)) = [] := rfl

/-! ### The invariant of a stream -/

/-- The call may still take items from its queue. -/
def Call.alive (c : Call D) : Prop :=
  c.phase = .lockWait .request ∨ c.phase = .drain .request ∨ c.phase = .idle ∨ c.phase = .getting

/-- Nothing is missing. -/
structure Whole (c : Call D) (R : List (Frame D)) : Prop where
  suffix : frames c.queue <:+ R
  all : c.yielded ++ events (frames c.queue) = events R

/-- Something may be missing, and the stream will not go on. -/
structure Cut (c : Call D) (R : List (Frame D)) : Prop where
  yielded : c.yielded <+: events R
  rough : ∀ f ∈ frames c.queue, f.smooth = false

/-- The invariant of a generate call with the frames that were read for it. -/
structure Stream (c : Call D) (R : List (Frame D)) (reading : Bool) : Prop where
  yielded : c.yielded <+: events R
  complete : c.complete = true → c.yielded = events R ∧ .done ∈ R
  alive : c.alive → Whole c R ∨ Cut c R
  /-- A frame that the reader adds finds nothing missing. -/
  reading : c.alive → c.pending = true → reading = true → Whole c R
  dropped : c.alive → c.pending = false → frames c.queue = []

/-- A terminal frame is the last one. -/
def TerminalLast (fs : List (Frame D)) : Prop :=
  ∀ pre f post, fs = pre ++ f :: post → f.terminal = true → post = []

/-- The first item of a queue is an event, with an event or `done` behind it. -/
def gapBehind : List (Item D) → Bool
  | .frame _ (.event _) :: queue => (frames queue).any Frame.smooth
  | _ => false

/-- The queue is full, and what `_fail_pending` takes off leaves a gap in the stream. -/
def Call.gap (limit : Nat) (c : Call D) : Bool :=
  c.kind = .generate && c.pending && limit ≤ c.queue.length && gapBehind c.queue

variable {limit : Nat} {queue : List (Item D)}

theorem Call.gap_event {data : D} {c : Call D} (hkind : c.kind = .generate)
    (hpending : c.pending = true) (hfull : limit ≤ c.queue.length)
    (hq : c.queue = .frame id (.event data) :: queue) (hgap : c.gap limit = false) :
    ∀ f ∈ frames queue, f.smooth = false := by
  intro f hf
  by_contra hsmooth
  have hany : (frames queue).any Frame.smooth = true :=
    any_eq_true.mpr ⟨f, hf, Bool.of_not_eq_false hsmooth⟩
  have hbehind : gapBehind c.queue = true := by
    rw [hq]
    exact hany
  rw [Call.gap, hbehind, hpending] at hgap
  simp [hkind] at hgap
  omega

section Stream

variable {c : Call D} {R : List (Frame D)} {reading : Bool} {queue' : List (Item D)}

/-- Errors in a queue make no difference. -/
theorem Whole.congr (hframes : frames queue = frames queue') (h : Whole { c with queue } R) :
    Whole { c with queue := queue' } R := by
  obtain ⟨hsuffix, hall⟩ := h
  rw [hframes] at hsuffix hall
  exact ⟨hsuffix, hall⟩

theorem Cut.congr (hframes : frames queue = frames queue') (h : Cut { c with queue } R) :
    Cut { c with queue := queue' } R := by
  obtain ⟨hyielded, hrough⟩ := h
  rw [hframes] at hrough
  exact ⟨hyielded, hrough⟩

variable {body : Frame D}

theorem Stream.put (h : Stream c R true) (hpending : c.pending = true)
    (hlast : c.complete = true → False) :
    Stream (c.put limit id body) (R ++ [body]) true := by
  have hyielded : c.yielded <+: events (R ++ [body]) := by
    rw [events_append]
    exact h.yielded.trans (prefix_append ..)
  unfold Call.put
  split
  · have hwhole : c.alive → Whole { c with queue := c.queue ++ [.frame id body] } (R ++ [body]) := by
      intro halive
      obtain ⟨hsuffix, hall⟩ := h.reading halive hpending rfl
      constructor
      · rw [frames_append]
        obtain ⟨pre, hpre⟩ := hsuffix
        exact ⟨pre, by rw [← hpre, List.append_assoc]; rfl⟩
      · rw [frames_append, events_append, events_append, ← List.append_assoc, hall]
        rfl
    exact {
      yielded := hyielded
      complete := fun hc => (hlast hc).elim
      alive := fun halive => .inl (hwhole halive)
      reading := fun halive _ _ => hwhole halive
      dropped := fun _ hp => by cases hpending.symm.trans hp }
  · exact {
      yielded := hyielded
      complete := fun hc => (hlast hc).elim
      alive := fun _ => .inr ⟨hyielded, fun f hf => absurd hf not_mem_nil⟩
      reading := fun _ hp => by cases hp
      dropped := fun _ _ => rfl }

theorem Stream.miss (h : Stream c R reading) (hpending : c.pending = false)
    (hlast : c.complete = true → False) : Stream c (R ++ [body]) reading := by
  have hyielded : c.yielded <+: events (R ++ [body]) := by
    rw [events_append]
    exact h.yielded.trans (prefix_append ..)
  exact {
    yielded := hyielded
    complete := fun hc => (hlast hc).elim
    alive := fun halive => .inr ⟨hyielded, fun f hf => by
      rw [h.dropped halive hpending] at hf
      exact absurd hf not_mem_nil⟩
    reading := fun _ hp => by cases hpending.symm.trans hp
    dropped := h.dropped }

theorem Stream.stop (h : Stream c R reading) : Stream c R false where
  yielded := h.yielded
  complete := h.complete
  alive := h.alive
  reading := fun _ _ hreading => by cases hreading
  dropped := h.dropped

/-- What is left when `_fail_pending` has taken the first item of a full queue. -/
theorem Stream.dropFirst (h : Stream c R reading) (hkind : c.kind = .generate)
    (hpending : c.pending = true) (hfull : limit ≤ c.queue.length) (hgap : c.gap limit = false)
    (halive : c.alive) :
    Whole { c with queue := c.queue.drop 1 } R ∨ Cut { c with queue := c.queue.drop 1 } R := by
  cases hq : c.queue with
  | nil =>
    have hsame := h.alive halive
    rw [drop_nil, ← hq]
    exact hsame
  | cons item queue =>
    rw [drop_succ_cons, drop_zero]
    rcases h.alive halive with ⟨hsuffix, hall⟩ | ⟨hyielded, hrough⟩
    · rw [hq] at hsuffix hall
      cases item with
      | failure => exact .inl ⟨hsuffix, hall⟩
      | frame id body =>
        rw [frames_cons] at hsuffix hall
        cases body with
        | event data =>
          exact .inr ⟨h.yielded, c.gap_event hkind hpending hfull hq hgap⟩
        | result => exact .inl ⟨(suffix_cons ..).trans hsuffix, hall⟩
        | done => exact .inl ⟨(suffix_cons ..).trans hsuffix, hall⟩
        | error => exact .inl ⟨(suffix_cons ..).trans hsuffix, hall⟩
        | other => exact .inl ⟨(suffix_cons ..).trans hsuffix, hall⟩
    · rw [hq] at hrough
      refine .inr ⟨hyielded, fun f hf => hrough f ?_⟩
      cases item with
      | failure => exact hf
      | frame id body => exact mem_cons_of_mem _ hf

theorem Stream.fail (h : Stream c R false) (hkind : c.kind = .generate)
    (hgap : c.gap limit = false) : Stream (c.fail limit) R false := by
  unfold Call.fail
  split
  · rename_i hpending
    have hkeep : c.alive → Whole { c with queue := Call.makeRoom limit c.queue } R ∨
        Cut { c with queue := Call.makeRoom limit c.queue } R := by
      intro halive
      unfold Call.makeRoom
      split
      · exact h.alive halive
      · rename_i hfull
        exact h.dropFirst hkind hpending (Nat.le_of_not_lt hfull) hgap halive
    have hframes : frames (Call.makeRoom limit c.queue) =
        frames (Call.makeRoom limit c.queue ++ [.failure]) := by simp
    split
    · exact {
        yielded := h.yielded
        complete := h.complete
        alive := fun halive =>
          (hkeep halive).imp (fun hw => hw.congr hframes) fun hc => hc.congr hframes
        reading := fun _ _ hreading => by cases hreading
        dropped := fun _ hp => by cases hpending.symm.trans hp }
    · exact {
        yielded := h.yielded
        complete := h.complete
        alive := hkeep
        reading := fun _ _ hreading => by cases hreading
        dropped := fun _ hp => by cases hpending.symm.trans hp }
  · exact h

variable {c' : Call D}

theorem Stream.dead (h : Stream c R reading) (hyielded : c'.yielded = c.yielded)
    (hcomplete : c'.complete = c.complete) (hdead : ¬c'.alive) : Stream c' R reading where
  yielded := hyielded ▸ h.yielded
  complete := by
    rw [hyielded, hcomplete]
    exact h.complete
  alive := fun halive => absurd halive hdead
  reading := fun halive => absurd halive hdead
  dropped := fun halive => absurd halive hdead

/-- A call that was alive and is, with nothing changed about its stream. -/
theorem Stream.goOn (h : Stream c R reading) (halive : c.alive)
    (hyielded : c'.yielded = c.yielded) (hcomplete : c'.complete = c.complete)
    (hqueue : c'.queue = c.queue) (hpending : c'.pending = c.pending) : Stream c' R reading := by
  have hwhole : Whole c R → Whole c' R := by
    rintro ⟨hsuffix, hall⟩
    exact ⟨hqueue ▸ hsuffix, by rw [hyielded, hqueue]; exact hall⟩
  have hcut : Cut c R → Cut c' R := by
    rintro ⟨hy, hrough⟩
    exact ⟨hyielded ▸ hy, by rw [hqueue]; exact hrough⟩
  exact {
    yielded := hyielded ▸ h.yielded
    complete := by
      rw [hyielded, hcomplete]
      exact h.complete
    alive := fun _ => (h.alive halive).imp hwhole hcut
    reading := fun _ hp hr => hwhole (h.reading halive (hpending ▸ hp) hr)
    dropped := fun _ hp => by
      rw [hqueue]
      exact h.dropped halive (hpending ▸ hp) }

/-- The generator takes the first item of its queue. -/
theorem Stream.generate (h : Stream c R reading) (cfg : Config D) {item : Item D}
    (hq : c.queue = item :: queue) (halive : c.alive) (hnew : c.complete = false)
    (hlast : ∀ pre post, R = pre ++ .done :: post → post = []) :
    Stream (({ c with queue }.record item).generate cfg item) R reading := by
  have hdead : ∀ c' : Call D, c'.phase = .dead → ¬c'.alive := by
    rintro c' hphase (h | h | h | h) <;> cases hphase.symm.trans h
  cases item with
  | failure => exact h.dead rfl rfl (hdead _ rfl)
  | frame id body =>
    cases body with
    | result => exact h.dead rfl rfl (hdead _ rfl)
    | other => exact h.dead rfl rfl (hdead _ rfl)
    | error => exact h.dead rfl rfl (hdead _ rfl)
    | done =>
      have hwhole : Whole c R := by
        refine (h.alive halive).resolve_right fun hcut => ?_
        have hrough := hcut.rough .done (by rw [hq]; exact mem_cons_self)
        cases hrough
      obtain ⟨⟨pre, hpre⟩, hall⟩ := hwhole
      rw [hq, frames_cons] at hpre hall
      have hnone := hlast pre (frames queue) hpre.symm
      rw [hnone] at hall
      have hyielded : c.yielded = events R := by
        rw [← hall]
        exact (List.append_nil _).symm
      exact {
        yielded := h.yielded
        complete := fun _ => ⟨hyielded, hpre ▸ mem_append_right pre mem_cons_self⟩
        alive := fun halive' => absurd halive' (hdead _ rfl)
        reading := fun halive' => absurd halive' (hdead _ rfl)
        dropped := fun halive' => absurd halive' (hdead _ rfl) }
    | event data =>
      show Stream (if cfg.valid data then _ else _) R reading
      split
      · have hnocut : ¬Cut c R := by
          intro hcut
          have hrough := hcut.rough (.event data) (by rw [hq]; exact mem_cons_self)
          cases hrough
        have hwhole : Whole c R := (h.alive halive).resolve_right hnocut
        obtain ⟨hsuffix, hall⟩ := hwhole
        rw [hq, frames_cons] at hsuffix hall
        have hall' : c.yielded ++ [data] ++ events (frames queue) = events R := by
          rw [← hall, List.append_assoc]
          rfl
        have hnext : Whole { { c with queue }.record (.frame id (.event data)) with
            yielded := c.yielded ++ [data], phase := .idle } R :=
          ⟨(suffix_cons ..).trans hsuffix, hall'⟩
        exact {
          yielded := ⟨_, hall'⟩
          complete := fun hc => by cases hnew.symm.trans hc
          alive := fun _ => .inl hnext
          reading := fun _ _ _ => hnext
          dropped := fun _ hp => by
            have hempty := h.dropped halive hp
            rw [hq, frames_cons] at hempty
            cases hempty }
      · exact h.dead rfl rfl (hdead _ rfl)

end Stream

end TyloQuant.StdioClient
