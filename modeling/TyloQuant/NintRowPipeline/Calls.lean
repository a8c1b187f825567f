import Mathlib.Tactic.IntervalCases
import TyloQuant.NintRowPipeline.Gathering

/-!
# The pipeline

`issue`, `collect` and `upload` (`nint_row_pipeline.cpp`): one gather may be under way, or its
result be ready, for the ids and the shape that are remembered.  A call for others first waits for
the gather under way, and when that one has failed the call throws its error.
-/

namespace TyloQuant.NintRowPipeline

open Lib List

/-- The gather behind `pending`: the worker has not run it yet, or it has ended.  The proofs also
know which rows could not be read in it. -/
inductive Task where
  | queued (ids : List Int)
  | finished (unreadable : Nat → Bool) (result : Except Error Gathered)

structure State where
  cache : NintRowCache
  currentIds : List Int := []
  currentShape : List Int := []
  pending : Option Task := none
  ready : Option Gathered := none

/-- What `upload` reads of a stage. -/
structure NintRowStage where
  source : Nat
  rows : Nat
  payloadBytes : Nat
  shape : List Int

inductive Call where
  | issue (ids shape : List Int)
  | collect (ids shape : List Int) (cuda : Bool)
  | upload (stage : NintRowStage) (ids shape : List Int)

namespace Call

def ids : Call → List Int
  | issue ids _ => ids
  | collect ids _ _ => ids
  | upload _ ids _ => ids

def shape : Call → List Int
  | issue _ shape => shape
  | collect _ shape _ => shape
  | upload _ _ shape => shape

end Call

def int64Max : Int := 9223372036854775807

/-- `shape_rows`; `none` where it throws. -/
def shapeRows (shape : List Int) : Option Int :=
  shape.foldlM (fun n x => if x < 0 ∨ (x ≠ 0 ∧ n > int64Max / x) then none else some (n * x)) 1

namespace Source

variable (p : Source)

/-- The worker runs the gather that is queued. -/
def work (at' : Conditions p.sourceId) (s : State) : State :=
  match s.pending with
  | some (.queued ids) =>
    match p.gather at' s.cache ids with
    | .ok (g, cache) => { s with cache, pending := some (.finished at'.unreadable (.ok g)) }
    | .error (e, cache) => { s with cache, pending := some (.finished at'.unreadable (.error e)) }
  | _ => s

/-- `if (pending.valid()) ready.emplace(pending.get())` -/
def take (s : State) : Except (Error × State) State :=
  match s.pending with
  | some (.finished _ (.ok g)) => .ok { s with pending := none, ready := some g }
  | some (.finished _ (.error e)) => .error (e, { s with pending := none })
  | _ => .ok s

def wait (at' : Conditions p.sourceId) (s : State) : Except (Error × State) State :=
  take (p.work at' s)

def issue (at' : Conditions p.sourceId) (s : State) (ids shape : List Int) :
    Except (Error × State) State :=
  if s.currentIds = ids ∧ s.currentShape = shape ∧ (s.ready.isSome ∨ s.pending.isSome) then .ok s
  else do
    let s ← p.wait at' s
    .ok { s with
      currentIds := ids
      currentShape := shape
      ready := none
      pending := some (.queued ids) }

/-- The rows that `collect` and `upload` use: their own gather runs under the second conditions. -/
def supply (at' own : Conditions p.sourceId) (s : State) (ids shape : List Int) :
    Except (Error × State) (Gathered × State) := do
  let s ← p.issue at' s ids shape
  let s ← p.wait own s
  match s.ready with
  | none => .error (.nullRow, s)
  | some g => .ok (g, s)

def collect (at' own : Conditions p.sourceId) (s : State) (ids shape : List Int) (cuda : Bool) :
    Except (Error × State) (Gathered × State) := do
  let (g, s) ← p.supply at' own s ids shape
  match shapeRows shape with
  | none => .error (.shapeOverflow, s)
  | some n =>
    if n ≠ ids.length ∨ !cuda then .error (.inputMismatch, s) else
    if ids = [] then .ok (g, s) else do
    g.batch.validate.mapError fun e => (p.ofRowError 0 e, s)
    .ok (g, s)

def upload (at' own : Conditions p.sourceId) (s : State) (stage : NintRowStage)
    (ids shape : List Int) : Except (Error × State) (Gathered × State) :=
  if stage.source ≠ p.sourceId ∨ stage.shape ≠ shape ∨ ids.length ≠ stage.rows then
    .error (.stageDiffers, s)
  else do
    let (g, s) ← p.supply at' own s ids shape
    g.batch.validate.mapError fun e => (p.ofRowError 0 e, s)
    if g.batch.packed.length > stage.payloadBytes ∨ g.batch.descriptors.length > stage.rows ∨
        g.inverse.length ≠ ids.length then .error (.stageExceeded, s)
    else .ok (g, s)

def call (at' own : Conditions p.sourceId) (s : State) :
    Call → Except (Error × State) (Option Gathered × State)
  | .issue ids shape => (p.issue at' s ids shape).map fun s => (none, s)
  | .collect ids shape cuda =>
    (p.collect at' own s ids shape cuda).map fun r => (some r.1, r.2)
  | .upload stage ids shape =>
    (p.upload at' own s stage ids shape).map fun r => (some r.1, r.2)

/-! ### Runs -/

/-- A call, the worker, or another source that uses the cache. -/
inductive Move where
  | call (at' own : Conditions p.sourceId) (c : Call)
  | work (at' : Conditions p.sourceId)
  | foreign (op : ForeignOp p.sourceId)

def step (s : State) : p.Move → State
  | .call at' own c =>
    match p.call at' own s c with
    | .ok (_, s') => s'
    | .error (_, s') => s'
  | .work at' => p.work at' s
  | .foreign op => { s with cache := op.run s.cache }

/-- The pipeline is made when others have used the cache already. -/
def start (capacity : Nat) (before : List (ForeignOp p.sourceId)) : State where
  cache := before.foldl ForeignOp.run { capacity }

def run (s : State) (moves : List p.Move) : State := moves.foldl p.step s

/-! ### What is kept -/

/-- What is under way or ready is for the ids remembered, and not both. -/
structure Sound (s : State) : Prop where
  cache : p.CacheOk s.cache
  queued : ∀ ids, s.pending = some (.queued ids) → ids = s.currentIds
  gathered : ∀ u g, s.pending = some (.finished u (.ok g)) → p.Serves s.currentIds g
  failed : ∀ u e, s.pending = some (.finished u (.error e)) → p.Fault u s.currentIds e
  ready : ∀ g, s.ready = some g → p.Serves s.currentIds g
  one : s.pending.isSome → s.ready = none

/-- The rows that cannot be read in the gather under way. -/
def lost (at' : Conditions p.sourceId) (s : State) (n : Nat) : Bool :=
  match s.pending with
  | some (.queued _) => at'.unreadable n
  | some (.finished unreadable _) => unreadable n
  | none => false

variable {p} {s : State} {ids shape : List Int}

theorem Sound.work (h : p.Sound s) (at' : Conditions p.sourceId) :
    p.Sound (p.work at' s) ∧ (p.work at' s).currentIds = s.currentIds ∧
      (p.work at' s).currentShape = s.currentShape ∧ (p.work at' s).ready = s.ready ∧
      (∀ ids, (p.work at' s).pending ≠ some (.queued ids)) ∧
      ((p.work at' s).pending.isSome ↔ s.pending.isSome) := by
  cases hpending : s.pending with
  | none =>
    have hsame : p.work at' s = s := by rw [Source.work, hpending]
    rw [hsame, hpending]
    exact ⟨h, rfl, rfl, rfl, fun ids => by simp, Iff.rfl⟩
  | some task =>
    cases task with
    | finished u r =>
      have hsame : p.work at' s = s := by rw [Source.work, hpending]
      rw [hsame, hpending]
      exact ⟨h, rfl, rfl, rfl, fun ids => by simp, Iff.rfl⟩
    | queued ids =>
      have hone := h.one (by rw [hpending]; rfl)
      have hgather := @gather_obeys p s.cache s.currentIds h.cache at'
      rw [Source.work, hpending]
      simp only
      rw [h.queued ids hpending]
      cases hr : p.gather at' s.cache s.currentIds with
      | ok r =>
        rw [hr] at hgather
        refine ⟨⟨hgather.2, by simp, ?_, by simp, h.ready, fun _ => hone⟩, rfl, rfl, rfl,
          by simp, by simp⟩
        intro u g hg
        simp only [Option.some.injEq, Task.finished.injEq, Except.ok.injEq] at hg
        exact hg.2 ▸ hgather.1
      | error e =>
        rw [hr] at hgather
        refine ⟨⟨hgather.2, by simp, by simp, ?_, h.ready, fun _ => hone⟩, rfl, rfl, rfl,
          by simp, by simp⟩
        intro u e' he
        simp only [Option.some.injEq, Task.finished.injEq, Except.error.injEq] at he
        exact he.1 ▸ he.2 ▸ hgather.1

/-- Nothing is under way or ready. -/
def Idle (s : State) : Prop := s.pending = none ∧ s.ready = none

theorem lost_of_work {at' : Conditions p.sourceId} {u : Nat → Bool} {r : Except Error Gathered}
    (h : (p.work at' s).pending = some (.finished u r)) : p.lost at' s = u := by
  funext n
  cases hpending : s.pending with
  | none =>
    rw [Source.work, hpending] at h
    cases hpending.symm.trans h
  | some task =>
    rw [Source.work, hpending] at h
    rw [lost, hpending]
    cases task with
    | finished u' r' => cases hpending.symm.trans h; rfl
    | queued ids =>
      cases hr : p.gather at' s.cache ids <;>
      · simp only [hr] at h
        cases h
        rfl

theorem Sound.wait (h : p.Sound s) (at' : Conditions p.sourceId) :
    Obeys (fun s' => p.Sound s' ∧ s'.pending = none ∧ s'.currentIds = s.currentIds ∧
        s'.currentShape = s.currentShape ∧ (s.pending.isSome ∨ s.ready.isSome → s'.ready.isSome))
      (fun r => p.Fault (p.lost at' s) s.currentIds r.1 ∧ p.Sound r.2 ∧ Idle r.2 ∧
        ∃ u, (p.work at' s).pending = some (.finished u (.error r.1)))
      (p.wait at' s) := by
  obtain ⟨hwork, hids, hshape, hready, hqueued, hpending⟩ := h.work at'
  rw [Source.wait]
  cases htask : (p.work at' s).pending with
  | none =>
    rw [take, htask]
    refine ⟨hwork, htask, hids, hshape, ?_⟩
    rw [hready]
    rintro (hsome | hsome)
    · rw [← hpending, htask] at hsome
      cases hsome
    · exact hsome
  | some task =>
    cases task with
    | queued ids => exact absurd htask (hqueued ids)
    | finished u r =>
      cases r with
      | ok g =>
        rw [take, htask]
        refine ⟨⟨hwork.cache, by simp, by simp, by simp, ?_, by simp⟩, rfl, hids, hshape,
          fun _ => rfl⟩
        intro g' hg
        exact Option.some.inj hg ▸ hwork.gathered u g htask
      | error e =>
        have hone := hwork.one (by rw [htask]; rfl)
        have hlost := lost_of_work htask
        rw [take, htask]
        refine ⟨hids ▸ hlost ▸ hwork.failed u e htask, ⟨hwork.cache, by simp, by simp, by simp,
          hwork.ready, by simp⟩, ⟨rfl, hone⟩, u, rfl⟩

/-- What is remembered is what the call asks for. -/
def Current (s : State) (ids shape : List Int) : Prop :=
  s.currentIds = ids ∧ s.currentShape = shape ∧ (s.ready.isSome ∨ s.pending.isSome)

instance (s : State) (ids shape : List Int) : Decidable (Current s ids shape) :=
  inferInstanceAs (Decidable (_ ∧ _))

/-- The rows that cannot be read in the gathers that a call waits for. -/
def unread (p : Source) (at' own : Conditions p.sourceId) (s : State) (ids shape : List Int)
    (n : Nat) : Bool :=
  if Current s ids shape then p.lost own s n else p.lost at' s n || own.unreadable n

/-- A failed gather of other ids or another shape. -/
def Foreign (p : Source) (at' : Conditions p.sourceId) (s : State) (ids shape : List Int)
    (e : Error) : Prop :=
  (∃ u, (p.work at' s).pending = some (.finished u (.error e))) ∧
    ¬(s.currentIds = ids ∧ s.currentShape = shape)

theorem Sound.issue (h : p.Sound s) (at' own : Conditions p.sourceId) :
    Obeys (fun s' => p.Sound s' ∧ s'.currentIds = ids ∧ s'.currentShape = shape ∧
        (s'.pending.isSome ∨ s'.ready.isSome) ∧
        ∀ n, p.lost own s' n = true → p.unread at' own s ids shape n = true)
      (fun r => p.Foreign at' s ids shape r.1 ∧ p.Sound r.2 ∧ Idle r.2)
      (p.issue at' s ids shape) := by
  rw [Source.issue]
  split
  next hsame =>
    refine ⟨h, hsame.1, hsame.2.1, hsame.2.2.symm, fun n hn => ?_⟩
    rwa [unread, if_pos (show Current s ids shape from hsame)]
  next hother =>
    refine ((h.wait at').weaken (fun s' hs' => hs') fun r hr => ?_).bind fun s' hs' => ?_
    · obtain ⟨-, hsound, hidle, u, hfinished⟩ := hr
      refine ⟨⟨⟨u, hfinished⟩, fun hsame => hother ⟨hsame.1, hsame.2, Or.inr ?_⟩⟩, hsound, hidle⟩
      rw [← (h.work at').2.2.2.2.2, hfinished]
      rfl
    · obtain ⟨hsound, -⟩ := hs'
      refine ⟨⟨hsound.cache, ?_, by simp, by simp, by simp, fun _ => rfl⟩, rfl, rfl, Or.inl rfl,
        fun n hn => ?_⟩
      · intro ids' hids
        simp only [Option.some.injEq, Task.queued.injEq] at hids
        exact hids.symm
      · rw [unread, if_neg (show ¬Current s ids shape from hother), Bool.or_eq_true]
        exact Or.inr hn

theorem Fault.mono {u u' : Nat → Bool} {e : Error} (h : p.Fault u ids e)
    (hu : ∀ n, u n = true → u' n = true) : p.Fault u' ids e := by
  cases e with
  | read n => exact h.imp_right (hu n)
  | _ => exact h

theorem Sound.supply (h : p.Sound s) (at' own : Conditions p.sourceId) :
    Obeys (fun r => p.Serves ids r.1 ∧ p.Sound r.2 ∧ r.2.pending = none ∧ r.2.currentIds = ids ∧
        r.2.currentShape = shape)
      (fun r => (p.Fault (p.unread at' own s ids shape) ids r.1 ∨ p.Foreign at' s ids shape r.1) ∧
        p.Sound r.2 ∧ Idle r.2)
      (p.supply at' own s ids shape) := by
  refine ((h.issue at' own).weaken (fun _ hs => hs) fun r hr => ⟨Or.inr hr.1, hr.2⟩).bind ?_
  rintro issued ⟨hissued, rfl, rfl, hsome, hlost⟩
  refine ((hissued.wait own).weaken (fun _ hs => hs) fun r hr =>
    ⟨Or.inl (hr.1.mono hlost), hr.2.1, hr.2.2.1⟩).bind ?_
  rintro waited ⟨hwaited, hpending, hids, hshape, hready⟩
  obtain ⟨g, hg⟩ := Option.isSome_iff_exists.mp (hready hsome)
  rw [hg]
  exact ⟨hids ▸ hwaited.ready g hg, hwaited, hpending, hids, hshape⟩

/-! ### Answers -/

/-- The stage is not one for this call. -/
def Rejects (p : Source) : Call → Prop
  | .upload stage ids shape =>
    stage.source ≠ p.sourceId ∨ stage.shape ≠ shape ∨ ids.length ≠ stage.rows
  | _ => False

/-- Why a call may fail: its ids, or its other arguments. -/
def Blame (p : Source) (unreadable : Nat → Bool) (c : Call) (e : Error) : Prop :=
  p.Fault unreadable c.ids e ∨
    match c, e with
    | .collect _ shape _, .shapeOverflow => shapeRows shape = none
    | .collect ids shape cuda, .inputMismatch => shapeRows shape ≠ some ids.length ∨ cuda = false
    | .upload _ _ _, .stageDiffers => p.Rejects c
    | .upload stage ids _, .stageExceeded =>
      stage.payloadBytes < (((wanted ids).map p.item).map rowBytes).sum
    | .upload _ ids _, .batchSize => ids = []
    | _, _ => False

/-- A call returns the rows asked for, or fails for its own arguments. -/
def Answers (p : Source) (unreadable : Nat → Bool) (c : Call) :
    Except (Error × State) (Option Gathered × State) → Prop
  | .ok (some g, _) => p.Serves c.ids g
  | .ok (none, _) => ∃ ids shape, c = .issue ids shape
  | .error (e, _) => p.Blame unreadable c e

/-- The errors of reads and of ids out of range. -/
def OfRead : Error → Prop
  | .rowId _ => True
  | .read _ => True
  | .anchors _ => True
  | _ => False

/-- What a call that failed with `e` leaves behind.  One that was rejected changes nothing.  After
any other every call is answered, and it does what it does on a new pipeline with this cache, unless
it asks for rows that the failed call had got. -/
structure Forgotten (p : Source) (s : State) (c : Call) (e : Error) (s' : State) : Prop where
  rejected : p.Rejects c → s' = s
  answers : ¬p.Rejects c → ∀ at' own c',
    p.Answers (p.unread at' own s' c'.ids c'.shape) c' (p.call at' own s' c')
  fresh : ¬p.Rejects c → ∀ at' own c', ¬p.Rejects c' →
    OfRead e ∨ ¬(c'.ids = c.ids ∧ c'.shape = c.shape) →
      p.call at' own s' c' = p.call at' own { cache := s'.cache } c'

/-- A call is answered, and one that fails is forgotten. -/
def Answered (p : Source) (at' own : Conditions p.sourceId) (s : State) (c : Call) : Prop :=
  p.Answers (p.unread at' own s c.ids c.shape) c (p.call at' own s c) ∧
    ∀ e s', p.call at' own s c = .error (e, s') → p.Forgotten s c e s'

/-- No prefetch for other ids or another shape is under way that fails, except for a reason that is
one for the call as well. -/
def Spared (p : Source) (at' own : Conditions p.sourceId) (s : State) (c : Call) : Prop :=
  ∀ e, p.Foreign at' s c.ids c.shape e →
    p.Rejects c ∨ p.Blame (p.unread at' own s c.ids c.shape) c e

/-- What is kept for a later call: after a failed read nothing, else the rows of the call. -/
structure Rests (s : State) (c : Call) (e : Error) : Prop where
  pending : s.pending = none
  ready : s.ready.isSome → ¬OfRead e ∧ s.currentIds = c.ids ∧ s.currentShape = c.shape

theorem Idle.rests (h : Idle s) (c : Call) (e : Error) : Rests s c e :=
  ⟨h.1, by simp [h.2]⟩

theorem Rests.issue {c : Call} {e : Error} (h : Rests s c e)
    (hother : OfRead e ∨ ¬(ids = c.ids ∧ shape = c.shape)) (at' : Conditions p.sourceId) :
    p.issue at' s ids shape = p.issue at' { cache := s.cache } ids shape := by
  have hnot : ¬(s.currentIds = ids ∧ s.currentShape = shape ∧
      (s.ready.isSome ∨ s.pending.isSome)) := by
    rintro ⟨rfl, rfl, hsome⟩
    rw [h.pending] at hsome
    obtain ⟨hread, hsame⟩ := h.ready (hsome.resolve_right (by simp))
    exact hother.elim hread (· hsame)
  rw [Source.issue, Source.issue, if_neg hnot, if_neg (by simp), Source.wait, Source.wait,
    Source.work, Source.work, h.pending, take, take, h.pending]
  rfl

theorem Rests.call {c c' : Call} {e : Error} (h : Rests s c e) (hc : ¬p.Rejects c')
    (hother : OfRead e ∨ ¬(c'.ids = c.ids ∧ c'.shape = c.shape)) (at' own : Conditions p.sourceId) :
    p.call at' own s c' = p.call at' own { cache := s.cache } c' := by
  have hissue := h.issue hother at'
  have hsupply : p.supply at' own s c'.ids c'.shape =
      p.supply at' own { cache := s.cache } c'.ids c'.shape := by
    rw [supply, supply, hissue]
  cases c' with
  | issue ids shape => exact congrArg (Except.map _) hissue
  | collect ids shape cuda =>
    have hbody : p.collect at' own s ids shape cuda =
        p.collect at' own { cache := s.cache } ids shape cuda := by
      rw [collect, collect]
      exact congrArg (· >>= _) hsupply
    exact congrArg (Except.map _) hbody
  | upload stage ids shape =>
    have hfits : ¬(stage.source ≠ p.sourceId ∨ stage.shape ≠ shape ∨ ids.length ≠ stage.rows) := hc
    have hbody : p.upload at' own s stage ids shape =
        p.upload at' own { cache := s.cache } stage ids shape := by
      rw [upload, upload, if_neg hfits, if_neg hfits]
      exact congrArg (· >>= _) hsupply
    exact congrArg (Except.map _) hbody

theorem Serves.validate {g : Gathered} (h : p.Serves ids g) :
    Obeys (fun _ => True) (fun e => e = .batchSize ∧
      (ids = [] ∨ TooMany p.width ((wanted ids).map p.item))) g.batch.validate := by
  obtain ⟨items, hperm, hcarries⟩ := h.carried
  refine Obeys.guard (fun hthrow => ⟨rfl, ?_⟩) fun _ => trivial
  rw [hcarries.length] at hthrow
  by_cases hnil : ids = []
  · exact Or.inl hnil
  · refine Or.inr (tooMany_perm hperm ?_)
    rcases hthrow with hzero | hcount | hwide
    · have hlength := hperm.length_eq
      rw [hzero, length_map, wanted] at hlength
      have hdedup := eq_nil_of_length_eq_zero hlength.symm
      rw [dedup_eq_nil, map_eq_nil_iff] at hdedup
      exact absurd hdedup hnil
    · exact Or.inl hcount
    · refine Or.inr (Or.inl ?_)
      rcases h.width with hzero | hwidth
      · rw [hzero, Nat.mul_zero] at hwide
        exact absurd hwide (Nat.not_lt_zero _)
      · rw [← hwidth]
        exact hwide

/-- The call throws what the prefetch has thrown. -/
theorem Foreign.thrown {at' : Conditions p.sourceId} {c : Call} {e : Error}
    (h : p.Foreign at' s c.ids c.shape e) (hfits : ¬p.Rejects c) (own : Conditions p.sourceId) :
    ∃ s', p.call at' own s c = .error (e, s') := by
  obtain ⟨⟨u, hfinished⟩, hother⟩ := h
  have hissue : p.issue at' s c.ids c.shape =
      .error (e, { p.work at' s with pending := none }) := by
    rw [Source.issue, if_neg fun hsame => hother ⟨hsame.1, hsame.2.1⟩, Source.wait, take, hfinished]
    rfl
  have hsupply : p.supply at' own s c.ids c.shape =
      .error (e, { p.work at' s with pending := none }) := by
    rw [supply, hissue]
    rfl
  refine ⟨{ p.work at' s with pending := none }, ?_⟩
  cases c with
  | issue ids shape =>
    rw [call]
    exact congrArg (Except.map _) hissue
  | collect ids shape cuda =>
    have hthrown : p.supply at' own s ids shape = _ := hsupply
    rw [call, collect, hthrown]
    rfl
  | upload stage ids shape =>
    have hstage : ¬(stage.source ≠ p.sourceId ∨ stage.shape ≠ shape ∨ ids.length ≠ stage.rows) :=
      hfits
    have hthrown : p.supply at' own s ids shape = _ := hsupply
    rw [call, upload, if_neg hstage, hthrown]
    rfl

/-- The ways a call can end, up to the failed prefetch of other ids. -/
def Ends (p : Source) (at' own : Conditions p.sourceId) (s : State) (c : Call) :
    Except (Error × State) (Option Gathered × State) → Prop
  | .ok r => p.Answers (p.unread at' own s c.ids c.shape) c (.ok r) ∧ p.Sound r.2
  | .error r => (p.Blame (p.unread at' own s c.ids c.shape) c r.1 ∨
      p.Foreign at' s c.ids c.shape r.1 ∧ ¬p.Rejects c) ∧ p.Sound r.2 ∧
        (p.Rejects c → r.2 = s) ∧ (¬p.Rejects c → Rests r.2 c r.1)

theorem ends_of_obeys {at' own : Conditions p.sourceId} {c : Call} (hfits : ¬p.Rejects c)
    {x : Except (Error × State) (Gathered × State)}
    (h : Obeys (fun r => p.Serves c.ids r.1 ∧ p.Sound r.2)
      (fun r => (p.Blame (p.unread at' own s c.ids c.shape) c r.1 ∨
        p.Foreign at' s c.ids c.shape r.1) ∧ p.Sound r.2 ∧ Rests r.2 c r.1) x) :
    p.Ends at' own s c (x.map fun r => (some r.1, r.2)) := by
  cases x with
  | ok r => exact h
  | error r =>
    obtain ⟨hwhy, hsound, hrests⟩ := h
    exact ⟨hwhy.imp_right fun hforeign => ⟨hforeign, hfits⟩, hsound, fun hc => absurd hc hfits,
      fun _ => hrests⟩

theorem Sound.collect (h : p.Sound s) (at' own : Conditions p.sourceId) (cuda : Bool) :
    p.Ends at' own s (.collect ids shape cuda) (p.call at' own s (.collect ids shape cuda)) := by
  refine ends_of_obeys (c := .collect ids shape cuda) not_false ?_
  refine ((h.supply at' own).weaken (fun _ hr => hr) fun r hr => ?_).bind ?_
  · exact ⟨hr.1.imp_left Or.inl, hr.2.1, hr.2.2.rests _ _⟩
  · rintro ⟨g, s'⟩ ⟨hserves, hsound, hpending, hids, hshape⟩
    have hrests {e : Error} (he : ¬OfRead e) : Rests s' (.collect ids shape cuda) e :=
      ⟨hpending, fun _ => ⟨he, hids, hshape⟩⟩
    cases hrows : shapeRows shape with
    | none => exact ⟨Or.inl (Or.inr hrows), hsound, hrests not_false⟩
    | some n =>
      refine Obeys.guard (fun hthrow => ?_) fun hfits => ?_
      · refine ⟨Or.inl (Or.inr ?_), hsound, hrests not_false⟩
        rcases hthrow with hn | hcuda
        · exact Or.inl fun hsome => hn (Option.some.inj (hrows.symm.trans hsome))
        · exact Or.inr (by simpa using hcuda)
      · split
        · exact ⟨hserves, hsound⟩
        next hids =>
          refine (hserves.validate.mapError fun e he => ?_).bind fun _ _ => ⟨hserves, hsound⟩
          obtain ⟨rfl, hwhy⟩ := he
          exact ⟨Or.inl (Or.inl (hwhy.resolve_left hids)), hsound, hrests not_false⟩

theorem Sound.upload (h : p.Sound s) (at' own : Conditions p.sourceId) (stage : NintRowStage) :
    p.Ends at' own s (.upload stage ids shape) (p.call at' own s (.upload stage ids shape)) := by
  by_cases hrejects : p.Rejects (.upload stage ids shape)
  · have hbody : p.upload at' own s stage ids shape = .error (.stageDiffers, s) := if_pos hrejects
    rw [call, hbody]
    exact ⟨Or.inl (Or.inr hrejects), h, fun _ => rfl, fun hfits => absurd hrejects hfits⟩
  have hfits : ¬(stage.source ≠ p.sourceId ∨ stage.shape ≠ shape ∨ ids.length ≠ stage.rows) :=
    hrejects
  refine ends_of_obeys hrejects ?_
  rw [Source.upload, if_neg hfits]
  refine ((h.supply at' own).weaken (fun _ hr => hr) fun r hr => ?_).bind ?_
  · exact ⟨hr.1.imp_left Or.inl, hr.2.1, hr.2.2.rests _ _⟩
  · rintro ⟨g, s'⟩ ⟨hserves, hsound, hpending, hids, hshape⟩
    have hrests {e : Error} (he : ¬OfRead e) : Rests s' (.upload stage ids shape) e :=
      ⟨hpending, fun _ => ⟨he, hids, hshape⟩⟩
    refine (hserves.validate.mapError fun e he => ?_).bind fun _ _ => Obeys.guard ?_ ?_
    · obtain ⟨rfl, hwhy⟩ := he
      exact ⟨Or.inl (hwhy.elim Or.inr Or.inl), hsound, hrests not_false⟩
    · intro hthrow
      obtain ⟨items, hperm, hcarries⟩ := hserves.carried
      refine ⟨Or.inl (Or.inr ?_), hsound, hrests not_false⟩
      rw [hcarries.size, hcarries.length, (hperm.map rowBytes).sum_eq, hperm.length_eq,
        length_map, ← hserves.rows.length_eq] at hthrow
      have hlength : (wanted ids).length ≤ ids.length := by
        have hsub := (dedup_sublist (ids.map Int.toNat)).length_le
        rwa [length_map] at hsub
      simp only [not_or, not_not] at hfits
      change stage.payloadBytes < (((wanted ids).map p.item).map rowBytes).sum
      omega
    · exact fun _ => ⟨hserves, hsound⟩

theorem Sound.call (h : p.Sound s) (at' own : Conditions p.sourceId) (c : Call) :
    p.Ends at' own s c (p.call at' own s c) := by
  cases c with
  | collect ids shape cuda => exact h.collect at' own cuda
  | upload stage ids shape => exact h.upload at' own stage
  | issue ids shape =>
    have hissue := @Sound.issue p s ids shape h at' own
    rw [Source.call]
    cases hr : p.issue at' s ids shape with
    | ok r => exact ⟨⟨ids, shape, rfl⟩, (hissue.returned hr).1⟩
    | error r =>
      obtain ⟨hforeign, hsound, hidle⟩ := hissue.threw hr
      exact ⟨Or.inr ⟨hforeign, not_false⟩, hsound, False.elim, fun _ => hidle.rests _ _⟩

/-- Only a failed prefetch of other ids keeps a call from an answer. -/
theorem Sound.answers (h : p.Sound s) {at' own : Conditions p.sourceId} {c : Call}
    (hspared : p.Spared at' own s c) :
    p.Answers (p.unread at' own s c.ids c.shape) c (p.call at' own s c) := by
  have hends := h.call at' own c
  cases hr : p.call at' own s c with
  | ok r =>
    rw [hr] at hends
    exact hends.1
  | error r =>
    rw [hr] at hends
    exact hends.1.elim id fun hforeign => (hspared r.1 hforeign.1).resolve_left hforeign.2

theorem Sound.step (h : p.Sound s) (move : p.Move) : p.Sound (p.step s move) := by
  cases move with
  | call at' own c =>
    have hends := h.call at' own c
    rw [Source.step]
    cases hr : p.call at' own s c with
    | ok r =>
      rw [hr] at hends
      exact hends.2
    | error r =>
      rw [hr] at hends
      exact hends.2.1
  | work at' => exact (h.work at').1
  | foreign op => exact { h with cache := h.cache.foreign op }

theorem sound_start (capacity : Nat) (before : List (ForeignOp p.sourceId)) :
    p.Sound (p.start capacity before) where
  cache := CacheOk.foreigns (fun e he => absurd he not_mem_nil) before
  queued := by simp [start]
  gathered := by simp [start]
  failed := by simp [start]
  ready := by simp [start]
  one := by simp [start]

theorem Sound.run (h : p.Sound s) (moves : List p.Move) : p.Sound (p.run s moves) := by
  induction moves generalizing s with
  | nil => exact h
  | cons move moves ih => exact ih (h.step move)

end Source

/-- Two rows of one byte. -/
def twoRows : NintRows where
  bytes i := UInt8.ofNat i
  nbytes := 56
  rows := 2
  width := 1
  groups := 1
  groupSize := 1
  bits := 8
  subBits := 8
  adaptive := false
  kSelectors _ := 0
  qSelectors _ := 0
  neuronScaleOffset := 42
  neuronMinOffset := 46
  scaleOffsets _ := 50
  minOffsets _ := 52
  qOffsets _ := 54
  batched := false

end TyloQuant.NintRowPipeline
