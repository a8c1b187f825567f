import Mathlib.Data.Finset.Card
import Mathlib.Data.List.TakeWhile
import TyloQuant.RuntimePool.RequestSlots

/-!
# Runs of the request slots

The gate counts its slots right as long as no task is cancelled between its rejection by `close`
and its next step: such a task finds its future done, takes itself for the owner of a slot and
releases a slot of another task.
-/

namespace TyloQuant.RuntimePool

open Lib RequestSlotGate List

namespace Slots

variable {τ E : Type} [DecidableEq τ]

/-! ### What the claim speaks of -/

/-- The task holds a slot, or was granted one and has not gone on yet. -/
def Owns (s : Slots τ E) (t : τ) : Prop :=
  s.tasks t = .holding ∨ ∃ waiter mustCancel, s.tasks t = .waiting waiter mustCancel ∧
      s.futures waiter.granted = .result

/-- The task waits, and neither an answer nor a cancellation is on its way. -/
def Live (s : Slots τ E) (t : τ) (waiter : SlotWaiter) : Prop :=
  (∃ mustCancel, s.tasks t = .waiting waiter mustCancel) ∧ s.futures waiter.granted = .pending

/-- The first waiter is served before the second: it has the higher priority, or the same and came
    earlier. -/
def Ahead (w w' : SlotWaiter) : Prop :=
  w'.priority < w.priority ∨ (w'.priority = w.priority ∧ w.granted < w'.granted)

/-- What is to hold of every state. -/
structure Kept (s : Slots τ E) : Prop where
  counted : ∃ owners : Finset τ, (∀ t, t ∈ owners ↔ Owns s t) ∧ owners.card = s.gate.granted
  bounded : s.gate.granted ≤ s.gate.capacity
  releases : ∀ t, s.tasks t = .holding → s.gate.release s.futures ≠ none
  working : s.gate.error = none → s.gate.granted < s.gate.capacity → ∀ t w, ¬Live s t w

/-- What is to hold of a step: a slot is granted only while the gate is open, and no waiter that
    is passed over is ahead. -/
def Fair (s s' : Slots τ E) : Prop :=
  ∀ t, ¬Owns s t → Owns s' t → s.gate.error = none ∧
    ∀ t' w', Live s t' w' → Live s' t' w' → ∃ w, Live s t w ∧ Ahead w w'

/-- `close` has rejected the task, and it has not gone on yet. -/
def rejected (s : Slots τ E) (t : τ) : Bool :=
  match s.tasks t with
  | .waiting waiter _ => s.futures waiter.granted = .exception
  | _ => false

/-- The step does not cancel a rejected task. -/
def SparesRejected (s : Slots τ E) : SlotEvent τ E → Prop
  | .cancel t => s.rejected t = false
  | _ => True

instance (s : Slots τ E) : (a : SlotEvent τ E) → Decidable (SparesRejected s a)
  | .cancel t => inferInstanceAs (Decidable (s.rejected t = false))
  | .acquire .. => isTrue trivial
  | .resume .. => isTrue trivial
  | .release .. => isTrue trivial
  | .close .. => isTrue trivial

/-! ### The loop of `release` -/

theorem done_iff (f : Future) : f.done = true ↔ f ≠ .pending := by
  simp [Future.done]

/-- With one slot free, `release` grants it to the first live waiter, and there is none only when
    the queue runs empty. -/
theorem handOut_spec {capacity granted : Nat} (h : granted + 1 = capacity) (futures : Nat → Future)
    (waiters : List SlotWaiter) :
    (∃ dead w rest, waiters = dead ++ w :: rest ∧ (∀ d ∈ dead, futures d.granted ≠ .pending) ∧
      futures w.granted = .pending ∧
      handOut capacity granted futures waiters =
        (granted + 1, rest, Function.update futures w.granted .result)) ∨
    ((∀ d ∈ waiters, futures d.granted ≠ .pending) ∧
      handOut capacity granted futures waiters = (granted, [], futures)) := by
  induction waiters with
  | nil => exact .inr ⟨fun d hd => absurd hd not_mem_nil, rfl⟩
  | cons waiter waiters ih =>
    have hfree : granted < capacity := by omega
    by_cases hdone : (futures waiter.granted).done = true
    · rw [handOut, if_pos hfree, if_pos hdone]
      rcases ih with ⟨dead, w, rest, rfl, hdead, hw, heq⟩ | ⟨hall, heq⟩
      · refine .inl ⟨waiter :: dead, w, rest, rfl, ?_, hw, heq⟩
        intro d hd
        rcases mem_cons.mp hd with rfl | hd
        · exact (done_iff _).mp hdone
        · exact hdead d hd
      · refine .inr ⟨?_, heq⟩
        intro d hd
        rcases mem_cons.mp hd with rfl | hd
        · exact (done_iff _).mp hdone
        · exact hall d hd
    · have hpending : futures waiter.granted = .pending := by
        by_contra hne
        exact hdone ((done_iff _).mpr hne)
      refine .inl ⟨[], waiter, waiters, rfl, fun d hd => absurd hd not_mem_nil, hpending, ?_⟩
      rw [handOut, if_pos hfree, if_neg hdone]
      have hfull : ¬granted + 1 < capacity := by omega
      cases waiters with
      | nil => rfl
      | cons w rest => rw [handOut, if_neg hfull]

theorem handOut_nil (capacity granted : Nat) (futures : Nat → Future) :
    handOut capacity granted futures [] = (granted, [], futures) := rfl

/-! ### The invariant -/

structure Sound (s : Slots τ E) : Prop where
  counted : ∃ owners : Finset τ, (∀ t, t ∈ owners ↔ Owns s t) ∧ owners.card = s.gate.granted
  bounded : s.gate.granted ≤ s.gate.capacity
  full : s.gate.waiters ≠ [] → s.gate.granted = s.gate.capacity
  closed : s.gate.error ≠ none → s.gate.waiters = []
  sorted : s.gate.waiters.Pairwise Ahead
  queued : ∀ w ∈ s.gate.waiters, ∃ t c, s.tasks t = .waiting w c
  /-- A waiter in the queue was neither granted nor rejected. -/
  unanswered : ∀ w ∈ s.gate.waiters,
    s.futures w.granted = .pending ∨ s.futures w.granted = .cancelled
  known : ∀ t w c, s.tasks t = .waiting w c → w.granted < s.created
  /-- Nobody waits outside the queue. -/
  waiting : ∀ t w c, s.tasks t = .waiting w c → s.futures w.granted = .pending → w ∈ s.gate.waiters
  own : ∀ t t' w w' c c', s.tasks t = .waiting w c → s.tasks t' = .waiting w' c' →
    w.granted = w'.granted → t = t'
  /-- Only a task with an outcome or a cancelled wait is to be cancelled with its next step. -/
  spared : ∀ t w, s.tasks t = .waiting w true →
    s.futures w.granted = .result ∨ s.futures w.granted = .cancelled

variable {s s' : Slots τ E} {t : τ}

omit [DecidableEq τ] in
theorem Sound.kept (h : Sound s) : Kept s where
  counted := h.counted
  bounded := h.bounded
  releases := by
    intro t ht
    obtain ⟨owners, hmem, hcard⟩ := h.counted
    have hpos : 0 < owners.card := Finset.card_pos.mpr ⟨t, (hmem t).mpr (.inl ht)⟩
    rw [release, if_neg (by omega)]
    exact Option.some_ne_none _
  working := by
    intro _ hfree t w hlive
    obtain ⟨⟨c, ht⟩, hpending⟩ := hlive
    have hmem := h.waiting t w c ht hpending
    have hfull := h.full (ne_nil_of_mem hmem)
    omega

omit [DecidableEq τ] in
theorem Sound.init {capacity : Nat} : Sound (init capacity : Slots τ E) where
  counted := by
    refine ⟨∅, fun t => ?_, rfl⟩
    constructor
    · intro h
      exact absurd h (Finset.notMem_empty t)
    · rintro (h | ⟨w, c, h, -⟩) <;> cases h
  bounded := Nat.zero_le _
  full := fun h => absurd rfl h
  closed := fun _ => rfl
  sorted := List.Pairwise.nil
  queued := fun w hw => absurd hw not_mem_nil
  unanswered := fun w hw => absurd hw not_mem_nil
  known := fun t w c h => by cases h
  waiting := fun t w c h => by cases h
  own := fun t t' w w' c c' h => by cases h
  spared := fun t w h => by cases h

/-! ### Tasks -/

variable {u : τ}

section SetTask

variable (s t) (task : Task)

@[simp] theorem setTask_gate : (s.setTask t task).gate = s.gate := rfl

@[simp] theorem setTask_futures : (s.setTask t task).futures = s.futures := rfl

@[simp] theorem setTask_created : (s.setTask t task).created = s.created := rfl

@[simp] theorem setTask_self : (s.setTask t task).tasks t = task := Function.update_self ..

theorem setTask_ne (h : u ≠ t) : (s.setTask t task).tasks u = s.tasks u :=
  Function.update_of_ne h ..

end SetTask

variable {w : SlotWaiter} {c : Bool}

theorem waiting_of_setTask {task : Task} (htask : ∀ w c, task ≠ .waiting w c)
    (h : (s.setTask t task).tasks u = .waiting w c) :
    u ≠ t ∧ s.tasks u = .waiting w c := by
  by_cases hu : u = t
  · rw [hu, setTask_self] at h
    exact absurd h (htask w c)
  · rw [setTask_ne s t task hu] at h
    exact ⟨hu, h⟩

omit [DecidableEq τ] in
theorem futures_of_lt {n : Nat} (hn : n < s.created) :
    Function.update s.futures s.created .pending n = s.futures n :=
  Function.update_of_ne (Nat.ne_of_lt hn) ..

theorem waiting_of_idle (h : Function.update s.tasks t Task.idle u = .waiting w c) :
    u ≠ t ∧ s.tasks u = .waiting w c :=
  waiting_of_setTask (fun w c => by simp) h

theorem owns_setTask_ne {task : Task} (hu : u ≠ t) : Owns (s.setTask t task) u ↔ Owns s u := by
  simp only [Owns, setTask_ne s t task hu, setTask_futures]

theorem not_owns_idle : ¬Owns (s.setTask t .idle) t := by
  rintro (h | ⟨w, c, h, -⟩)
  · rw [setTask_self] at h
    cases h
  · rw [setTask_self] at h
    cases h

variable {gate : RequestSlotGate E}

theorem owns_idle : Owns (setTask { s with gate } t .idle) u ↔ u ≠ t ∧ Owns s u := by
  by_cases hu : u = t
  · subst hu
    constructor
    · intro howns
      exact absurd howns not_owns_idle
    · rintro ⟨hne, -⟩
      exact absurd rfl hne
  · exact (owns_setTask_ne hu).trans (and_iff_right hu).symm

theorem owns_holding : Owns (s.setTask t .holding) t := .inl (setTask_self s t .holding)

/-- A task that stops waiting leaves everything about the others as it was. -/
theorem Sound.setTask_other {task : Task} (h : Sound s) (htask : ∀ w c, task ≠ .waiting w c)
    (hgone : ∀ w c, s.tasks t = .waiting w c → w ∉ s.gate.waiters)
    (howns : Owns (s.setTask t task) t ↔ Owns s t) : Sound (s.setTask t task) where
  counted := by
    obtain ⟨owners, hmem, hcard⟩ := h.counted
    refine ⟨owners, fun u => ?_, hcard⟩
    by_cases hu : u = t
    · rw [hu, howns]
      exact hmem t
    · rw [owns_setTask_ne hu]
      exact hmem u
  bounded := h.bounded
  full := h.full
  closed := h.closed
  sorted := h.sorted
  queued := by
    intro w hw
    obtain ⟨u, c, hu⟩ := h.queued w hw
    refine ⟨u, c, ?_⟩
    by_cases hut : u = t
    · exact absurd hw (hgone w c (hut ▸ hu))
    · rw [setTask_ne s t task hut]
      exact hu
  unanswered := h.unanswered
  known := fun u w c hu => h.known u w c (waiting_of_setTask htask hu).2
  waiting := fun u w c hu => h.waiting u w c (waiting_of_setTask htask hu).2
  own := fun u u' w w' c c' hu hu' =>
    h.own u u' w w' c c' (waiting_of_setTask htask hu).2 (waiting_of_setTask htask hu').2
  spared := fun u w hu => h.spared u w (waiting_of_setTask htask hu).2

/-! ### Release -/

/-- What `release` does when the caller owns a slot: the slot goes to the first live waiter, or it
    is free and the queue is empty. -/
theorem releaseSlot_spec (h : Sound s) (ht : Owns s t) :
    (∃ dead w rest, s.gate.waiters = dead ++ w :: rest ∧
      (∀ d ∈ dead, s.futures d.granted ≠ .pending) ∧ s.futures w.granted = .pending ∧
      s.releaseSlot t = setTask { s with
        gate := { s.gate with waiters := rest }
        futures := Function.update s.futures w.granted .result } t .idle) ∨
    ((∀ d ∈ s.gate.waiters, s.futures d.granted ≠ .pending) ∧ 0 < s.gate.granted ∧
      s.releaseSlot t = setTask { s with
        gate := { s.gate with granted := s.gate.granted - 1, waiters := [] } } t .idle) := by
  obtain ⟨owners, hmem, hcard⟩ := h.counted
  have hpos : 0 < owners.card := Finset.card_pos.mpr ⟨t, (hmem t).mpr ht⟩
  have hne : s.gate.granted ≠ 0 := by omega
  by_cases hempty : s.gate.waiters = []
  · refine .inr ⟨fun d hd => absurd (hempty ▸ hd) not_mem_nil, by omega, ?_⟩
    rw [releaseSlot, RequestSlotGate.release, if_neg hne, hempty, handOut_nil]
  · have hfull := h.full hempty
    have hfree : s.gate.granted - 1 + 1 = s.gate.capacity := by omega
    rcases handOut_spec hfree s.futures s.gate.waiters with
      ⟨dead, w, rest, hwaiters, hdead, hw, heq⟩ | ⟨hall, heq⟩
    · refine .inl ⟨dead, w, rest, hwaiters, hdead, hw, ?_⟩
      rw [releaseSlot, RequestSlotGate.release, if_neg hne, heq, Nat.sub_add_cancel (by omega)]
    · refine .inr ⟨hall, by omega, ?_⟩
      rw [releaseSlot, RequestSlotGate.release, if_neg hne, heq]

theorem Ahead.irrefl (w : SlotWaiter) : ¬Ahead w w := by
  rintro (h | ⟨-, h⟩) <;> omega

omit [DecidableEq τ] in
theorem Sound.nodup (h : Sound s) : s.gate.waiters.Nodup :=
  h.sorted.imp (by
    rintro w w' hahead rfl
    exact Ahead.irrefl w hahead)

omit [DecidableEq τ] in
/-- An owner is not in the queue. -/
theorem Sound.owner_notMem (h : Sound s) (ht : Owns s t) (hw : s.tasks t = .waiting w c) :
    w ∉ s.gate.waiters := by
  intro hmem
  rcases ht with hhold | ⟨w', c', hw', hresult⟩
  · cases hhold.symm.trans hw
  · cases hw'.symm.trans hw
    rcases h.unanswered _ hmem with hp | hc
    · cases hp.symm.trans hresult
    · cases hc.symm.trans hresult

/-- The owners after a slot was passed on to the task of a waiter in the queue. -/
theorem Sound.owns_pass (h : Sound s) (ht : Owns s t) {rest : List SlotWaiter}
    (hu : s.tasks u = .waiting w c) (hin : w ∈ s.gate.waiters) {u' : τ} :
    Owns (setTask { s with
      gate := { s.gate with waiters := rest }
      futures := Function.update s.futures w.granted .result } t .idle) u' ↔
    u' = u ∨ u' ≠ t ∧ Owns s u' := by
  have hut : u ≠ t := fun hut => h.owner_notMem ht (hut ▸ hu) hin
  have hfuture : ∀ {v : SlotWaiter} {c' : Bool}, s.tasks u' = .waiting v c' → u' ≠ u →
      Function.update s.futures w.granted .result v.granted = s.futures v.granted := by
    intro v c' hu' hne
    exact Function.update_of_ne (fun heq => hne (h.own u' u v w c' c hu' hu heq)) ..
  have htask : u' ≠ t → (Function.update s.tasks t Task.idle) u' = s.tasks u' :=
    fun hne => Function.update_of_ne hne ..
  by_cases hu't : u' = t
  · subst hu't
    constructor
    · intro howns
      exact absurd howns not_owns_idle
    · rintro (heq | ⟨hne, -⟩)
      · exact absurd heq.symm hut
      · exact absurd rfl hne
  · by_cases hu'u : u' = u
    · subst hu'u
      refine ⟨fun _ => .inl rfl, fun _ => .inr ⟨w, c, (htask hu't).trans hu, ?_⟩⟩
      exact Function.update_self ..
    · constructor
      · rintro (hhold | ⟨v, c', hv, hresult⟩)
        · exact .inr ⟨hu't, .inl ((htask hu't).symm.trans hhold)⟩
        · have hv' := (htask hu't).symm.trans hv
          exact .inr ⟨hu't, .inr ⟨v, c', hv', (hfuture hv' hu'u).symm.trans hresult⟩⟩
      · rintro (heq | ⟨-, howns⟩)
        · exact absurd heq hu'u
        · rcases howns with hhold | ⟨v, c', hv, hresult⟩
          · exact .inl ((htask hu't).trans hhold)
          · exact .inr ⟨v, c', (htask hu't).trans hv, (hfuture hv hu'u).trans hresult⟩

/-- The slot of the task goes to the first live waiter of the queue. -/
theorem Sound.pass (h : Sound s) (ht : Owns s t) {dead rest : List SlotWaiter}
    (hwaiters : s.gate.waiters = dead ++ w :: rest)
    (hdead : ∀ d ∈ dead, s.futures d.granted ≠ .pending) :
    Sound (setTask { s with
      gate := { s.gate with waiters := rest }
      futures := Function.update s.futures w.granted .result } t .idle) := by
  obtain ⟨owners, hmem, hcard⟩ := h.counted
  have hin : w ∈ s.gate.waiters := by simp [hwaiters]
  have hrest : ∀ v ∈ rest, v ∈ s.gate.waiters := fun v hv => by simp [hwaiters, hv]
  obtain ⟨u, c, hu⟩ := h.queued w hin
  have hut : u ≠ t := fun hut => h.owner_notMem ht (hut ▸ hu) hin
  have hsorted := h.sorted
  have hnodup := h.nodup
  rw [hwaiters] at hsorted hnodup
  have hw_rest : w ∉ rest := (nodup_cons.mp (nodup_append.mp hnodup).2.1).1
  have hfuture : ∀ {v : SlotWaiter} {u' : τ} {c' : Bool}, s.tasks u' = .waiting v c' → u' ≠ u →
      Function.update s.futures w.granted .result v.granted = s.futures v.granted := by
    intro v u' c' hu' hne
    exact Function.update_of_ne (fun heq => hne (h.own u' u v w c' c hu' hu heq)) ..
  have htask : ∀ {u' : τ}, u' ≠ t → (Function.update s.tasks t Task.idle) u' = s.tasks u' :=
    fun hne => Function.update_of_ne hne ..
  have hnot : u ∉ owners := by
    intro howner
    exact h.owner_notMem ((hmem u).mp howner) hu hin
  constructor
  · refine ⟨insert u (owners.erase t), fun u' => ?_, ?_⟩
    · rw [Finset.mem_insert, Finset.mem_erase, hmem]
      exact (h.owns_pass ht hu hin).symm
    · rw [Finset.card_insert_of_notMem (fun hmem' => hnot (Finset.mem_of_mem_erase hmem')),
        Finset.card_erase_of_mem ((hmem t).mpr ht)]
      have hpos : 0 < owners.card := Finset.card_pos.mpr ⟨t, (hmem t).mpr ht⟩
      show owners.card - 1 + 1 = s.gate.granted
      omega
  · exact h.bounded
  · exact fun _ => h.full (ne_nil_of_mem hin)
  · intro herror
    exact absurd (h.closed herror) (ne_nil_of_mem hin)
  · exact (pairwise_cons.mp (pairwise_append.mp hsorted).2.1).2
  · intro v hv
    obtain ⟨u', c', hu'⟩ := h.queued v (hrest v hv)
    refine ⟨u', c', (htask ?_).trans hu'⟩
    intro heq
    exact h.owner_notMem ht (heq ▸ hu') (hrest v hv)
  · intro v hv
    obtain ⟨u', c', hu'⟩ := h.queued v (hrest v hv)
    have hne : u' ≠ u := by
      intro heq
      rw [heq, hu] at hu'
      cases hu'
      exact hw_rest hv
    show Function.update s.futures w.granted .result v.granted = .pending ∨
      Function.update s.futures w.granted .result v.granted = .cancelled
    rw [hfuture hu' hne]
    exact h.unanswered v (hrest v hv)
  · exact fun u' v c' hu' => h.known u' v c' (waiting_of_idle hu').2
  · intro u' v c' hu' hpending
    obtain ⟨-, hv⟩ := waiting_of_idle hu'
    have hne : u' ≠ u := by
      intro heq
      rw [heq, hu] at hv
      cases hv
      cases (Function.update_self ..).symm.trans hpending
    have hold := (hfuture hv hne).symm.trans hpending
    have hin' := h.waiting u' v c' hv hold
    rw [hwaiters] at hin'
    rcases mem_append.mp hin' with hdead' | hcons
    · exact absurd hold (hdead v hdead')
    · rcases mem_cons.mp hcons with heq | hv_rest
      · exact absurd (h.own u' u v w c' c hv hu (heq ▸ rfl)) hne
      · exact hv_rest
  · exact fun u' u'' v v' c' c'' hu' hu'' =>
      h.own u' u'' v v' c' c'' (waiting_of_idle hu').2 (waiting_of_idle hu'').2
  · intro u' v hu'
    obtain ⟨-, hv⟩ := waiting_of_idle hu'
    show Function.update s.futures w.granted .result v.granted = .result ∨
      Function.update s.futures w.granted .result v.granted = .cancelled
    by_cases hne : u' = u
    · rw [hne, hu] at hv
      cases hv
      exact .inl (Function.update_self ..)
    · rw [hfuture hv hne]
      exact h.spared u' v hv

theorem Sound.free (h : Sound s) (ht : Owns s t)
    (hdead : ∀ d ∈ s.gate.waiters, s.futures d.granted ≠ .pending) :
    Sound (setTask { s with
      gate := { s.gate with granted := s.gate.granted - 1, waiters := [] } } t .idle) := by
  obtain ⟨owners, hmem, hcard⟩ := h.counted
  constructor
  · refine ⟨owners.erase t, fun u => ?_, ?_⟩
    · rw [Finset.mem_erase, hmem]
      exact owns_idle.symm
    · rw [Finset.card_erase_of_mem ((hmem t).mpr ht), hcard]
      rfl
  · exact (Nat.sub_le _ _).trans h.bounded
  · exact fun hne => absurd rfl hne
  · exact fun _ => rfl
  · exact List.Pairwise.nil
  · exact fun w hw => absurd hw not_mem_nil
  · exact fun w hw => absurd hw not_mem_nil
  · exact fun u w c hu => h.known u w c (waiting_of_idle hu).2
  · intro u w c hu hpending
    exact absurd hpending (hdead w (h.waiting u w c (waiting_of_idle hu).2 hpending))
  · exact fun u u' w w' c c' hu hu' =>
      h.own u u' w w' c c' (waiting_of_idle hu).2 (waiting_of_idle hu').2
  · exact fun u w hu => h.spared u w (waiting_of_idle hu).2

theorem Sound.releaseSlot (h : Sound s) (ht : Owns s t) : Sound (s.releaseSlot t) := by
  rcases releaseSlot_spec h ht with
    ⟨dead, w, rest, hwaiters, hdead, -, heq⟩ | ⟨hdead, -, heq⟩
  · rw [heq]
    exact h.pass ht hwaiters hdead
  · rw [heq]
    exact h.free ht hdead

/-! ### Acquire -/

/-- A newcomer stands behind everyone of its priority or above. -/
theorem enqueue_spec {waiter : SlotWaiter} {waiters : List SlotWaiter}
    (hsorted : waiters.Pairwise Ahead) :
    ∃ front back, waiters = front ++ back ∧ enqueue waiter waiters = front ++ waiter :: back ∧
      (∀ w ∈ front, waiter.priority ≤ w.priority) ∧ ∀ w ∈ back, w.priority < waiter.priority := by
  obtain ⟨behind, hbehind⟩ : ∃ behind, behind =
      waiters.reverse.takeWhile fun other => other.priority < waiter.priority := ⟨_, rfl⟩
  obtain ⟨before, hbefore⟩ : ∃ before, before =
      waiters.reverse.dropWhile fun other => other.priority < waiter.priority := ⟨_, rfl⟩
  have hsplit : waiters = before.reverse ++ behind.reverse := by
    rw [← reverse_append, hbehind, hbefore, takeWhile_append_dropWhile,
      reverse_reverse]
  have hlen : waiters.length - behind.length = before.reverse.length := by
    rw [hsplit]
    simp
  refine ⟨before.reverse, behind.reverse, hsplit, ?_, ?_, ?_⟩
  · rw [enqueue, ← hbehind, hlen]
    conv_lhs => rw [hsplit]
    rw [take_left, drop_left]
  · cases hcases : before with
    | nil => exact fun w hw => absurd hw not_mem_nil
    | cons last others =>
      have hlast : ¬last.priority < waiter.priority := by
        have hhead := head?_dropWhile_not
          (fun other : SlotWaiter => decide (other.priority < waiter.priority)) waiters.reverse
        rw [← hbefore, hcases] at hhead
        simpa using hhead
      intro w hw
      rw [hsplit, hcases, reverse_cons, List.append_assoc] at hsorted
      rcases mem_append.mp (reverse_cons ▸ hw) with hother | heq
      · have hahead := (pairwise_append.mp hsorted).2.2 w hother last
          (mem_append_left _ (mem_singleton.mpr rfl))
        rcases hahead with hlt | ⟨heq, -⟩ <;> omega
      · rw [mem_singleton.mp heq]
        omega
  · intro w hw
    rw [mem_reverse, hbehind] at hw
    have hlt := mem_takeWhile_imp
      (p := fun other : SlotWaiter => decide (other.priority < waiter.priority)) hw
    exact of_decide_eq_true hlt

theorem owns_take : Owns (setTask { s with gate } t .holding) u ↔ u = t ∨ Owns s u := by
  by_cases hu : u = t
  · subst hu
    exact ⟨fun _ => .inl rfl, fun _ => owns_holding⟩
  · exact (owns_setTask_ne hu).trans (or_iff_right hu).symm

theorem Sound.take (h : Sound s) (ht : s.tasks t = .idle)
    (hfree : s.gate.granted < s.gate.capacity) (hempty : s.gate.waiters = []) :
    Sound (setTask { s with gate := { s.gate with granted := s.gate.granted + 1 } }
      t .holding) := by
  obtain ⟨owners, hmem, hcard⟩ := h.counted
  have hnot : ¬Owns s t := by
    rintro (hhold | ⟨w, c, hw, -⟩)
    · cases ht.symm.trans hhold
    · cases ht.symm.trans hw
  have hback : ∀ {u' : τ} {v : SlotWaiter} {c' : Bool},
      (Function.update s.tasks t Task.holding) u' = .waiting v c' →
        u' ≠ t ∧ s.tasks u' = .waiting v c' :=
    fun hu' => waiting_of_setTask (fun w c => by simp) hu'
  constructor
  · refine ⟨insert t owners, fun u => ?_, ?_⟩
    · rw [Finset.mem_insert, hmem]
      exact owns_take.symm
    · rw [Finset.card_insert_of_notMem fun hin => hnot ((hmem t).mp hin), hcard]
      rfl
  · exact hfree
  · exact fun hne => absurd hempty hne
  · exact h.closed
  · exact h.sorted
  · exact fun w hw => absurd (hempty ▸ hw) not_mem_nil
  · exact h.unanswered
  · exact fun u w c hu => h.known u w c (hback hu).2
  · exact fun u w c hu => h.waiting u w c (hback hu).2
  · exact fun u u' w w' c c' hu hu' => h.own u u' w w' c c' (hback hu).2 (hback hu').2
  · exact fun u w hu => h.spared u w (hback hu).2

/-- Nobody owns more or less when a newcomer queues up. -/
theorem Sound.owns_enqueue (h : Sound s) (ht : s.tasks t = .idle) {waiter : SlotWaiter}
    (hid : waiter.granted = s.created) :
    Owns (setTask { s with
      gate
      futures := Function.update s.futures s.created .pending
      created := s.created + 1 } t (.waiting waiter false)) u ↔ Owns s u := by
  by_cases hut : u = t
  · subst hut
    constructor
    · rintro (hhold | ⟨w, c, hw, hresult⟩)
      · cases (setTask_self ..).symm.trans hhold
      · cases (setTask_self ..).symm.trans hw
        have hpending : Function.update s.futures s.created Future.pending waiter.granted =
            .pending := by
          rw [hid]
          exact Function.update_self ..
        cases hpending.symm.trans hresult
    · rintro (hhold | ⟨w, c, hw, -⟩)
      · cases ht.symm.trans hhold
      · cases ht.symm.trans hw
  · have htask : Function.update s.tasks t (.waiting waiter false) u = s.tasks u :=
      Function.update_of_ne hut ..
    constructor
    · rintro (hhold | ⟨w, c, hw, hresult⟩)
      · exact .inl (htask.symm.trans hhold)
      · have hw' := htask.symm.trans hw
        exact .inr ⟨w, c, hw', (futures_of_lt (h.known u w c hw')).symm.trans hresult⟩
    · rintro (hhold | ⟨w, c, hw, hresult⟩)
      · exact .inl (htask.trans hhold)
      · exact .inr ⟨w, c, htask.trans hw, (futures_of_lt (h.known u w c hw)).trans hresult⟩

theorem Sound.enqueue (h : Sound s) (ht : s.tasks t = .idle) (herror : s.gate.error = none)
    (hbusy : ¬(s.gate.granted < s.gate.capacity ∧ s.gate.waiters = [])) (priority : Int) :
    Sound (setTask { s with
      gate := { s.gate with
        waiters := enqueue { priority, granted := s.created } s.gate.waiters }
      futures := Function.update s.futures s.created .pending
      created := s.created + 1 } t (.waiting { priority, granted := s.created } false)) := by
  obtain ⟨owners, hmem, hcard⟩ := h.counted
  obtain ⟨waiter, hwaiter⟩ : ∃ waiter : SlotWaiter, waiter = { priority, granted := s.created } :=
    ⟨_, rfl⟩
  have hid : waiter.granted = s.created := by rw [hwaiter]
  rw [← hwaiter]
  obtain ⟨front, back, hsplit, hqueue, hfront, hback⟩ := enqueue_spec h.sorted
  have hold : ∀ {w : SlotWaiter}, w ∈ s.gate.waiters → w.granted < s.created := by
    intro w hw
    obtain ⟨u, c, hu⟩ := h.queued w hw
    exact h.known u w c hu
  have hmemq : ∀ {w : SlotWaiter},
      w ∈ RequestSlotGate.enqueue waiter s.gate.waiters ↔ w = waiter ∨ w ∈ s.gate.waiters := by
    intro w
    rw [hqueue, hsplit]
    simp only [mem_append, mem_cons]
    tauto
  have hne : ∀ {u : τ} {task : Task}, s.tasks u = task → task ≠ .idle → u ≠ t := by
    rintro u task hu hidle rfl
    exact hidle (hu.symm.trans ht)
  have htask : ∀ {u : τ}, u ≠ t →
      Function.update s.tasks t (.waiting waiter false) u = s.tasks u :=
    fun hut => Function.update_of_ne hut ..
  have hcases : ∀ {u : τ} {w : SlotWaiter} {c : Bool},
      Function.update s.tasks t (.waiting waiter false) u = .waiting w c →
        (u = t ∧ w = waiter ∧ c = false) ∨ (u ≠ t ∧ s.tasks u = .waiting w c) := by
    intro u w c hu
    by_cases hut : u = t
    · subst hut
      rw [Function.update_self] at hu
      cases hu
      exact .inl ⟨rfl, rfl, rfl⟩
    · exact .inr ⟨hut, (htask hut).symm.trans hu⟩
  have hnewfuture :
      Function.update s.futures s.created Future.pending waiter.granted = .pending := by
    rw [hid]
    exact Function.update_self ..
  constructor
  · refine ⟨owners, fun u => ?_, hcard⟩
    rw [hmem]
    exact (h.owns_enqueue ht hid).symm
  · exact h.bounded
  · intro _
    by_cases hempty : s.gate.waiters = []
    · have hle := h.bounded
      have hge : ¬s.gate.granted < s.gate.capacity := fun hlt => hbusy ⟨hlt, hempty⟩
      show s.gate.granted = s.gate.capacity
      omega
    · exact h.full hempty
  · exact fun herr => absurd herror herr
  · show (RequestSlotGate.enqueue waiter s.gate.waiters).Pairwise Ahead
    rw [hqueue]
    have hsorted := h.sorted
    rw [hsplit, pairwise_append] at hsorted
    refine pairwise_append.mpr ⟨hsorted.1, pairwise_cons.mpr ⟨?_, hsorted.2.1⟩, ?_⟩
    · exact fun w hw => .inl (hback w hw)
    · intro w hw w' hw'
      rcases mem_cons.mp hw' with rfl | hw'
      · have hlt := hold (hsplit ▸ mem_append_left back hw)
        rcases Int.lt_or_eq_of_le (hfront w hw) with hp | hp
        · exact .inl hp
        · exact .inr ⟨hp, hid.symm ▸ hlt⟩
      · exact hsorted.2.2 w hw w' hw'
  · intro w hw
    rcases hmemq.mp hw with rfl | hw
    · exact ⟨t, false, Function.update_self ..⟩
    · obtain ⟨u, c, hu⟩ := h.queued w hw
      exact ⟨u, c, (htask (hne hu (by simp))).trans hu⟩
  · intro w hw
    rcases hmemq.mp hw with rfl | hin
    · exact .inl hnewfuture
    · show Function.update s.futures s.created Future.pending w.granted = .pending ∨
        Function.update s.futures s.created Future.pending w.granted = .cancelled
      rw [futures_of_lt (hold hin)]
      exact h.unanswered w hin
  · intro u w c hu
    show w.granted < s.created + 1
    rcases hcases hu with ⟨-, rfl, -⟩ | ⟨-, hw⟩
    · omega
    · exact (h.known u w c hw).trans (Nat.lt_succ_self _)
  · intro u w c hu hpending
    refine hmemq.mpr ?_
    rcases hcases hu with ⟨-, rfl, -⟩ | ⟨-, hw⟩
    · exact .inl rfl
    · exact .inr (h.waiting u w c hw ((futures_of_lt (h.known u w c hw)).symm.trans hpending))
  · intro u u' w w' c c' hu hu' heq
    rcases hcases hu with ⟨rfl, rfl, -⟩ | ⟨-, hw⟩
    · rcases hcases hu' with ⟨rfl, -, -⟩ | ⟨-, hw'⟩
      · rfl
      · have hlt := h.known u' w' c' hw'
        omega
    · rcases hcases hu' with ⟨rfl, rfl, -⟩ | ⟨-, hw'⟩
      · have hlt := h.known u w c hw
        omega
      · exact h.own u u' w w' c c' hw hw' heq
  · intro u w hu
    rcases hcases hu with ⟨-, -, hc⟩ | ⟨-, hw⟩
    · cases hc
    · show Function.update s.futures s.created Future.pending w.granted = .result ∨
        Function.update s.futures s.created Future.pending w.granted = .cancelled
      rw [futures_of_lt (h.known u w true hw)]
      exact h.spared u w hw

/-! ### Answers and cancellations -/

/-- A task whose wait was cancelled takes its waiter out of the queue. -/
theorem Sound.leave (h : Sound s) (ht : s.tasks t = .waiting w c)
    (hcancelled : s.futures w.granted = .cancelled) :
    Sound (setTask { s with gate := { s.gate with waiters := s.gate.waiters.erase w } }
      t .idle) := by
  have hsub := erase_subset (a := w) (l := s.gate.waiters)
  have hother : ∀ {u : τ} {v : SlotWaiter} {c' : Bool}, u ≠ t → s.tasks u = .waiting v c' →
      v ≠ w := by
    rintro u v c' hut hu rfl
    exact hut (h.own u t v v c' c hu ht rfl)
  have hnot : ¬Owns s t := by
    rintro (hhold | ⟨v, c', hv, hresult⟩)
    · cases ht.symm.trans hhold
    · cases ht.symm.trans hv
      cases hcancelled.symm.trans hresult
  constructor
  · obtain ⟨owners, hmem, hcard⟩ := h.counted
    refine ⟨owners, fun u => ?_, hcard⟩
    rw [hmem]
    refine Iff.trans ⟨fun howns => ⟨?_, howns⟩, And.right⟩ owns_idle.symm
    rintro rfl
    exact hnot howns
  · exact h.bounded
  · intro hne
    refine h.full fun hempty => hne ?_
    show s.gate.waiters.erase w = []
    rw [hempty]
    rfl
  · intro herror
    show s.gate.waiters.erase w = []
    rw [h.closed herror]
    rfl
  · exact h.sorted.sublist (erase_sublist ..)
  · intro v hv
    obtain ⟨u, c', hu⟩ := h.queued v (hsub hv)
    refine ⟨u, c', (Function.update_of_ne ?_ ..).trans hu⟩
    intro hut
    rw [hut, ht] at hu
    cases hu
    exact h.nodup.not_mem_erase hv
  · exact fun v hv => h.unanswered v (hsub hv)
  · exact fun u v c' hu => h.known u v c' (waiting_of_idle hu).2
  · intro u v c' hu hpending
    obtain ⟨hut, hv⟩ := waiting_of_idle hu
    exact (mem_erase_of_ne (hother hut hv)).mpr (h.waiting u v c' hv hpending)
  · exact fun u u' v v' c' c'' hu hu' =>
      h.own u u' v v' c' c'' (waiting_of_idle hu).2 (waiting_of_idle hu').2
  · exact fun u v hu => h.spared u v (waiting_of_idle hu).2

/-- `CancelledError` at the await, unless the future holds the exception of `close`. -/
theorem Sound.abandon (h : Sound s) (ht : s.tasks t = .waiting w c)
    (hanswer : s.futures w.granted = .result ∨ s.futures w.granted = .cancelled) :
    Sound (s.abandon t w) := by
  rcases hanswer with hresult | hcancelled
  · rw [Slots.abandon, if_pos (by simp [hresult, Future.done])]
    exact h.releaseSlot (.inr ⟨w, c, ht, hresult⟩)
  · rw [Slots.abandon, if_neg (by simp [hcancelled])]
    exact h.leave ht hcancelled

omit [DecidableEq τ] in
theorem notMem_of_answered (h : Sound s)
    (hanswer : s.futures w.granted = .result ∨ s.futures w.granted = .exception) :
    w ∉ s.gate.waiters := by
  intro hin
  rcases h.unanswered w hin with hp | hc <;> rcases hanswer with hr | he
  · cases hp.symm.trans hr
  · cases hp.symm.trans he
  · cases hc.symm.trans hr
  · cases hc.symm.trans he

theorem Sound.resume (h : Sound s) (ht : s.tasks t = .waiting w c)
    (hs' : s.resume t w c = some s') : Sound s' := by
  have honly : ∀ v c', s.tasks t = .waiting v c' → v = w := by
    intro v c' hv
    cases ht.symm.trans hv
    rfl
  unfold Slots.resume at hs'
  split at hs'
  · cases hs'
  · rename_i hfuture
    cases hs'
    exact h.abandon ht (.inr hfuture)
  · rename_i hfuture
    cases hs'
    split
    · exact h.abandon ht (.inl hfuture)
    · refine h.setTask_other (fun w c => by simp) ?_ ⟨fun _ => .inr ⟨w, c, ht, hfuture⟩,
        fun _ => owns_holding⟩
      intro v c' hv
      rw [honly v c' hv]
      exact notMem_of_answered h (.inl hfuture)
  · rename_i hfuture
    cases hs'
    have hnot : ¬c = true := by
      rintro rfl
      rcases h.spared t w ht with hr | hc
      · cases hfuture.symm.trans hr
      · cases hfuture.symm.trans hc
    rw [if_neg hnot]
    refine h.setTask_other (fun w c => by simp) ?_ ⟨fun howns => absurd howns not_owns_idle, ?_⟩
    · intro v c' hv
      rw [honly v c' hv]
      exact notMem_of_answered h (.inr hfuture)
    · rintro (hhold | ⟨v, c', hv, hresult⟩)
      · cases ht.symm.trans hhold
      · rw [honly v c' hv] at hresult
        cases hfuture.symm.trans hresult

omit [DecidableEq τ] in
theorem owns_cancelPending (hpending : s.futures w.granted = .pending) :
    Owns { s with futures := Function.update s.futures w.granted .cancelled } u ↔ Owns s u := by
  refine or_congr Iff.rfl (exists_congr fun v => exists_congr fun c' =>
    and_congr_right fun hu => ?_)
  show Function.update s.futures w.granted .cancelled v.granted = .result ↔ _
  by_cases heq : v.granted = w.granted
  · rw [heq, Function.update_self, hpending]
    simp
  · rw [Function.update_of_ne heq]

theorem Sound.cancelPending (h : Sound s) (ht : s.tasks t = .waiting w c)
    (hpending : s.futures w.granted = .pending) :
    Sound { s with futures := Function.update s.futures w.granted .cancelled } := by
  have hin := h.waiting t w c ht hpending
  have hfuture : ∀ {v : SlotWaiter} {u : τ} {c' : Bool}, s.tasks u = .waiting v c' → u ≠ t →
      Function.update s.futures w.granted .cancelled v.granted = s.futures v.granted := by
    intro v u c' hu hne
    exact Function.update_of_ne (fun heq => hne (h.own u t v w c' c hu ht heq)) ..
  have hself : Function.update s.futures w.granted .cancelled w.granted = .cancelled :=
    Function.update_self ..
  have honly : ∀ {u : τ} {v : SlotWaiter} {c' : Bool}, s.tasks u = .waiting v c' → u = t →
      v = w := by
    rintro u v c' hu rfl
    cases ht.symm.trans hu
    rfl
  constructor
  · obtain ⟨owners, hmem, hcard⟩ := h.counted
    refine ⟨owners, fun u => ?_, hcard⟩
    rw [hmem]
    exact (owns_cancelPending hpending).symm
  · exact h.bounded
  · exact h.full
  · exact h.closed
  · exact h.sorted
  · exact h.queued
  · intro v hv
    obtain ⟨u, c', hu⟩ := h.queued v hv
    by_cases hut : u = t
    · rw [honly hu hut]
      exact .inr hself
    · show Function.update s.futures w.granted .cancelled v.granted = .pending ∨
        Function.update s.futures w.granted .cancelled v.granted = .cancelled
      rw [hfuture hu hut]
      exact h.unanswered v hv
  · exact h.known
  · intro u v c' hu hp
    by_cases hut : u = t
    · rw [honly hu hut]
      exact hin
    · exact h.waiting u v c' hu ((hfuture hu hut).symm.trans hp)
  · exact h.own
  · intro u v hu
    show Function.update s.futures w.granted .cancelled v.granted = .result ∨
      Function.update s.futures w.granted .cancelled v.granted = .cancelled
    by_cases hut : u = t
    · rw [honly hu hut]
      exact .inr hself
    · rw [hfuture hu hut]
      exact h.spared u v hu

theorem owns_cancelDone (ht : s.tasks t = .waiting w c) :
    Owns (s.setTask t (.waiting w true)) u ↔ Owns s u := by
  by_cases hut : u = t
  · subst hut
    simp [Owns, ht]
  · exact owns_setTask_ne hut

/-- The cancellation of a task whose future is done comes with its next step. -/
theorem Sound.cancelDone (h : Sound s) (ht : s.tasks t = .waiting w c)
    (hdone : s.futures w.granted ≠ .pending) (hspared : s.futures w.granted ≠ .exception) :
    Sound (s.setTask t (.waiting w true)) := by
  have hcases : ∀ {u : τ} {v : SlotWaiter} {c' : Bool},
      Function.update s.tasks t (.waiting w true) u = .waiting v c' →
        ∃ c'', s.tasks u = .waiting v c'' ∧ (u = t ∧ v = w ∨ c'' = c') := by
    intro u v c' hu
    by_cases hut : u = t
    · subst hut
      rw [Function.update_self] at hu
      cases hu
      exact ⟨c, ht, .inl ⟨rfl, rfl⟩⟩
    · exact ⟨c', (Function.update_of_ne hut ..).symm.trans hu, .inr rfl⟩
  have hforth : ∀ {u : τ} {v : SlotWaiter} {c' : Bool}, s.tasks u = .waiting v c' →
      ∃ c'', Function.update s.tasks t (.waiting w true) u = .waiting v c'' := by
    intro u v c' hu
    by_cases hut : u = t
    · subst hut
      cases ht.symm.trans hu
      exact ⟨true, Function.update_self ..⟩
    · exact ⟨c', (Function.update_of_ne hut ..).trans hu⟩
  constructor
  · obtain ⟨owners, hmem, hcard⟩ := h.counted
    refine ⟨owners, fun u => ?_, hcard⟩
    rw [hmem]
    exact (owns_cancelDone ht).symm
  · exact h.bounded
  · exact h.full
  · exact h.closed
  · exact h.sorted
  · intro v hv
    obtain ⟨u, c', hu⟩ := h.queued v hv
    exact ⟨u, hforth hu⟩
  · exact h.unanswered
  · intro u v c' hu
    obtain ⟨c'', hu'', -⟩ := hcases hu
    exact h.known u v c'' hu''
  · intro u v c' hu
    obtain ⟨c'', hu'', -⟩ := hcases hu
    exact h.waiting u v c'' hu''
  · intro u u' v v' c' c'' hu hu'
    obtain ⟨d, hd, -⟩ := hcases hu
    obtain ⟨d', hd', -⟩ := hcases hu'
    exact h.own u u' v v' d d' hd hd'
  · intro u v hu
    obtain ⟨c'', hu'', ⟨-, rfl⟩ | rfl⟩ := hcases hu
    · show s.futures v.granted = .result ∨ s.futures v.granted = .cancelled
      cases hv : s.futures v.granted with
      | pending => exact absurd hv hdone
      | result => exact .inl rfl
      | exception => exact absurd hv hspared
      | cancelled => exact .inr rfl
    · exact h.spared u v hu''

theorem Sound.cancel (h : Sound s) (ht : s.tasks t = .waiting w c)
    (hspared : s.futures w.granted ≠ .exception) : Sound (s.cancel t w) := by
  unfold Slots.cancel
  split
  · rename_i hpending
    exact h.cancelPending ht hpending
  · rename_i hdone
    exact h.cancelDone ht hdone hspared

/-! ### Close -/

theorem reject_eq (futures : Nat → Future) (waiters : List SlotWaiter) (n : Nat) :
    reject futures waiters n =
      if futures n = .pending ∧ n ∈ waiters.map SlotWaiter.granted then .exception
      else futures n := by
  induction waiters generalizing futures with
  | nil => simp [reject]
  | cons w waiters ih =>
    show reject (if (futures w.granted).done then futures
      else Function.update futures w.granted .exception) waiters n = _
    rw [ih]
    by_cases hdone : (futures w.granted).done = true
    · rw [if_pos hdone]
      have hne := (done_iff _).mp hdone
      by_cases hn : n = w.granted
      · subst hn
        simp [hne]
      · simp [hn]
    · rw [if_neg hdone]
      have hpending : futures w.granted = .pending := by
        by_contra hne
        exact hdone ((done_iff _).mpr hne)
      by_cases hn : n = w.granted
      · subst hn
        simp [hpending]
      · simp [hn]

omit [DecidableEq τ] in
theorem owns_close {error : E} : Owns (s.close error) u ↔ Owns s u := by
  refine or_congr Iff.rfl (exists_congr fun v => exists_congr fun c' =>
    and_congr_right fun _ => ?_)
  show reject s.futures s.gate.waiters v.granted = _ ↔ _
  rw [reject_eq]
  split
  · rename_i hp
    simp [hp.1]
  · rfl

omit [DecidableEq τ] in
theorem Sound.close (h : Sound s) (error : E) : Sound (s.close error) := by
  have hkeep : ∀ n, s.futures n ≠ .pending → (s.close error).futures n = s.futures n := by
    intro n hn
    show reject s.futures s.gate.waiters n = _
    rw [reject_eq, if_neg fun hp => hn hp.1]
  have hanswered : ∀ t w c, s.tasks t = .waiting w c →
      (s.close error).futures w.granted ≠ .pending := by
    intro t w c hw
    show reject s.futures s.gate.waiters w.granted ≠ _
    rw [reject_eq]
    split
    · simp
    · rename_i hnot
      intro hpending
      exact hnot ⟨hpending, mem_map_of_mem (h.waiting t w c hw hpending)⟩
  constructor
  · obtain ⟨owners, hmem, hcard⟩ := h.counted
    refine ⟨owners, fun u => ?_, hcard⟩
    rw [hmem]
    exact owns_close.symm
  · exact h.bounded
  · exact fun hne => absurd rfl hne
  · exact fun _ => rfl
  · exact List.Pairwise.nil
  · exact fun w hw => absurd hw not_mem_nil
  · exact fun w hw => absurd hw not_mem_nil
  · exact h.known
  · exact fun t w c hw hpending => absurd hpending (hanswered t w c hw)
  · exact h.own
  · intro t w hw
    rw [hkeep w.granted]
    · exact h.spared t w hw
    · intro hpending
      rcases h.spared t w hw with hr | hc
      · cases hpending.symm.trans hr
      · cases hpending.symm.trans hc

/-! ### Grants -/

omit [DecidableEq τ] in
/-- A step that nobody gets a slot by is fair. -/
theorem Fair.of_owns (h : ∀ u, Owns s' u → Owns s u) : Fair s s' :=
  fun t hnot howns => absurd (h t howns) hnot

theorem Sound.fair_releaseSlot (h : Sound s) (ht : Owns s t) : Fair s (s.releaseSlot t) := by
  rcases releaseSlot_spec h ht with
    ⟨dead, w, rest, hwaiters, hdead, hpending, heq⟩ | ⟨-, -, heq⟩
  · rw [heq]
    have hin : w ∈ s.gate.waiters := by simp [hwaiters]
    obtain ⟨u, c, hu⟩ := h.queued w hin
    intro u' hnot howns
    rcases (h.owns_pass ht hu hin).mp howns with rfl | ⟨-, howned⟩
    · constructor
      · by_contra herror
        exact ne_nil_of_mem hin (h.closed herror)
      · intro t' w' hlive hlive'
        refine ⟨w, ⟨⟨c, hu⟩, hpending⟩, ?_⟩
        obtain ⟨⟨c', ht'⟩, hpending'⟩ := hlive
        have hin' := h.waiting t' w' c' ht' hpending'
        have hsorted := h.sorted
        rw [hwaiters] at hin' hsorted
        rcases mem_append.mp hin' with hd | hcons
        · exact absurd hpending' (hdead w' hd)
        · rcases mem_cons.mp hcons with heq' | hrest
          · have hgranted : Function.update s.futures w.granted .result w'.granted = .result := by
              rw [heq']
              exact Function.update_self ..
            cases hgranted.symm.trans hlive'.2
          · exact (pairwise_cons.mp (pairwise_append.mp hsorted).2.1).1 w' hrest
    · exact absurd howned hnot
  · rw [heq]
    exact Fair.of_owns fun u hu => (owns_idle.mp hu).2

theorem Sound.fair_acquire (h : Sound s) (ht : s.tasks t = .idle) (priority : Int) :
    Sound (s.acquire t priority) ∧ Fair s (s.acquire t priority) := by
  unfold Slots.acquire
  split
  · exact ⟨h, Fair.of_owns fun u hu => hu⟩
  · rename_i herror
    have hopen : s.gate.error = none := by simpa using herror
    split
    · rename_i hfree
      refine ⟨h.take ht hfree.1 hfree.2, fun u hnot howns => ⟨hopen, fun t' w' hlive _ => ?_⟩⟩
      obtain ⟨⟨c', ht'⟩, hpending'⟩ := hlive
      have hin := h.waiting t' w' c' ht' hpending'
      rw [hfree.2] at hin
      exact absurd hin not_mem_nil
    · rename_i hbusy
      refine ⟨h.enqueue ht hopen hbusy priority, Fair.of_owns fun u hu => ?_⟩
      exact (h.owns_enqueue ht rfl).mp hu

theorem Sound.fair_abandon (h : Sound s) (ht : s.tasks t = .waiting w c)
    (hanswer : s.futures w.granted = .result ∨ s.futures w.granted = .cancelled) :
    Fair s (s.abandon t w) := by
  rcases hanswer with hresult | hcancelled
  · rw [Slots.abandon, if_pos (by simp [hresult, Future.done])]
    exact h.fair_releaseSlot (.inr ⟨w, c, ht, hresult⟩)
  · rw [Slots.abandon, if_neg (by simp [hcancelled])]
    exact Fair.of_owns fun u hu => (owns_idle.mp hu).2

theorem Sound.fair_resume (h : Sound s) (ht : s.tasks t = .waiting w c)
    (hs' : s.resume t w c = some s') : Fair s s' := by
  unfold Slots.resume at hs'
  split at hs'
  · cases hs'
  · rename_i hfuture
    cases hs'
    exact h.fair_abandon ht (.inr hfuture)
  · rename_i hfuture
    cases hs'
    split
    · exact h.fair_abandon ht (.inl hfuture)
    · refine Fair.of_owns fun u hu => ?_
      rcases owns_take.mp hu with rfl | hu
      · exact .inr ⟨w, c, ht, hfuture⟩
      · exact hu
  · rename_i hfuture
    cases hs'
    split
    · rename_i hc
      subst hc
      exact h.fair_abandon ht (h.spared t w ht)
    · exact Fair.of_owns fun u hu => (owns_idle.mp hu).2

theorem Sound.fair_cancel (ht : s.tasks t = .waiting w c) : Fair s (s.cancel t w) := by
  unfold Slots.cancel
  split
  · rename_i hpending
    exact Fair.of_owns fun u hu => (owns_cancelPending hpending).mp hu
  · exact Fair.of_owns fun u hu => (owns_cancelDone ht).mp hu

/-! ### Runs -/

theorem Sound.step (h : Sound s) {a : SlotEvent τ E} (hok : SparesRejected s a)
    (hs' : s.step a = some s') : Sound s' ∧ Fair s s' := by
  cases a with
  | acquire t priority =>
    simp only [Slots.step] at hs'
    split at hs'
    · rename_i ht
      cases hs'
      exact h.fair_acquire ht priority
    · cases hs'
  | resume t =>
    simp only [Slots.step] at hs'
    split at hs'
    · rename_i w c ht
      exact ⟨h.resume ht hs', h.fair_resume ht hs'⟩
    · cases hs'
  | cancel t =>
    simp only [Slots.step] at hs'
    split at hs'
    · rename_i w c ht
      cases hs'
      have hspared : s.futures w.granted ≠ .exception := by
        have hrejected : s.rejected t = false := hok
        rw [rejected, ht] at hrejected
        exact of_decide_eq_false hrejected
      exact ⟨h.cancel ht hspared, Sound.fair_cancel ht⟩
    · cases hs'
      exact ⟨h, Fair.of_owns fun u hu => hu⟩
  | release t =>
    simp only [Slots.step] at hs'
    split at hs'
    · rename_i ht
      cases hs'
      exact ⟨h.releaseSlot (.inl ht), h.fair_releaseSlot (.inl ht)⟩
    · cases hs'
  | close error =>
    cases hs'
    exact ⟨h.close error, Fair.of_owns fun u hu => owns_close.mp hu⟩

/-- **No slot is lost or duplicated** along a run in which no task is cancelled between its
    rejection by `close` and its next step: every state counts its slots right, and every step
    from it grants in order and only while the gate is open. -/
theorem request_slots_kept {capacity : Nat} {as : List (SlotEvent τ E)}
    (hok : Meets Slots.step SparesRejected (Slots.init capacity) as)
    (hrun : run Slots.step (Slots.init capacity) as = some s) :
    Kept s ∧ ∀ a s', SparesRejected s a → s.step a = some s' → Fair s s' := by
  have hsound : Sound s :=
    run_invariant (fun s a s' h hok hstep => (h.step hok hstep).1) Sound.init hok hrun
  exact ⟨hsound.kept, fun a s' ha hs' => (hsound.step ha hs').2⟩

/-- A waiter that is served and one that gives up. -/
def servedRun : List (SlotEvent Nat Unit) :=
  [.acquire 0 0, .acquire 1 0, .acquire 2 5, .cancel 1, .release 0, .resume 2, .resume 1]

theorem request_slots_kept_three : ∃ s : Slots Nat Unit,
    run Slots.step (Slots.init 1) servedRun = some s ∧ Kept s := by
  have hok : Meets Slots.step SparesRejected (Slots.init 1) servedRun := by decide
  exact ⟨_, rfl, (request_slots_kept hok rfl).1⟩

/-- A task that is cancelled after its rejection releases the slot that another task holds, and the
    release of the holder raises. -/
theorem rejected_waiter_takes_slot : ¬∀ (as : List (SlotEvent Nat Unit)) (s : Slots Nat Unit),
    run Slots.step (Slots.init 1) as = some s → Kept s := by
  intro hkept
  have hbad := hkept [.acquire 0 0, .acquire 1 0, .close (), .cancel 1, .resume 1] _ rfl
  exact hbad.releases 0 rfl rfl

end Slots

end TyloQuant.RuntimePool
