import Mathlib.Order.Basic

/-!
# Calls on a shared state

A call runs on a state and returns, throws, or is blocked: `none` says that it cannot go on in
the schedule it was given.  A call that throws keeps what it has done to the state, as an
imperative program does, and a handler runs on that state.

A call is taken apart by inversion: what a sequence, a handler or a scope can have done when
it ends.  `Keeps` lifts a relation between the states before and after over those forms, so that
a frame or an invariant is shown for the leaves alone; `Triple` has the rules of pre- and
postconditions.
-/

namespace TyloQuant.Lib

universe u

/-- A computation on states `σ` that may throw `ε`. -/
def Call (ε σ α : Type u) : Type u := σ → Option (Except ε α × σ)

namespace Call

variable {ε σ α β : Type u}

instance : Monad (Call ε σ) where
  pure a := fun s => some (.ok a, s)
  bind x f := fun s =>
    match x s with
    | none => none
    | some (.error e, s') => some (.error e, s')
    | some (.ok a, s') => f a s'

def throw (e : ε) : Call ε σ α := fun s => some (.error e, s)

def blocked : Call ε σ α := fun _ => none

def get : Call ε σ σ := fun s => some (.ok s, s)

def modify (f : σ → σ) : Call ε σ PUnit := fun s => some (.ok PUnit.unit, f s)

/-- Run `x`; if it throws, run the handler on the state it left. -/
def tryCatch (x : Call ε σ α) (handler : ε → Call ε σ α) : Call ε σ α := fun s =>
  match x s with
  | some (.error e, s') => handler e s'
  | r => r

/-! ### Inversion -/

variable {a : α} {s s' : σ} {r : Except ε α}

theorem pure_some : (Pure.pure a : Call ε σ α) s = some (r, s') ↔ r = .ok a ∧ s' = s := by
  constructor
  · intro h
    obtain ⟨rfl, rfl⟩ := Prod.mk.inj (Option.some.inj h)
    exact ⟨rfl, rfl⟩
  · rintro ⟨rfl, rfl⟩
    rfl

variable {e : ε}

theorem throw_some : (throw e : Call ε σ α) s = some (r, s') ↔ r = .error e ∧ s' = s := by
  constructor
  · intro h
    obtain ⟨rfl, rfl⟩ := Prod.mk.inj (Option.some.inj h)
    exact ⟨rfl, rfl⟩
  · rintro ⟨rfl, rfl⟩
    rfl

theorem not_blocked : ¬(blocked : Call ε σ α) s = some (r, s') := by
  intro h
  cases h

variable {x : Call ε σ α} {f : α → Call ε σ β}

/-- A sequence throws with its first part, or its rest runs on what that part returned. -/
theorem bind_some {r : Except ε β} :
    (x >>= f) s = some (r, s') ↔ (∃ e, x s = some (.error e, s') ∧ r = .error e) ∨
        ∃ a t, x s = some (.ok a, t) ∧ f a t = some (r, s') := by
  show (match x s with
    | none => none
    | some (.error e, s') => some (.error e, s')
    | some (.ok a, s') => f a s') = some (r, s') ↔ _
  rcases hx : x s with _ | ⟨e | a, t⟩
  · simp
  · constructor
    · intro h
      obtain ⟨rfl, rfl⟩ := Prod.mk.inj (Option.some.inj h)
      exact Or.inl ⟨e, rfl, rfl⟩
    · rintro (⟨e', h, rfl⟩ | ⟨a, t', h, -⟩)
      · obtain ⟨he, rfl⟩ := Prod.mk.inj (Option.some.inj h)
        cases he
        rfl
      · cases h
  · constructor
    · intro h
      exact Or.inr ⟨a, t, rfl, h⟩
    · rintro (⟨e', h, -⟩ | ⟨a', t', h, hf⟩)
      · cases h
      · obtain ⟨ha, rfl⟩ := Prod.mk.inj (Option.some.inj h)
        cases ha
        exact hf

theorem get_bind (f : σ → Call ε σ β) (s : σ) : (get >>= f) s = f s s := rfl

theorem modify_bind (g : σ → σ) (f : PUnit → Call ε σ β) (s : σ) :
    (modify g >>= f) s = f PUnit.unit (g s) := rfl

variable {handler : ε → Call ε σ α}

theorem tryCatch_some :
    tryCatch x handler s = some (r, s') ↔ (∃ a, x s = some (.ok a, s') ∧ r = .ok a) ∨
        ∃ e t, x s = some (.error e, t) ∧ handler e t = some (r, s') := by
  unfold tryCatch
  rcases hx : x s with _ | ⟨e | a, t⟩
  · simp
  · constructor
    · intro h
      exact Or.inr ⟨e, t, rfl, h⟩
    · rintro (⟨a, h, -⟩ | ⟨e', t', h, hh⟩)
      · cases h
      · obtain ⟨he, rfl⟩ := Prod.mk.inj (Option.some.inj h)
        cases he
        exact hh
  · constructor
    · intro h
      obtain ⟨rfl, rfl⟩ := Prod.mk.inj (Option.some.inj h)
      exact Or.inl ⟨a, rfl, rfl⟩
    · rintro (⟨a', h, rfl⟩ | ⟨e', t', h, -⟩)
      · exact h
      · cases h

/-! ### What every end of a call keeps -/

/-- Whenever the call ends, the states before and after are related. -/
def Keeps (R : σ → σ → Prop) (x : Call ε σ α) : Prop := ∀ s r s', x s = some (r, s') → R s s'

/-! ### Pre- and postconditions

`Triple P x Q E`: from a state with `P`, the call `x` ends with `Q` when it returns and with `E`
when it throws. -/

def Ends (Q : α → σ → Prop) (E : σ → Prop) : Except ε α → σ → Prop
  | .ok a, s => Q a s
  | .error _, s => E s

def Triple (P : σ → Prop) (x : Call ε σ α) (Q : α → σ → Prop) (E : σ → Prop) : Prop :=
  ∀ s r s', x s = some (r, s') → P s → Ends Q E r s'

namespace Triple

variable {P P' E E' : σ → Prop} {Q Q' : α → σ → Prop} {R : β → σ → Prop}

theorem returned (h : Triple P x Q E) (hx : x s = some (.ok a, s')) (hs : P s) : Q a s' :=
  h s _ s' hx hs

theorem threw (h : Triple P x Q E) (hx : x s = some (.error e, s')) (hs : P s) : E s' :=
  h s _ s' hx hs

theorem pure (h : ∀ s, P s → Q a s) : Triple P (Pure.pure a : Call ε σ α) Q E := by
  intro s r s' hx hs
  obtain ⟨rfl, rfl⟩ := pure_some.mp hx
  exact h s' hs

theorem throw (h : ∀ s, P s → E s) : Triple P (Call.throw e : Call ε σ α) Q E := by
  intro s r s' hx hs
  obtain ⟨rfl, rfl⟩ := throw_some.mp hx
  exact h s' hs

theorem blocked : Triple P (Call.blocked : Call ε σ α) Q E :=
  fun _ _ _ hx => (not_blocked hx).elim

theorem modify {f : σ → σ} {Q : PUnit → σ → Prop} (h : ∀ s, P s → Q PUnit.unit (f s)) :
    Triple P (Call.modify f : Call ε σ PUnit) Q E := by
  intro s r s' hx hs
  cases hx
  exact h s hs

theorem bind (hx : Triple P x Q E) (hf : ∀ a, Triple (Q a) (f a) R E) : Triple P (x >>= f) R E := by
  intro s r s' h hs
  rcases bind_some.mp h with ⟨e, he, rfl⟩ | ⟨a, t, ha, ht⟩
  · exact hx.threw he hs
  · exact hf a t r s' ht (hx.returned ha hs)

theorem get_bind {f : σ → Call ε σ β} (h : ∀ s, P s → Triple (fun t => t = s) (f s) R E) :
    Triple P (Call.get >>= f) R E :=
  fun s r s' hx hs => h s hs s r s' hx rfl

variable {M : σ → Prop}

theorem modify_bind {g : σ → σ} {f : PUnit → Call ε σ β} (h : ∀ s, P s → M (g s))
    (hf : Triple M (f PUnit.unit) R E) :
    Triple P (Call.modify g >>= f) R E :=
  fun s r s' hx hs => hf (g s) r s' hx (h s hs)

theorem tryCatch (hx : Triple P x Q M) (hh : ∀ e, Triple M (handler e) Q E) :
    Triple P (Call.tryCatch x handler) Q E := by
  intro s r s' h hs
  rcases tryCatch_some.mp h with ⟨a, ha, rfl⟩ | ⟨e, t, he, hr⟩
  · exact hx.returned ha hs
  · exact hh e t r s' hr (hx.threw he hs)

theorem weaken (h : Triple P x Q E) (hP : ∀ s, P' s → P s) (hQ : ∀ a s, Q a s → Q' a s)
    (hE : ∀ s, E s → E' s) : Triple P' x Q' E' := by
  intro s r s' hx hs
  have hend := h s r s' hx (hP s hs)
  cases r with
  | error e => exact hE s' hend
  | ok a => exact hQ a s' hend

theorem and (h : Triple P x Q E) (h' : Triple P' x Q' E') :
    Triple (fun s => P s ∧ P' s) x (fun a s => Q a s ∧ Q' a s) fun s => E s ∧ E' s := by
  intro s r s' hx hs
  have hend := h s r s' hx hs.1
  have hend' := h' s r s' hx hs.2
  cases r with
  | error e => exact ⟨hend, hend'⟩
  | ok a => exact ⟨hend, hend'⟩

/-- The call starts from one state that has `P`. -/
theorem of_state (h : Triple P x Q E) (hs : P s) : Triple (fun t => t = s) x Q E :=
  h.weaken (fun _ ht => ht ▸ hs) (fun _ _ hq => hq) fun _ he => he

theorem of_threw (h : Triple P x Q E) (hE : ∀ s, E s → E' s) : Triple P x Q E' :=
  h.weaken (fun _ hp => hp) (fun _ _ hq => hq) hE

end Triple

/-! ### That a call returns -/

theorem bind_returns {t : σ} (hx : x s = some (.ok a, t)) : (x >>= f) s = f a t := by
  show (match x s with
    | none => none
    | some (.error e, s') => some (.error e, s')
    | some (.ok a, s') => f a s') = f a t
  rw [hx]

end Call

end TyloQuant.Lib
