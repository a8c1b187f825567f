import Mathlib.Order.Basic
import Mathlib.Data.List.Basic

/-!
# Runs of a partial transition function

A system is given by `step : σ → α → Option σ`: `none` says that the action is not
enabled in the state.  A run is a list of actions, executed left to right: it splits at any
point, a side condition on the actions splits with it, and an invariant that one admissible step
keeps is kept by every admissible run.
-/

namespace TyloQuant.Lib

universe u v

variable {σ : Type u} {α : Type v}

/-! ### Runs -/

/-- Execute a list of actions, failing at the first one that is not enabled. -/
def run (step : σ → α → Option σ) : σ → List α → Option σ
  | s, [] => some s
  | s, a :: as => (step s a).bind fun s' => run step s' as

@[simp] theorem run_nil (step : σ → α → Option σ) (s : σ) : run step s [] = some s := rfl

variable {step : σ → α → Option σ} {s s' : σ} {a : α} {as : List α}

theorem run_cons :
    run step s (a :: as) = some s' ↔ ∃ m, step s a = some m ∧ run step m as = some s' := by
  simp only [run, Option.bind_eq_some_iff]

variable {bs : List α}

theorem run_append :
    run step s (as ++ bs) = some s' ↔
      ∃ m, run step s as = some m ∧ run step m bs = some s' := by
  induction as generalizing s with
  | nil => simp
  | cons a as ih =>
    simp only [List.cons_append, run_cons, ih]
    constructor
    · rintro ⟨m, hm, n, hn, hs⟩
      exact ⟨n, ⟨m, hm, hn⟩, hs⟩
    · rintro ⟨n, ⟨m, hm, hn⟩, hs⟩
      exact ⟨m, hm, n, hn, hs⟩

variable {β : Type*}

theorem run_map {f : β → α} {bs : List β} :
    run step s (bs.map f) = run (fun s b => step s (f b)) s bs := by
  induction bs generalizing s with
  | nil => rfl
  | cons b bs ih => simp only [List.map_cons, run, ih]

theorem run_flatMap {f : β → List α} {bs : List β} :
    run step s (bs.flatMap f) = run (fun s b => run step s (f b)) s bs := by
  induction bs generalizing s with
  | nil => rfl
  | cons b bs ih =>
    ext s'
    simp only [List.flatMap_cons, run_append, run_cons, ih]

/-! ### Side conditions along a run -/

/-- Every action of the run meets `ok` in the state it is executed in. -/
def Meets (step : σ → α → Option σ) (ok : σ → α → Prop) : σ → List α → Prop
  | _, [] => True
  | s, a :: as =>
    ok s a ∧ match step s a with
      | none => True
      | some s' => Meets step ok s' as

instance Meets.decidable (step : σ → α → Option σ) (ok : σ → α → Prop)
    [∀ s a, Decidable (ok s a)] : (s : σ) → (as : List α) → Decidable (Meets step ok s as)
  | _, [] => isTrue trivial
  | s, a :: as =>
    have : Decidable (match step s a with
        | none => True
        | some s' => Meets step ok s' as) := by
      cases step s a with
      | none => exact isTrue trivial
      | some s' => exact Meets.decidable step ok s' as
    inferInstanceAs (Decidable (_ ∧ _))

variable {ok : σ → α → Prop}

theorem meets_cons (h : Meets step ok s (a :: as)) (hs : step s a = some s') :
    ok s a ∧ Meets step ok s' as := by
  obtain ⟨hok, hrest⟩ := h
  rw [hs] at hrest
  exact ⟨hok, hrest⟩

theorem meets_append {m : σ} (h : Meets step ok s (as ++ bs)) (hm : run step s as = some m) :
    Meets step ok s as ∧ Meets step ok m bs := by
  induction as generalizing s with
  | nil =>
    simp only [run_nil, Option.some.injEq] at hm
    subst hm
    exact ⟨trivial, h⟩
  | cons a as ih =>
    obtain ⟨n, hn, hrun⟩ := run_cons.mp hm
    obtain ⟨hok, hrest⟩ := meets_cons h hn
    obtain ⟨has, hbs⟩ := ih hrest hrun
    refine ⟨⟨hok, ?_⟩, hbs⟩
    rw [hn]
    exact has

theorem Meets.split (h : Meets step ok s (as ++ a :: bs))
    (hrun : run step s (as ++ a :: bs) = some s') :
    ∃ m n, (run step s as = some m ∧ Meets step ok s as) ∧ (step m a = some n ∧ ok m a) ∧
      run step n bs = some s' ∧ Meets step ok n bs := by
  obtain ⟨m, hm, hrest⟩ := run_append.mp hrun
  obtain ⟨n, hn, hbs⟩ := run_cons.mp hrest
  obtain ⟨has, htail⟩ := meets_append h hm
  obtain ⟨ha, hok⟩ := meets_cons htail hn
  exact ⟨m, n, ⟨hm, has⟩, ⟨hn, ha⟩, hbs, hok⟩

variable {ok' : σ → α → Prop}

theorem Meets.mono (h : Meets step ok s as) (himp : ∀ s a, ok s a → ok' s a) :
    Meets step ok' s as := by
  induction as generalizing s with
  | nil => trivial
  | cons a as ih =>
    obtain ⟨hok, hrest⟩ := h
    refine ⟨himp s a hok, ?_⟩
    cases hs : step s a with
    | none => trivial
    | some s' =>
      rw [hs] at hrest
      exact ih hrest

variable {p : α → Prop}

/-- A condition on the actions alone joins one that also reads the state. -/
theorem Meets.and_forall (h : Meets step ok s as) (hp : ∀ a ∈ as, p a) :
    Meets step (fun s a => ok s a ∧ p a) s as := by
  induction as generalizing s with
  | nil => trivial
  | cons a as ih =>
    obtain ⟨hok, hrest⟩ := h
    refine ⟨⟨hok, hp a List.mem_cons_self⟩, ?_⟩
    cases hs : step s a with
    | none => trivial
    | some s' =>
      rw [hs] at hrest
      exact ih hrest fun b hb => hp b (List.mem_cons_of_mem a hb)

/-- A condition on the actions alone is met along every run of such actions. -/
theorem Meets.of_forall (hp : ∀ a ∈ as, p a) : Meets step (fun _ a => p a) s as := by
  induction as generalizing s with
  | nil => trivial
  | cons a as ih =>
    refine ⟨hp a List.mem_cons_self, ?_⟩
    cases step s a with
    | none => trivial
    | some s' => exact ih fun b hb => hp b (List.mem_cons_of_mem a hb)

variable {I : σ → Prop}

/-- Two conditions that agree wherever an invariant holds are met along the same runs. -/
theorem Meets.congr (hs : I s) (hstep : ∀ s a s', I s → step s a = some s' → I s')
    (hiff : ∀ s a, I s → (ok s a ↔ ok' s a)) :
    Meets step ok s as ↔ Meets step ok' s as := by
  induction as generalizing s with
  | nil => exact Iff.rfl
  | cons a as ih =>
    refine and_congr (hiff s a hs) ?_
    cases ha : step s a with
    | none => exact Iff.rfl
    | some s' => exact ih (hstep s a s' hs ha)

/-! ### Invariants -/

/-- **The invariant rule.**  What one admissible step keeps, every admissible run keeps. -/
theorem run_invariant (hstep : ∀ s a s', I s → ok s a → step s a = some s' → I s') (hs : I s)
    (hok : Meets step ok s as) (hrun : run step s as = some s') : I s' := by
  induction as generalizing s with
  | nil =>
    simp only [run_nil, Option.some.injEq] at hrun
    exact hrun ▸ hs
  | cons a as ih =>
    obtain ⟨m, hm, hrest⟩ := run_cons.mp hrun
    obtain ⟨hhead, htail⟩ := meets_cons hok hm
    exact ih (hstep s a m hs hhead hm) htail hrest

end TyloQuant.Lib
