import TyloQuant.Lib.Outcome

/-!
# What a call returns and what it throws

A call that may throw is specified by two conditions, one on what it returns and one on what it
throws.  The rules follow the way such calls are put together: one after the other, a guard in
front, a translated error, a loop over a list.
-/

namespace TyloQuant.Lib

universe u v w

variable {ε ε' : Type u} {α β : Type v}

/-- What is returned is in `Q`, what is thrown in `E`. -/
def Obeys (Q : α → Prop) (E : ε → Prop) : Except ε α → Prop
  | .ok a => Q a
  | .error e => E e

namespace Obeys

variable {Q Q' : α → Prop} {E : ε → Prop} {R : β → Prop} {x : Except ε α}

theorem returned {a : α} (h : Obeys Q E x) (hx : x = .ok a) : Q a := by
  subst hx
  exact h

theorem threw {e : ε} (h : Obeys Q E x) (hx : x = .error e) : E e := by
  subst hx
  exact h

theorem bind {f : α → Except ε β} (hx : Obeys Q E x) (hf : ∀ a, Q a → Obeys R E (f a)) :
    Obeys R E (x >>= f) := by
  cases x with
  | error e => exact hx
  | ok a => exact hf a hx

theorem guard {p : Prop} [Decidable p] {e : ε} (he : p → E e) (hx : ¬p → Obeys Q E x) :
    Obeys Q E (if p then .error e else x) := by
  by_cases hp : p
  · rw [if_pos hp]
    exact he hp
  · rw [if_neg hp]
    exact hx hp

theorem weaken {E' : ε → Prop} (h : Obeys Q E x) (hQ : ∀ a, Q a → Q' a) (hE : ∀ e, E e → E' e) :
    Obeys Q' E' x := by
  cases x with
  | error e => exact hE e h
  | ok a => exact hQ a h

theorem mapError {E' : ε' → Prop} {f : ε → ε'} (h : Obeys Q E x) (hE : ∀ e, E e → E' (f e)) :
    Obeys Q E' (x.mapError f) := by
  cases x with
  | error e => exact hE e h
  | ok a => exact h

/-- A loop keeps what each round keeps of the part of the list already done. -/
theorem foldlM {σ : Type v} {γ : Type w} {f : σ → γ → Except ε σ} {P : List γ → σ → Prop}
    {xs : List γ}
    (hstep : ∀ done c rest s, xs = done ++ c :: rest → P done s → Obeys (P (done ++ [c])) E (f s c))
    {s : σ} (h : P [] s) : Obeys (P xs) E (xs.foldlM f s) := by
  suffices hgo : ∀ rest done s, xs = done ++ rest → P done s → Obeys (P xs) E (rest.foldlM f s) from
    hgo xs [] s rfl h
  intro rest
  induction rest with
  | nil =>
    intro done s hxs hs
    rw [hxs, List.append_nil]
    exact hs
  | cons c rest ih =>
    intro done s hxs hs
    rw [List.foldlM_cons]
    exact (hstep done c rest s hxs hs).bind fun t ht =>
      ih (done ++ [c]) t (by rw [hxs, List.append_assoc]; rfl) ht

end Obeys

end TyloQuant.Lib
