import TyloQuant.Lib.Outcome
import TyloQuant.Lib.Rows

/-!
# Loops over a range

A loop that counts up and may throw.  Where the state after each round is known, the loop succeeds
when each round does, and its result is the last of these states.
-/

namespace TyloQuant.Lib

open List

universe u v w

variable {ε : Type u}

theorem forM_eq_ok {α : Type w} {f : α → Except ε PUnit} {xs : List α} {u : PUnit} :
    xs.forM f = .ok u ↔ ∀ x ∈ xs, f x = .ok ⟨⟩ := by
  induction xs with
  | nil =>
    constructor
    · intro _ x hx
      simp at hx
    · intro _
      rfl
  | cons x xs ih =>
    change (f x >>= fun _ => xs.forM f) = .ok u ↔ _
    rw [bind_eq_ok]
    constructor
    · rintro ⟨u', hx, hxs⟩ y hy
      rcases mem_cons.mp hy with rfl | hy
      · exact hx
      · exact ih.mp hxs y hy
    · intro h
      exact ⟨⟨⟩, h x (by simp), ih.mpr fun y hy => h y (by simp [hy])⟩

theorem foldlM_error {α : Type w} {σ : Type v} {f : σ → α → Except ε σ} {p : ε → Prop}
    (hstep : ∀ s x e, f s x = .error e → p e) {xs : List α} {s : σ} {e : ε}
    (h : xs.foldlM f s = .error e) : p e := by
  induction xs generalizing s with
  | nil => cases h
  | cons x xs ih =>
    rw [foldlM_cons] at h
    cases hx : f s x with
    | error e' =>
      rw [hx] at h
      obtain rfl : e' = e := Except.error.inj h
      exact hstep s x e' hx
    | ok t =>
      rw [hx] at h
      exact ih h

section Range

variable {σ : Type v}

theorem foldlM_range_succ (f : σ → Nat → Except ε σ) (n : Nat) (s : σ) :
    (List.range (n + 1)).foldlM f s = (List.range n).foldlM f s >>= fun t => f t n := by
  rw [range_succ, foldlM_append]
  simp

theorem foldlM_range_eq_ok {f : σ → Nat → Except ε σ} {s : Nat → σ} {p : Nat → Prop} {n : Nat}
    (hstep : ∀ i < n, ∀ t, f (s i) i = .ok t ↔ p i ∧ t = s (i + 1)) {t : σ} :
    (List.range n).foldlM f (s 0) = .ok t ↔ (∀ i < n, p i) ∧ t = s n := by
  induction n generalizing t with
  | zero =>
    change Except.ok (s 0) = .ok t ↔ _
    simp [eq_comm]
  | succ n ih =>
    rw [foldlM_range_succ, bind_eq_ok]
    constructor
    · rintro ⟨t', hprev, hlast⟩
      obtain ⟨hbefore, rfl⟩ := (ih fun i hi => hstep i (by omega)).mp hprev
      obtain ⟨hn, rfl⟩ := (hstep n (by omega) t).mp hlast
      refine ⟨fun i hi => ?_, rfl⟩
      rcases Nat.lt_succ_iff_lt_or_eq.mp hi with hlt | rfl
      · exact hbefore i hlt
      · exact hn
    · rintro ⟨hall, rfl⟩
      exact ⟨s n, (ih fun i hi => hstep i (by omega)).mpr ⟨fun i hi => hall i (by omega), rfl⟩,
        (hstep n (by omega) _).mpr ⟨hall n (by omega), rfl⟩⟩

theorem foldl_range_induction {f : σ → Nat → σ} {s : σ} {p : Nat → σ → Prop} {n : Nat}
    (hzero : p 0 s) (hstep : ∀ i < n, ∀ t, p i t → p (i + 1) (f t i)) :
    p n ((List.range n).foldl f s) := by
  induction n with
  | zero => exact hzero
  | succ n ih =>
    rw [range_succ, foldl_append]
    exact hstep n (by omega) _ (ih fun i hi => hstep i (by omega))

end Range

section Pieces

variable {size n : Nat}

/-- The places and lengths of the rounds of `for (begin = 0; begin < n; begin += size)`. -/
def pieces (size n : Nat) : List (Nat × Nat) :=
  (List.range ((n + size - 1) / size)).map fun i => (i * size, min size (n - i * size))

theorem of_mem_pieces (hsize : 0 < size) {p : Nat × Nat} (hp : p ∈ pieces size n) :
    0 < p.2 ∧ p.2 ≤ size ∧ p.1 + p.2 ≤ n := by
  obtain ⟨i, hi, rfl⟩ := mem_map.mp hp
  have hlt : i + 1 ≤ (n + size - 1) / size := mem_range.mp hi
  rw [Nat.le_div_iff_mul_le hsize, Nat.succ_mul] at hlt
  dsimp only
  omega

/-- The rounds take a list apart, in its order. -/
theorem pieces_part {α : Type w} (hsize : 0 < size) (xs : List α) :
    ((pieces size xs.length).flatMap fun p => part xs p.1 p.2) = xs := by
  have hgrown : ∀ m, ((List.range m).flatMap fun i =>
      part xs (i * size) (min size (xs.length - i * size))) = xs.take (m * size) := by
    intro m
    induction m with
    | zero => simp
    | succ m ih =>
      rw [range_succ, flatMap_append, ih, flatMap_singleton, Nat.succ_mul,
        take_add, part, ← length_drop, ← take_eq_take_min]
  have hlast : xs.length ≤ (xs.length + size - 1) / size * size := by
    have hdiv := Nat.div_add_mod (xs.length + size - 1) size
    have hmod := Nat.mod_lt (xs.length + size - 1) hsize
    rw [Nat.mul_comm] at hdiv
    omega
  rw [pieces, flatMap_map, hgrown, take_of_length_le hlast]

/-- The rounds go over the whole range. -/
theorem pieces_range' (hsize : 0 < size) :
    ((pieces size n).flatMap fun p => List.range' p.1 p.2) = List.range n := by
  have hpart : ∀ p ∈ pieces size n, List.range' p.1 p.2 = part (List.range n) p.1 p.2 := by
    intro p hp
    obtain ⟨-, -, hend⟩ := of_mem_pieces hsize hp
    rw [part, take_drop_range hend, range'_eq_map_range]
  have hall := pieces_part hsize (List.range n)
  rw [List.length_range] at hall
  rw [flatMap_congr hpart, hall]

end Pieces

end TyloQuant.Lib
