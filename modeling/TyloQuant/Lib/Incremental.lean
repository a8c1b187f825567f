import Mathlib.Data.List.Infix
import Mathlib.Data.List.TakeDrop

/-!
# Scanners that are fed in fragments

A scanner looks at the head of the input it has: it takes something off and emits what that
stands for, it fails, or it waits for more.  When a scanner that has decided stays with its
decision however the input goes on, it does not matter in which fragments the input comes.

The second part is about markers: where the first one stands in an input, and how much at the end
of an input may be the beginning of one.
-/

namespace TyloQuant.Lib

open List

universe u

/-! ### Scanners -/

/-- What a scanner does with the head of its input. -/
inductive Pull (ε σ β α : Type u) where
  | wait
  | fail (e : ε)
  | emit (s : σ) (out : List β) (rest : List α)

namespace Pull

variable {ε σ β α : Type u}

/-- The same with more input behind. -/
def extend (ys : List α) : Pull ε σ β α → Pull ε σ β α
  | .wait => .wait
  | .fail e => .fail e
  | .emit s out rest => .emit s out (rest ++ ys)

end Pull

structure Scanner (ε σ β α : Type u) where
  pull : σ → List α → Pull ε σ β α
  shorter : ∀ {s xs s' out rest}, pull s xs = .emit s' out rest → rest.length < xs.length
  steady : ∀ {s xs} (ys : List α), pull s xs ≠ .wait → pull s (xs ++ ys) = (pull s xs).extend ys

/-- A state, what was emitted on the way to it, and the input that is left. -/
structure Scanned (σ β α : Type u) where
  state : σ
  out : List β
  rest : List α

namespace Scanned

variable {σ β α : Type u}

def after (out : List β) (r : Scanned σ β α) : Scanned σ β α := { r with out := out ++ r.out }

@[simp] theorem after_nil (r : Scanned σ β α) : r.after [] = r := rfl

@[simp] theorem after_after (o p : List β) (r : Scanned σ β α) :
    (r.after p).after o = r.after (o ++ p) := by
  simp [after]

@[simp] theorem state_after (o : List β) (r : Scanned σ β α) : (r.after o).state = r.state := rfl

@[simp] theorem rest_after (o : List β) (r : Scanned σ β α) : (r.after o).rest = r.rest := rfl

@[simp] theorem out_after (o : List β) (r : Scanned σ β α) : (r.after o).out = o ++ r.out := rfl

end Scanned

namespace Scanner

variable {ε σ β α : Type u} (M : Scanner ε σ β α)

/-- Take off what can be taken off. -/
def run (s : σ) (xs : List α) : Except ε (Scanned σ β α) :=
  match _h : M.pull s xs with
  | .wait => .ok ⟨s, [], xs⟩
  | .fail e => .error e
  | .emit s' out rest => (run s' rest).map (Scanned.after out)
termination_by xs.length
decreasing_by exact M.shorter _h

theorem run_wait {s : σ} {xs : List α} (h : M.pull s xs = .wait) :
    M.run s xs = .ok ⟨s, [], xs⟩ := by
  rw [run]
  split
  · rfl
  · rename_i e he
    cases he.symm.trans h
  · rename_i s' out rest he
    cases he.symm.trans h

theorem run_fail {s : σ} {xs : List α} {e : ε} (h : M.pull s xs = .fail e) :
    M.run s xs = .error e := by
  rw [run]
  split
  · rename_i he
    cases he.symm.trans h
  · rename_i e' he
    cases he.symm.trans h
    rfl
  · rename_i s' out rest he
    cases he.symm.trans h

theorem run_emit {s s' : σ} {xs rest : List α} {out : List β}
    (h : M.pull s xs = .emit s' out rest) :
    M.run s xs = (M.run s' rest).map (Scanned.after out) := by
  rw [run]
  split
  · rename_i he
    cases he.symm.trans h
  · rename_i e he
    cases he.symm.trans h
  · rename_i t o r he
    cases he.symm.trans h
    rfl

theorem run_induction {P : σ → List α → Except ε (Scanned σ β α) → Prop}
    (hwait : ∀ s xs, M.pull s xs = .wait → P s xs (.ok ⟨s, [], xs⟩))
    (hfail : ∀ s xs e, M.pull s xs = .fail e → P s xs (.error e))
    (hemit : ∀ s xs s' out rest, M.pull s xs = .emit s' out rest → P s' rest (M.run s' rest) →
      P s xs ((M.run s' rest).map (Scanned.after out)))
    (s : σ) (xs : List α) : P s xs (M.run s xs) := by
  induction hn : xs.length using Nat.strong_induction_on generalizing s xs with
  | _ n ih =>
    cases h : M.pull s xs with
    | wait =>
      rw [M.run_wait h]
      exact hwait s xs h
    | fail e =>
      rw [M.run_fail h]
      exact hfail s xs e h
    | emit s' out rest =>
      rw [M.run_emit h]
      exact hemit s xs s' out rest h (ih rest.length (hn ▸ M.shorter h) s' rest rfl)

/-- **More input changes nothing about what was taken off before.** -/
theorem run_append (s : σ) (xs ys : List α) :
    M.run s (xs ++ ys) = (M.run s xs).bind fun r =>
      (M.run r.state (r.rest ++ ys)).map (Scanned.after r.out) := by
  refine M.run_induction (P := fun s xs result => M.run s (xs ++ ys) = result.bind fun r =>
    (M.run r.state (r.rest ++ ys)).map (Scanned.after r.out)) ?_ ?_ ?_ s xs
  · intro s xs _
    cases hrun : M.run s (xs ++ ys) with
    | error e => simp [Except.bind, Except.map, hrun]
    | ok r => simp [Except.bind, Except.map, hrun]
  · intro s xs e h
    have hmore : M.pull s (xs ++ ys) = .fail e :=
      (M.steady ys (by simp [h])).trans (by simp [h, Pull.extend])
    rw [M.run_fail hmore]
    rfl
  · intro s xs s' out rest h ih
    have hmore : M.pull s (xs ++ ys) = .emit s' out (rest ++ ys) :=
      (M.steady ys (by simp [h])).trans (by simp [h, Pull.extend])
    rw [M.run_emit hmore, ih]
    cases M.run s' rest with
    | error e => rfl
    | ok r =>
      cases hrun : M.run r.state (r.rest ++ ys) with
      | error e => simp [Except.bind, Except.map, hrun]
      | ok r' => simp [Except.bind, Except.map, hrun]

theorem run_ok_induction {P : σ → List α → Scanned σ β α → Prop}
    (hwait : ∀ s xs, M.pull s xs = .wait → P s xs ⟨s, [], xs⟩)
    (hemit : ∀ s xs s' out rest r, M.pull s xs = .emit s' out rest → P s' rest r →
      P s xs (r.after out)) {s : σ} {xs : List α} {r : Scanned σ β α} (h : M.run s xs = .ok r) :
    P s xs r := by
  refine M.run_induction (P := fun s xs result => ∀ r, result = .ok r → P s xs r)
    ?_ ?_ ?_ s xs r h
  · intro s xs hw r hr
    cases hr
    exact hwait s xs hw
  · intro s xs e _ r hr
    cases hr
  · intro s xs s' out rest hpull ih r hr
    cases hrun : M.run s' rest with
    | error e =>
      rw [hrun] at hr
      cases hr
    | ok r' =>
      rw [hrun] at hr
      cases hr
      exact hemit s xs s' out rest r' hpull (ih r' hrun)

/-- What a run leaves is what the scanner waits on. -/
theorem run_settled {s : σ} {xs : List α} {r : Scanned σ β α} (h : M.run s xs = .ok r) :
    M.pull r.state r.rest = .wait :=
  M.run_ok_induction (P := fun _ _ r => M.pull r.state r.rest = .wait)
    (fun _ _ hwait => hwait) (fun _ _ _ _ _ _ _ ih => ih) h

/-- What is emitted stands for what was taken off, and nothing is lost. -/
theorem run_conserves {raw : β → List α}
    (hraw : ∀ s xs s' out rest, M.pull s xs = .emit s' out rest → out.flatMap raw ++ rest = xs)
    {s : σ} {xs : List α} {r : Scanned σ β α} (h : M.run s xs = .ok r) :
    r.out.flatMap raw ++ r.rest = xs := by
  refine M.run_ok_induction (P := fun _ xs r => r.out.flatMap raw ++ r.rest = xs) ?_ ?_ h
  · intro s xs _
    rfl
  · intro s xs s' out rest r hpull ih
    rw [← hraw s xs s' out rest hpull, ← ih]
    simp

/-- What holds of everything that is emitted in one step holds of everything. -/
theorem run_forall {Q : β → Prop}
    (hQ : ∀ s xs s' out rest, M.pull s xs = .emit s' out rest → ∀ b ∈ out, Q b)
    {s : σ} {xs : List α} {r : Scanned σ β α} (h : M.run s xs = .ok r) : ∀ b ∈ r.out, Q b := by
  refine M.run_ok_induction (P := fun _ _ r => ∀ b ∈ r.out, Q b) ?_ ?_ h
  · intro s xs _ b hb
    cases hb
  · intro s xs s' out rest r hpull ih b hb
    rcases mem_append.mp hb with hout | hrest
    · exact hQ s xs s' out rest hpull b hout
    · exact ih b hrest

/-- Feed the fragments one after the other. -/
def feeds : σ → List α → List (List α) → Except ε (Scanned σ β α)
  | s, rest, [] => .ok ⟨s, [], rest⟩
  | s, rest, xs :: xss =>
    (M.run s (rest ++ xs)).bind fun r =>
      (feeds r.state r.rest xss).map (Scanned.after r.out)

/-- **The fragments do not matter**, only what they are together. -/
theorem feeds_eq {s : σ} {rest : List α} (h : M.pull s rest = .wait) (xss : List (List α)) :
    M.feeds s rest xss = M.run s (rest ++ xss.flatten) := by
  induction xss generalizing s rest with
  | nil =>
    rw [flatten_nil, List.append_nil, M.run_wait h]
    rfl
  | cons xs xss ih =>
    rw [flatten_cons, ← List.append_assoc, M.run_append, feeds]
    cases hrun : M.run s (rest ++ xs) with
    | error e => rfl
    | ok r =>
      show Except.map _ _ = Except.map _ _
      rw [ih (M.run_settled hrun)]

/-- Where the scanner passes element after element on, a run may do so at once. -/
theorem run_pass {s : σ} {xs : List α} {f : α → List β} {n : Nat} (hn : n ≤ xs.length)
    (h : ∀ i < n, ∀ x rest, xs.drop i = x :: rest → M.pull s (x :: rest) = .emit s (f x) rest) :
    M.run s xs = (M.run s (xs.drop n)).map (Scanned.after ((xs.take n).flatMap f)) := by
  induction n generalizing xs with
  | zero =>
    rw [drop_zero, take_zero, flatMap_nil]
    cases M.run s xs <;> rfl
  | succ n ih =>
    cases xs with
    | nil => simp at hn
    | cons x rest =>
      rw [M.run_emit (h 0 (Nat.succ_pos n) x rest rfl)]
      rw [ih (by simpa using hn) fun i hi y ys hy => h (i + 1) (by omega) y ys (by simpa using hy)]
      rw [drop_succ_cons, take_succ_cons, flatMap_cons]
      cases M.run s (rest.drop n) <;> simp [Except.map]

end Scanner

/-! ### Markers -/

section Markers

variable {α : Type u} [DecidableEq α]

/-- The first place of a marker, as `str.find` gives it. -/
def find (marker : List α) : List α → Option Nat
  | [] => if marker = [] then some 0 else none
  | x :: xs => if marker <+: x :: xs then some 0 else (find marker xs).map (· + 1)

/-- `str.find` from a position on. -/
def findFrom (marker xs : List α) (start : Nat) : Option Nat :=
  (find marker (xs.drop start)).map (start + ·)

/-- The longest proper beginning of one of the markers that the input ends with. -/
def heldWidth (markers : List (List α)) (xs : List α) : Nat :=
  (markers.flatMap fun marker =>
    (List.range' 1 (min xs.length (marker.length - 1))).filter fun width =>
      marker.take width <:+ xs).max?.getD 0

theorem find_some {marker xs : List α} {i : Nat} (h : find marker xs = some i) :
    marker <+: xs.drop i ∧ ∀ j < i, ¬marker <+: xs.drop j := by
  induction xs generalizing i with
  | nil =>
    simp only [find] at h
    split at h
    · rename_i hnil
      obtain rfl := Option.some.inj h
      rw [hnil]
      exact ⟨List.nil_prefix, fun j hj => absurd hj (Nat.not_lt_zero j)⟩
    · cases h
  | cons x xs ih =>
    simp only [find] at h
    split at h
    · rename_i hhere
      obtain rfl := Option.some.inj h
      exact ⟨hhere, fun j hj => absurd hj (Nat.not_lt_zero j)⟩
    · rename_i hhere
      obtain ⟨k, hk, rfl⟩ := Option.map_eq_some_iff.mp h
      obtain ⟨hfound, hfirst⟩ := ih hk
      refine ⟨hfound, fun j hj => ?_⟩
      cases j with
      | zero => exact hhere
      | succ j => exact hfirst j (by omega)

theorem find_none {marker xs : List α} (h : find marker xs = none) (j : Nat) :
    ¬marker <+: xs.drop j := by
  induction xs generalizing j with
  | nil =>
    simp only [find] at h
    split at h
    · cases h
    · rename_i hnil
      rw [drop_nil, prefix_nil]
      exact hnil
  | cons x xs ih =>
    simp only [find] at h
    split at h
    · cases h
    · rename_i hhere
      cases j with
      | zero => exact hhere
      | succ j => exact ih (Option.map_eq_none_iff.mp h) j

theorem find_lt {marker xs : List α} {i : Nat} (hne : marker ≠ []) (h : find marker xs = some i) :
    i < xs.length := by
  have hlen := (find_some h).1.length_le
  have hpos := length_pos_of_ne_nil hne
  rw [length_drop] at hlen
  omega

/-- A marker that was found is found in the same place when more follows. -/
theorem find_append {marker xs : List α} {i : Nat} (h : find marker xs = some i) (ys : List α) :
    find marker (xs ++ ys) = some i := by
  induction xs generalizing i with
  | nil =>
    simp only [find] at h
    split at h
    · rename_i hnil
      cases h
      rw [hnil, List.nil_append]
      cases ys with
      | nil => rfl
      | cons y ys => exact if_pos List.nil_prefix
    · cases h
  | cons x xs ih =>
    rw [cons_append]
    simp only [find] at h ⊢
    split at h
    · rename_i hhere
      have hmore : marker <+: x :: (xs ++ ys) := hhere.trans (prefix_append (x :: xs) ys)
      rw [if_pos hmore]
      exact h
    · rename_i hhere
      obtain ⟨k, hk, rfl⟩ := Option.map_eq_some_iff.mp h
      have hlen := (find_some hk).1.length_le
      rw [length_drop] at hlen
      rw [if_neg, ih hk, Option.map_some]
      intro hpre
      refine hhere (prefix_of_prefix_length_le hpre (prefix_append (x :: xs) ys) ?_)
      rw [length_cons]
      omega

theorem findFrom_append {marker xs : List α} {start i : Nat} (hne : marker ≠ [])
    (h : findFrom marker xs start = some i) (ys : List α) :
    findFrom marker (xs ++ ys) start = some i := by
  obtain ⟨k, hk, rfl⟩ := Option.map_eq_some_iff.mp h
  have hlt := find_lt hne hk
  rw [length_drop] at hlt
  rw [findFrom, drop_append_of_le_length (by omega), find_append hk]
  rfl

omit [DecidableEq α] in
/-- A marker that is not at the head of an input, nor begun there, is not there later. -/
theorem not_prefix_append {marker xs : List α} (h : ¬marker <+: xs) (h' : ¬xs <+: marker)
    (ys : List α) : ¬marker <+: xs ++ ys := by
  intro hpre
  rcases List.prefix_or_prefix_of_prefix hpre (prefix_append xs ys) with hm | hx
  · exact h hm
  · exact h' hx

omit [DecidableEq α] in
/-- In front of a marker nothing is the beginning of it. -/
theorem not_prefix_before {marker xs : List α} {i j : Nat} (hne : marker ≠ [])
    (hi : marker <+: xs.drop i) (hj : j < i) : ¬xs.drop j <+: marker := by
  intro hpre
  have hlen := hi.length_le
  have hlen' := hpre.length_le
  have hpos := length_pos_of_ne_nil hne
  rw [length_drop] at hlen hlen'
  omega

/-- The widths that `heldWidth` chooses from. -/
theorem mem_heldWidths {markers : List (List α)} {xs : List α} {width : Nat} :
    (width ∈ markers.flatMap fun marker =>
      (List.range' 1 (min xs.length (marker.length - 1))).filter fun width =>
        marker.take width <:+ xs) ↔
      ∃ marker ∈ markers, (1 ≤ width ∧ width ≤ xs.length ∧ width + 1 ≤ marker.length) ∧
        marker.take width <:+ xs := by
  simp only [mem_flatMap, mem_filter, mem_range'_1, decide_eq_true_eq]
  refine exists_congr fun marker => and_congr_right fun _ => and_congr_left fun _ => ?_
  omega

/-- What `heldWidth` leaves in front is no beginning of a marker at any place, and what it holds
    back is one. -/
theorem heldWidth_spec {markers : List (List α)} {xs : List α}
    (hnone : ∀ marker ∈ markers, ∀ j, ¬marker <+: xs.drop j) :
    heldWidth markers xs ≤ xs.length ∧ (heldWidth markers xs ≠ 0 →
        ∃ marker ∈ markers, xs.drop (xs.length - heldWidth markers xs) <+: marker) ∧
      ∀ j < xs.length - heldWidth markers xs, ∀ marker ∈ markers, ¬xs.drop j <+: marker := by
  have hmax : ∀ marker ∈ markers, ∀ j < xs.length, xs.drop j <+: marker →
      xs.length - j ∈ markers.flatMap fun marker =>
        (List.range' 1 (min xs.length (marker.length - 1))).filter fun width =>
          marker.take width <:+ xs := by
    intro marker hmarker j hj hpre
    have hlen : (xs.drop j).length = xs.length - j := length_drop
    have htake : marker.take (xs.length - j) = xs.drop j := by
      rw [← hlen]
      exact (prefix_iff_eq_take.mp hpre).symm
    have hshort : xs.length - j ≠ marker.length := by
      intro heq
      rw [heq, take_length] at htake
      exact hnone marker hmarker j (htake ▸ prefix_rfl)
    have hle := hpre.length_le
    refine mem_heldWidths.mpr ⟨marker, hmarker, ?_, htake ▸ drop_suffix j xs⟩
    omega
  unfold heldWidth
  cases hw : (markers.flatMap fun marker =>
      (List.range' 1 (min xs.length (marker.length - 1))).filter fun width =>
        marker.take width <:+ xs).max? with
  | none =>
    rw [max?_eq_none_iff] at hw
    refine ⟨Nat.zero_le _, fun h => absurd rfl h, ?_⟩
    intro j hj marker hmarker hpre
    have hmem := hmax marker hmarker j (by simpa using hj) hpre
    rw [hw] at hmem
    cases hmem
  | some width =>
    obtain ⟨hmem, hle⟩ := max?_eq_some_iff.mp hw
    obtain ⟨marker, hmarker, hwidth, hsuffix⟩ := mem_heldWidths.mp hmem
    rw [Option.getD_some]
    refine ⟨hwidth.2.1, fun _ => ⟨marker, hmarker, ?_⟩, ?_⟩
    · have hlen : (marker.take width).length = width := by
        rw [length_take]
        omega
      have hdrop := suffix_iff_eq_drop.mp hsuffix
      rw [hlen] at hdrop
      rw [← hdrop]
      exact List.take_prefix width marker
    · intro j hj marker' hmarker' hpre
      have hmem' := hle _ (hmax marker' hmarker' j (by omega) hpre)
      omega

theorem heldWidth_one {marker xs : List α} (hnone : ∀ j, ¬marker <+: xs.drop j) :
    xs.drop (xs.length - heldWidth [marker] xs) <+: marker ∧
      ∀ j < xs.length - heldWidth [marker] xs, ¬xs.drop j <+: marker := by
  have hnone' : ∀ m ∈ [marker], ∀ j, ¬m <+: xs.drop j := by simpa using hnone
  obtain ⟨-, hheld, hfree⟩ := heldWidth_spec hnone'
  refine ⟨?_, fun j hj => hfree j hj marker mem_cons_self⟩
  by_cases hzero : heldWidth [marker] xs = 0
  · rw [hzero, Nat.sub_zero, drop_length]
    exact List.nil_prefix
  · obtain ⟨m, hmem, hpre⟩ := hheld hzero
    rwa [mem_singleton.mp hmem] at hpre

end Markers

end TyloQuant.Lib
