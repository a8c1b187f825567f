import Mathlib.Algebra.GroupWithZero.Nat
import Mathlib.Algebra.Order.BigOperators.Group.List
import Mathlib.Algebra.Order.Group.Int
import Mathlib.Algebra.Ring.Int.Defs
import Mathlib.Data.List.Nodup
import Mathlib.Data.List.Pairwise
import Mathlib.Logic.Function.Basic

/-!
# Shares of a budget

A budget is shared among items, each of which has a key and a share.  Here are the sum of the
shares when one of them changes, and how high the sum can rise while changes are made one after
another: no higher than at the ends, when what shrinks is changed before what grows.
-/

namespace TyloQuant.Lib

open List

universe u v

variable {α : Type u} {κ : Type v} [DecidableEq κ] {key : α → κ} {xs ys : List α}
  {shares : κ → Int}

/-- The sum of the shares of some items. -/
def shareSum (key : α → κ) (shares : κ → Int) (xs : List α) : Int :=
  (xs.map fun x => shares (key x)).sum

/-! ### One share -/

omit [DecidableEq κ] in
theorem shareSum_congr {shares' : κ → Int} (h : ∀ x ∈ xs, shares (key x) = shares' (key x)) :
    shareSum key shares xs = shareSum key shares' xs :=
  congrArg List.sum (map_congr_left h)

variable {x : α}

theorem shareSum_update (hkeys : (xs.map key).Nodup) (hx : x ∈ xs) (value : Int) :
    shareSum key (Function.update shares (key x) value) xs =
      shareSum key shares xs - shares (key x) + value := by
  induction xs with
  | nil => cases hx
  | cons y ys ih =>
    rw [map_cons, nodup_cons] at hkeys
    simp only [shareSum, map_cons, sum_cons]
    change _ + shareSum key _ ys = shares (key y) + shareSum key shares ys - _ + _
    by_cases hy : key y = key x
    · have hrest : shareSum key (Function.update shares (key x) value) ys =
          shareSum key shares ys := shareSum_congr fun z hz => by
        have hne : key z ≠ key x := fun heq =>
          hkeys.1 (mem_map.mpr ⟨z, hz, heq.trans hy.symm⟩)
        rw [Function.update_of_ne hne]
      rw [hrest, hy, Function.update_self]
      omega
    · have hmem : x ∈ ys := by
        rcases mem_cons.mp hx with rfl | hmem
        · exact absurd rfl hy
        · exact hmem
      rw [ih hkeys.2 hmem, Function.update_of_ne hy]
      omega

/-! ### Changes one after another -/

/-- What has been added up after each of some changes, from none of them on. -/
def PrefixBound (deltas : List Int) (bound : Int) : Prop := ∀ k, (deltas.take k).sum ≤ bound

variable {first second : List Int} {bound : Int}

theorem prefixBound_append :
    PrefixBound (first ++ second) bound ↔
      PrefixBound first bound ∧ PrefixBound second (bound - first.sum) := by
  constructor
  · intro h
    refine ⟨fun k => ?_, fun k => ?_⟩
    · have hk := h (min k first.length)
      rw [take_append_of_le_length (Nat.min_le_right _ _), ← take_take,
        take_length] at hk
      exact hk
    · have hk := h (first.length + k)
      rw [take_length_add_append, sum_append] at hk
      omega
  · rintro ⟨hfirst, hsecond⟩ k
    rw [take_append, sum_append]
    by_cases hk : k ≤ first.length
    · rw [Nat.sub_eq_zero_of_le hk]
      simpa using hfirst k
    · have hle := hsecond (k - first.length)
      rw [take_of_length_le (by omega)]
      omega

variable {deltas : List Int}

/-- Changes that shrink rise highest before the first. -/
theorem prefixBound_shrinking (h : ∀ delta ∈ deltas, delta ≤ 0) :
    PrefixBound deltas bound ↔ 0 ≤ bound := by
  constructor
  · intro hbound
    simpa using hbound 0
  · intro hbound k
    have hsum : 0 ≤ ((deltas.take k).map Neg.neg).sum := sum_nonneg fun delta hdelta => by
      obtain ⟨delta, hmem, rfl⟩ := mem_map.mp hdelta
      exact Int.neg_nonneg_of_nonpos (h delta (mem_of_mem_take hmem))
    have hneg : ((deltas.take k).map Neg.neg).sum = -(deltas.take k).sum := (sum_neg _).symm
    omega

/-- Changes that grow rise highest after the last. -/
theorem prefixBound_growing (h : ∀ delta ∈ deltas, 0 ≤ delta) :
    PrefixBound deltas bound ↔ deltas.sum ≤ bound := by
  constructor
  · intro hbound
    have hall := hbound deltas.length
    rwa [take_length] at hall
  · intro hbound k
    have hsum : 0 ≤ (deltas.drop k).sum :=
      sum_nonneg fun delta hdelta => h delta (mem_of_mem_drop hdelta)
    have hsplit : (deltas.take k).sum + (deltas.drop k).sum = deltas.sum := by
      rw [← sum_append, take_append_drop]
    omega

/-- Shrinking first and growing then, the sum is bounded by its ends. -/
theorem prefixBound_valley (hfirst : ∀ delta ∈ first, delta ≤ 0)
    (hsecond : ∀ delta ∈ second, 0 ≤ delta) :
    PrefixBound (first ++ second) (max 0 (first ++ second).sum) := by
  rw [prefixBound_append, prefixBound_shrinking hfirst, prefixBound_growing hsecond,
    sum_append]
  omega

/-- Where changes shrink, grow, shrink and grow again, the ends bound the sum unless it is higher in
between than at both. -/
theorem prefixBound_two_valleys {a b c d : List Int} (ha : ∀ delta ∈ a, delta ≤ 0)
    (hb : ∀ delta ∈ b, 0 ≤ delta) (hc : ∀ delta ∈ c, delta ≤ 0) (hd : ∀ delta ∈ d, 0 ≤ delta) :
    PrefixBound ((a ++ b) ++ (c ++ d)) (max 0 ((a ++ b) ++ (c ++ d)).sum) ↔
      a.sum + b.sum ≤ 0 ∨ 0 ≤ c.sum + d.sum := by
  rw [prefixBound_append, prefixBound_append, prefixBound_append, prefixBound_shrinking ha,
    prefixBound_growing hb, prefixBound_shrinking hc, prefixBound_growing hd, sum_append,
    sum_append, sum_append]
  omega

/-! ### Sorted by a key -/

omit [DecidableEq κ] in
/-- A list that is sorted by a flag has what lacks it first. -/
theorem filter_of_pairwise {flag : α → Bool} (h : xs.Pairwise fun x y => flag x ≤ flag y) :
    xs = xs.filter (fun x => !flag x) ++ xs.filter flag := by
  induction xs with
  | nil => rfl
  | cons x xs ih =>
    rw [pairwise_cons] at h
    cases hflag : flag x with
    | false =>
      rw [filter_cons_of_pos (by simp [hflag]), filter_cons_of_neg (by simp [hflag]),
        cons_append, ← ih h.2]
    | true =>
      have hall : ∀ y ∈ xs, flag y = true := fun y hy => by
        have hle := h.1 y hy
        rw [hflag] at hle
        exact Bool.eq_true_of_true_le hle
      have hnone : xs.filter (fun y => !flag y) = [] :=
        filter_eq_nil_iff.mpr fun y hy => by simp [hall y hy]
      have hself : xs.filter flag = xs := filter_eq_self.mpr hall
      rw [filter_cons_of_neg (by simp [hflag]), filter_cons_of_pos hflag, hnone, hself,
        List.nil_append]

variable {β : Type v} [LinearOrder β] {flag : α → Bool} {rank : α → β}

/-- What lacks the flag comes first, and each part is in the order of its ranks. -/
def flaggedLe (flag : α → Bool) (rank : α → β) (a b : α) : Bool :=
  if flag a == flag b then rank a ≤ rank b else flag b

omit [DecidableEq κ] in
theorem flaggedLe_sorted (xs : List α) :
    (xs.mergeSort (flaggedLe flag rank)).Pairwise fun a b => flaggedLe flag rank a b = true := by
  refine pairwise_mergeSort (fun a b c hab hbc => ?_) (fun a b => ?_) xs
  · unfold flaggedLe at hab hbc ⊢
    cases hfa : flag a <;> cases hfb : flag b <;> cases hfc : flag c <;> simp_all
    · exact hab.trans hbc
    · exact hab.trans hbc
  · unfold flaggedLe
    cases flag a <;> cases flag b <;> simp
    · exact le_total _ _
    · exact le_total _ _

omit [DecidableEq κ] in
/-- The parts of a list that is sorted so, each in its order. -/
theorem flaggedLe_parts (h : xs.Pairwise fun a b => flaggedLe flag rank a b = true) :
    xs = xs.filter (fun x => !flag x) ++ xs.filter flag ∧
      (xs.filter fun x => !flag x).Pairwise (fun a b => rank a ≤ rank b) ∧
      (xs.filter flag).Pairwise (fun a b => rank a ≤ rank b) := by
  refine ⟨filter_of_pairwise (h.imp fun {a b} hle => ?_), ?_, ?_⟩
  · unfold flaggedLe at hle
    cases hfa : flag a <;> cases hfb : flag b <;> simp_all
  · refine pairwise_filter.mpr (h.imp fun {a b} hle ha hb => ?_)
    unfold flaggedLe at hle
    simp_all
  · refine pairwise_filter.mpr (h.imp fun {a b} hle ha hb => ?_)
    unfold flaggedLe at hle
    simp_all

/-! ### Calls that may fail -/

variable {σ : Type u} {ok : α → Bool} {set back : σ → α → σ} {s t : σ}

/-- The states of a run that makes changes until one fails. -/
def oneByOne (ok : α → Bool) (set : σ → α → σ) : List α → σ → List σ
  | [], s => [s]
  | x :: xs, s => if ok x then s :: oneByOne ok set xs (set s x) else [s]

/-- The states while changes are taken back, the last first. -/
def takenBack (back : σ → α → σ) : List α → σ → List σ
  | [], s => [s]
  | x :: xs, s => s :: takenBack back xs (back s x)

/-- The states of a run that takes its changes back when one fails. -/
def allOrBack (ok : α → Bool) (set back : σ → α → σ) : List α → List α → σ → List σ
  | _, [], s => [s]
  | applied, x :: xs, s =>
    if ok x then s :: allOrBack ok set back (x :: applied) xs (set s x)
    else takenBack back applied s

section

omit [DecidableEq κ]

theorem mem_oneByOne (h : t ∈ oneByOne ok set xs s) : ∃ k, t = (xs.take k).foldl set s := by
  induction xs generalizing s with
  | nil => exact ⟨0, mem_singleton.mp h⟩
  | cons x xs ih =>
    rw [oneByOne] at h
    split at h
    · rcases mem_cons.mp h with rfl | h
      · exact ⟨0, rfl⟩
      · obtain ⟨k, rfl⟩ := ih h
        exact ⟨k + 1, rfl⟩
    · exact ⟨0, mem_singleton.mp h⟩

theorem foldl_mem_oneByOne (k : Nat) :
    (xs.take k).foldl set s ∈ oneByOne (fun _ => true) set xs s := by
  induction xs generalizing s k with
  | nil => simp [oneByOne]
  | cons x xs ih =>
    rw [oneByOne, if_pos rfl]
    cases k with
    | zero => exact mem_cons_self
    | succ k => exact mem_cons_of_mem _ (ih k)

theorem mem_takenBack {applied : List α} (hback : ∀ before x after, applied = after ++ x :: before →
      back ((x :: before).reverse.foldl set s) x = before.reverse.foldl set s)
    (h : t ∈ takenBack back applied (applied.reverse.foldl set s)) :
    ∃ k ≤ applied.length, t = (applied.reverse.take k).foldl set s := by
  induction applied with
  | nil => exact ⟨0, Nat.le_refl 0, mem_singleton.mp h⟩
  | cons x applied ih =>
    rw [takenBack] at h
    rcases mem_cons.mp h with rfl | h
    · exact ⟨(x :: applied).length, Nat.le_refl _, by
        rw [← length_reverse, take_length]⟩
    · rw [hback applied x [] rfl] at h
      obtain ⟨k, hk, rfl⟩ := ih (fun before y after heq =>
        hback before y (x :: after) (by rw [heq, cons_append])) h
      refine ⟨k, Nat.le_succ_of_le hk, ?_⟩
      rw [reverse_cons, take_append_of_le_length (by simpa using hk)]

theorem mem_allOrBack {applied : List α} (hback : ∀ before x after,
      applied.reverse ++ xs = before ++ x :: after →
      back ((before ++ [x]).foldl set s) x = before.foldl set s)
    (h : t ∈ allOrBack ok set back applied xs (applied.reverse.foldl set s)) :
    ∃ k, t = ((applied.reverse ++ xs).take k).foldl set s := by
  induction xs generalizing applied with
  | nil =>
    refine ⟨(applied.reverse ++ []).length, ?_⟩
    rw [take_length, List.append_nil]
    exact mem_singleton.mp h
  | cons x xs ih =>
    have hsame : (x :: applied).reverse ++ xs = applied.reverse ++ x :: xs := by simp
    rw [allOrBack] at h
    split at h
    · rcases mem_cons.mp h with rfl | h
      · refine ⟨applied.length, ?_⟩
        rw [take_append_of_le_length (by simp), ← length_reverse, take_length]
      · have hset : set (applied.reverse.foldl set s) x = (x :: applied).reverse.foldl set s := by
          simp
        rw [hset] at h
        obtain ⟨k, rfl⟩ := ih (fun before y after heq =>
          hback before y after (hsame.symm.trans heq)) h
        exact ⟨k, by rw [hsame]⟩
    · obtain ⟨k, hk, rfl⟩ := mem_takenBack (fun before y after heq => by
        have happlied : applied.reverse ++ x :: xs =
            before.reverse ++ y :: (after.reverse ++ x :: xs) := by
          rw [heq]
          simp
        rw [reverse_cons]
        exact hback _ y _ happlied) h
      exact ⟨k, by rw [take_append_of_le_length (by simpa using hk)]⟩

end

/-! ### Sums along the way -/

/-- The shares after a change of one of them. -/
def changeShare (key : α → κ) (new : α → Int) (shares : κ → Int) (x : α) : κ → Int :=
  Function.update shares (key x) (new x)

variable {new : α → Int} {cs : List α}

theorem foldl_changeShare_of_notMem {k : κ} (h : k ∉ cs.map key) :
    cs.foldl (changeShare key new) shares k = shares k := by
  induction cs generalizing shares with
  | nil => rfl
  | cons c cs ih =>
    rw [map_cons, mem_cons, not_or] at h
    rw [foldl_cons, ih h.2, changeShare, Function.update_of_ne h.1]

theorem shareSum_foldl (hkeys : (xs.map key).Nodup) (hcs : ∀ c ∈ cs, c ∈ xs)
    (hnodup : (cs.map key).Nodup) :
    shareSum key (cs.foldl (changeShare key new) shares) xs =
      shareSum key shares xs + (cs.map fun c => new c - shares (key c)).sum := by
  induction cs generalizing shares with
  | nil => simp
  | cons c cs ih =>
    rw [map_cons, nodup_cons] at hnodup
    have hrest : (cs.map fun c' => new c' - changeShare key new shares c (key c')).sum =
        (cs.map fun c' => new c' - shares (key c')).sum := by
      refine congrArg List.sum (map_congr_left fun c' hc' => ?_)
      have hne : key c' ≠ key c := fun heq => hnodup.1 (mem_map.mpr ⟨c', hc', heq⟩)
      rw [changeShare, Function.update_of_ne hne]
    rw [foldl_cons, ih (fun c' hc' => hcs c' (mem_cons_of_mem _ hc')) hnodup.2, hrest,
      changeShare, shareSum_update hkeys (hcs c mem_cons_self), map_cons, sum_cons]
    omega

/-- A change is taken back by the share before it. -/
theorem changeShare_back {old : α → Int} (hnodup : (cs.map key).Nodup)
    (hold : ∀ c ∈ cs, shares (key c) = old c) {before after : List α}
    (hcs : cs = before ++ x :: after) :
    changeShare key old ((before ++ [x]).foldl (changeShare key new) shares) x =
      before.foldl (changeShare key new) shares := by
  have hfresh : key x ∉ before.map key := by
    rw [hcs, map_append, map_cons] at hnodup
    exact fun hmem => (nodup_append.mp hnodup).2.2 _ hmem _ mem_cons_self rfl
  have hshare : before.foldl (changeShare key new) shares (key x) = old x :=
    (foldl_changeShare_of_notMem hfresh).trans (hold x (hcs ▸ by simp))
  rw [foldl_append, foldl_cons, foldl_nil, changeShare, changeShare,
    Function.update_idem, Function.update_eq_self_iff]
  exact hshare.symm

theorem foldl_changeShare_of_mem (hnodup : (cs.map key).Nodup) {c : α} (hc : c ∈ cs) :
    cs.foldl (changeShare key new) shares (key c) = new c := by
  induction cs generalizing shares with
  | nil => cases hc
  | cons c' cs ih =>
    rw [map_cons, nodup_cons] at hnodup
    rw [foldl_cons]
    rcases mem_cons.mp hc with rfl | hc
    · rw [foldl_changeShare_of_notMem hnodup.1, changeShare, Function.update_self]
    · exact ih hnodup.2 hc

/-- After all changes every share is its new one, when what is not changed has it already. -/
theorem shareSum_foldl_all (hkeys : (xs.map key).Nodup) (hcs : ∀ c ∈ cs, c ∈ xs)
    (hnodup : (cs.map key).Nodup) (hall : ∀ x ∈ xs, x ∉ cs → new x = shares (key x)) :
    shareSum key (cs.foldl (changeShare key new) shares) xs = (xs.map new).sum := by
  refine congrArg List.sum (map_congr_left fun x hx => ?_)
  by_cases hmem : x ∈ cs
  · exact foldl_changeShare_of_mem hnodup hmem
  · have hkey : key x ∉ cs.map key := fun hkey => by
      obtain ⟨c, hc, heq⟩ := mem_map.mp hkey
      exact hmem (inj_on_of_nodup_map hkeys (hcs c hc) hx heq ▸ hc)
    rw [foldl_changeShare_of_notMem hkey, hall x hx hmem]

/-- The sum is bounded all along when what has been added up is. -/
theorem shareSum_le_iff (hkeys : (xs.map key).Nodup) (hcs : ∀ c ∈ cs, c ∈ xs)
    (hnodup : (cs.map key).Nodup) :
    (∀ k, shareSum key ((cs.take k).foldl (changeShare key new) shares) xs ≤ bound) ↔
      PrefixBound (cs.map fun c => new c - shares (key c)) (bound - shareSum key shares xs) := by
  refine forall_congr' fun k => ?_
  rw [shareSum_foldl hkeys (fun c hc => hcs c (mem_of_mem_take hc))
    (hnodup.sublist ((take_sublist k cs).map key)), map_take]
  omega

end TyloQuant.Lib
