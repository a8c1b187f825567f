import Mathlib.Data.List.Sort
import Mathlib.Order.WithBot
import TyloQuant.Lib.Loops
import TyloQuant.Lib.TopK

/-!
# The index of an offloaded cache

`MlxQsaIndexOffload` holds one pooled key for each complete block of rows.  `select` scores the
blocks against every query token, a chunk of keys at a time, and keeps the best: blocks that the
token does not see yet count as the worst.  Where a token sees no more blocks than are kept, the
first ones stand in for what the selection kept.

The tensors are lists here, the score of a token and a key is a parameter, and so is the library's
`argpartition`, of which the code needs what `Partitions` says.
-/

namespace TyloQuant.QsaOffload

open Lib List

universe u v

/-- `read_rows` of rows that are there. -/
def readRows {ρ : Type u} (rows : List ρ) (start count : Nat) : Except String (List ρ) :=
  if rows.length < start ∨ rows.length - start < count then
    .error "QSA KV read exceeds its snapshot"
  else
    .ok (part rows start count)

variable {start : Nat}

theorem readRows_ok {ρ : Type u} {rows : List ρ} {count : Nat} (h : start + count ≤ rows.length) :
    readRows rows start count = .ok (part rows start count) :=
  if_neg (by omega)

/-- What is documented of `argpartition`: it gives the indices of the values in an order in which
    those of the `kth + 1` smallest come first. -/
structure Partitions {ν : Type v} [LE ν] (argpartition : List ν → Nat → List Nat) : Prop where
  perm : ∀ xs kth, kth < xs.length → (argpartition xs kth).Perm (List.range xs.length)
  smallest : ∀ xs kth, kth < xs.length → ∀ a ∈ (argpartition xs kth).take (kth + 1),
    ∀ b ∈ (argpartition xs kth).drop (kth + 1), ∀ x ∈ xs[a]?, ∀ y ∈ xs[b]?, x ≤ y

/-- The offloaded index, with the size of the store's buffer.  A store whose buffer does not hold
    two rows is not configured. -/
structure MlxQsaIndexOffload (ρ : Type) where
  rows : List ρ
  rowBytes : Nat
  bufferBytes : Nat
  staged : rowBytes ≤ bufferBytes / 2

/-- `take_along_axis` in one row. -/
def takeAlong {α : Type u} (xs : List α) (indices : List Nat) : List α := indices.filterMap (xs[·]?)

section Select

variable {α κ ρ : Type}

/-- `where(ids < visible, scores, -inf)` in one row. -/
def masked (visible : Nat) (ids : List Nat) (scores : List α) : List (WithBot α) :=
  List.zipWith (fun (id : Nat) (score : α) => if id < visible then ↑score else ⊥) ids scores

/-- The row's `count` best: nothing is left out while there are no more. -/
def keepBest (argpartition : List (WithBot α)ᵒᵈ → Nat → List Nat) (count : Nat)
    (row : List (WithBot α) × List Nat) : List (WithBot α) × List Nat :=
  let keep := min count row.1.length
  if keep < row.1.length then
    let selected := (argpartition (row.1.map OrderDual.toDual) (keep - 1)).take keep
    (takeAlong row.1 selected, takeAlong row.2 selected)
  else
    row

/-- What a token's row becomes with the next keys. -/
def extendRow (argpartition : List (WithBot α)ᵒᵈ → Nat → List Nat) (score : κ → ρ → α) (count : Nat)
    (start : Nat) (keys : List ρ) (token : κ × Nat) (row : List (WithBot α) × List Nat) :
    List (WithBot α) × List Nat :=
  let ids := List.range' start keys.length
  keepBest argpartition count
    (row.1 ++ masked token.2 ids (keys.map (score token.1)), row.2 ++ ids)

namespace MlxQsaIndexOffload

variable (x : MlxQsaIndexOffload ρ)

/-- `view`. -/
def view (start count : Nat) : Except String (List ρ) :=
  if count = 0 then
    .error "invalid offloaded QSA index range"
  else if x.bufferBytes / 2 < count * x.rowBytes then
    .error "offloaded QSA index range exceeds read buffer"
  else
    readRows x.rows start count

def keyChunk : Nat := max 1 (min x.rows.length (x.bufferBytes / 8 / x.rowBytes))

/-- The rows of a chunk of tokens go through the chunks of keys together; they are empty where the
    source has no `scores` yet. -/
def selectChunk (argpartition : List (WithBot α)ᵒᵈ → Nat → List Nat) (score : κ → ρ → α)
    (count : Nat) (tokens : List (κ × Nat)) : Except String (List (List Nat)) := do
  let rows ← (pieces x.keyChunk x.rows.length).foldlM
    (fun rows (p : Nat × Nat) => do
      let keys ← x.view p.1 p.2
      pure (List.zipWith (extendRow argpartition score count p.1 keys) tokens rows))
    (tokens.map fun _ => ([], []))
  pure (List.zipWith
    (fun token row => (if token.2 ≤ count then List.range count else row.2).mergeSort (· ≤ ·))
    tokens rows)

/-- `select`. -/
def select (argpartition : List (WithBot α)ᵒᵈ → Nat → List Nat) (score : κ → ρ → α)
    (query : List κ) (offset ratio budget : Nat) : Except String (List (List Nat)) := do
  let complete := x.rows.length
  let count := min complete (budget / ratio)
  if count = 0 then
    throw "invalid offloaded QSA index selection"
  let results ← (pieces 8 query.length).mapM fun (token, take) =>
    let queries := part query token take
    let visible := (List.range' (offset + token + 1) take).map (· / ratio)
    x.selectChunk argpartition score count (queries.zip visible)
  pure results.flatten

end MlxQsaIndexOffload

end Select

/-! ### What one row keeps -/

variable {kept : List Nat}

section Row

variable {α κ ρ : Type} {argpartition : List (WithBot α)ᵒᵈ → Nat → List Nat}
  {count : Nat}

theorem takeAlong_map {β : Type} {ids : List Nat} (f : Nat → β) (indices : List Nat) :
    takeAlong (ids.map f) indices = (takeAlong ids indices).map f := by
  rw [takeAlong, takeAlong, map_filterMap]
  simp

theorem mem_takeAlong {β : Type} {xs : List β} {indices : List Nat} {y : β} :
    y ∈ takeAlong xs indices ↔ ∃ i ∈ indices, xs[i]? = some y := mem_filterMap

theorem takeAlong_range {β : Type} (xs : List β) : takeAlong xs (List.range xs.length) = xs := by
  induction xs with
  | nil => rfl
  | cons x xs ih =>
    rw [length_cons, range_succ_eq_map, takeAlong, filterMap_cons,
      filterMap_map]
    exact congrArg (x :: ·) ih

variable (x : MlxQsaIndexOffload ρ) (score : κ → ρ → α) (token : κ × Nat)

/-- The score of a block for a token, as the selection sees it. -/
def blockScore (id : Nat) : WithBot α :=
  if id < token.2 then (x.rows[id]?.map fun key => (score token.1 key : WithBot α)).getD ⊥ else ⊥

theorem masked_part {length : Nat} (h : start + length ≤ x.rows.length) :
    masked token.2 (List.range' start length) ((part x.rows start length).map (score token.1)) =
      (List.range' start length).map (blockScore x score token) := by
  have hlength := length_part h
  refine ext_getElem (by simp [masked, hlength]) fun i hi _ => ?_
  have hi' : i < length := by simpa [masked, hlength] using hi
  have hget : x.rows[start + i]? = some (part x.rows start length)[i] := by
    simp [part, getElem?_eq_getElem (show start + i < x.rows.length by omega)]
  simp [masked, blockScore, hget]

/-- The row of a token after its chunks of keys. -/
def rowAfter (argpartition : List (WithBot α)ᵒᵈ → Nat → List Nat) (count : Nat)
    (row : List (WithBot α) × List Nat) (pieces : List (Nat × Nat)) :
    List (WithBot α) × List Nat :=
  pieces.foldl (fun row p =>
    extendRow argpartition score count p.1 (part x.rows p.1 p.2) token row) row

variable [LinearOrder α]

theorem keepBest_spec (val : Nat → WithBot α) (hpart : Partitions argpartition)
    (hcount : 0 < count) (ids : List Nat) :
    ∃ kept, keepBest argpartition count (ids.map val, ids) = (kept.map val, kept) ∧
      Best val count ids kept := by
  unfold keepBest
  simp only [length_map]
  split
  · rename_i hkeep
    have hlength : ((ids.map val).map OrderDual.toDual).length = ids.length := by simp
    generalize hvalues : (ids.map val).map OrderDual.toDual = values at *
    have hkth : min count ids.length - 1 < values.length := by omega
    have hperm := hpart.perm values _ hkth
    have hsmallest := hpart.smallest values _ hkth
    rw [show min count ids.length - 1 + 1 = min count ids.length by omega] at hsmallest
    generalize argpartition values (min count ids.length - 1) = order at *
    rw [hlength] at hperm
    refine ⟨_, Prod.ext (takeAlong_map val _) rfl,
      ⟨takeAlong ids (order.drop (min count ids.length)), ?_, fun x hx y hy => ?_⟩, ?_⟩
    · have hall := hperm.filterMap (ids[·]?)
      rw [← take_append_drop (min count ids.length) order, filterMap_append] at hall
      exact hall.trans (List.Perm.of_eq (takeAlong_range ids))
    · obtain ⟨i, hi, hx⟩ := mem_takeAlong.mp hx
      obtain ⟨j, hj, hy⟩ := mem_takeAlong.mp hy
      have hle := hsmallest i hi j hj (OrderDual.toDual (val x)) (by simp [← hvalues, hx])
        (OrderDual.toDual (val y)) (by simp [← hvalues, hy])
      exact hle
    · have hsome : ∀ i ∈ order.take (min count ids.length), (ids[i]?).isSome := fun i hi => by
        have hmem := hperm.mem_iff.mp (mem_of_mem_take hi)
        simpa using hmem
      have hfull := hperm.length_eq
      rw [List.length_range] at hfull
      rw [takeAlong, length_filterMap_eq_countP, countP_eq_length.mpr hsome,
        length_take]
      omega
  · exact ⟨ids, rfl, Best.self (by omega)⟩

/-- The running selection has kept the best of all blocks that it has gone over. -/
theorem rowAfter_spec (hpart : Partitions argpartition) (hcount : 0 < count)
    {pieces : List (Nat × Nat)} {seen : List Nat}
    (hrange : ∀ p ∈ pieces, p.1 + p.2 ≤ x.rows.length)
    (hnodup : (seen ++ pieces.flatMap fun p => List.range' p.1 p.2).Nodup)
    (hkept : Best (blockScore x score token) count seen kept) :
    ∃ kept', rowAfter x score token argpartition count
        (kept.map (blockScore x score token), kept) pieces =
        (kept'.map (blockScore x score token), kept') ∧
      Best (blockScore x score token) count
        (seen ++ pieces.flatMap fun p => List.range' p.1 p.2) kept' := by
  induction pieces generalizing seen kept with
  | nil => exact ⟨kept, rfl, by simpa using hkept⟩
  | cons p pieces ih =>
    have hp := hrange p mem_cons_self
    obtain ⟨kept', hkeep, hbest⟩ := keepBest_spec (blockScore x score token) hpart hcount
      (kept ++ List.range' p.1 p.2)
    rw [flatMap_cons, ← List.append_assoc] at hnodup ⊢
    have hnext := hkept.append hbest (nodup_append.mp hnodup).1
    have hstep : extendRow argpartition score count p.1 (part x.rows p.1 p.2) token
        (kept.map (blockScore x score token), kept) =
        (kept'.map (blockScore x score token), kept') := by
      unfold extendRow
      simp only
      rw [length_part hp, masked_part x score token hp, ← map_append]
      exact hkeep
    unfold rowAfter
    rw [foldl_cons, hstep]
    exact ih (fun p' hp' => hrange p' (mem_cons_of_mem _ hp')) hnodup hnext

end Row

/-! ### The selection -/

section Selection

variable {α κ ρ : Type} {argpartition : List (WithBot α)ᵒᵈ → Nat → List Nat}
  {x : MlxQsaIndexOffload ρ} {score : κ → ρ → α}

/-- What `select` gives for a token. -/
def selectRow (x : MlxQsaIndexOffload ρ) (argpartition : List (WithBot α)ᵒᵈ → Nat → List Nat)
    (score : κ → ρ → α) (count : Nat) (token : κ × Nat) : List Nat :=
  (if token.2 ≤ count then List.range count
    else (rowAfter x score token argpartition count ([], [])
      (pieces x.keyChunk x.rows.length)).2).mergeSort (· ≤ ·)

theorem keyChunk_pos : 0 < x.keyChunk := by
  unfold MlxQsaIndexOffload.keyChunk
  omega

/-- A chunk of keys fits the read buffer. -/
theorem view_ok {p : Nat × Nat} (hp : p ∈ pieces x.keyChunk x.rows.length) :
    x.view p.1 p.2 = .ok (part x.rows p.1 p.2) := by
  obtain ⟨hpos, hle, hend⟩ := of_mem_pieces keyChunk_pos hp
  have hbytes : p.2 * x.rowBytes ≤ x.bufferBytes / 2 := by
    unfold MlxQsaIndexOffload.keyChunk at hle
    have hdiv := Nat.div_mul_le_self (x.bufferBytes / 8) x.rowBytes
    have hstaged := x.staged
    rcases Nat.le_total p.2 1 with hone | hmore
    · rw [show p.2 = 1 by omega]
      omega
    · have hmul : p.2 * x.rowBytes ≤ max 1 (x.bufferBytes / 8 / x.rowBytes) * x.rowBytes :=
        Nat.mul_le_mul_right _ (by omega)
      rcases Nat.le_total 1 (x.bufferBytes / 8 / x.rowBytes) with hchunk | hchunk
      · rw [Nat.max_eq_right hchunk] at hmul
        omega
      · rw [Nat.max_eq_left hchunk] at hmul
        omega
  unfold MlxQsaIndexOffload.view
  rw [if_neg (by omega), if_neg (by omega), readRows_ok hend]

theorem foldlM_view {count : Nat} {tokens : List (κ × Nat)}
    {row : κ × Nat → List (WithBot α) × List Nat} {ps : List (Nat × Nat)}
    (hps : ∀ p ∈ ps, x.view p.1 p.2 = .ok (part x.rows p.1 p.2)) :
    ps.foldlM (fun rows (p : Nat × Nat) => do
        let keys ← x.view p.1 p.2
        pure (List.zipWith (extendRow argpartition score count p.1 keys) tokens rows))
      (tokens.map row) =
      .ok (tokens.map fun token => rowAfter x score token argpartition count (row token) ps) := by
  induction ps generalizing row with
  | nil => rfl
  | cons p ps ih =>
    rw [foldlM_cons, bind_of_ok (hps p mem_cons_self), zipWith_map_right,
      zipWith_self]
    exact ih fun p' hp' => hps p' (mem_cons_of_mem _ hp')

theorem selectChunk_eq (count : Nat) (tokens : List (κ × Nat)) :
    x.selectChunk argpartition score count tokens =
      .ok (tokens.map (selectRow x argpartition score count)) := by
  unfold MlxQsaIndexOffload.selectChunk
  rw [bind_of_ok (foldlM_view fun _ => view_ok), zipWith_map_right, zipWith_self]
  rfl

theorem part_zip {β γ : Type} (xs : List β) (ys : List γ) (start count : Nat) :
    part (xs.zip ys) start count = (part xs start count).zip (part ys start count) := by
  simp [part, List.zip, drop_zipWith, take_zipWith]

/-- `select` throws nothing else, and each token's row is its own. -/
theorem select_eq (query : List κ) (offset ratio budget : Nat)
    (hcount : 0 < min x.rows.length (budget / ratio)) :
    x.select argpartition score query offset ratio budget = .ok
      ((query.zip ((List.range' (offset + 1) query.length).map (· / ratio))).map
        (selectRow x argpartition score (min x.rows.length (budget / ratio)))) := by
  generalize hall : query.zip ((List.range' (offset + 1) query.length).map (· / ratio)) = all
  have hlength : query.length = all.length := by simp [← hall]
  have hpiece : ∀ p ∈ pieces 8 query.length, (part query p.1 p.2).zip
      ((List.range' (offset + p.1 + 1) p.2).map (· / ratio)) = part all p.1 p.2 := by
    intro p hp
    obtain ⟨-, -, hend⟩ := of_mem_pieces (by decide) hp
    rw [← hall, part_zip]
    congr 1
    rw [part, ← map_drop, ← map_take, drop_range',
      take_range'_of_length_ge (by omega)]
    congr 2
    omega
  have hresults := mapM_eq_ok.mpr (forall₂_map_right_iff.mpr
    (forall₂_same.mpr fun p (hp : p ∈ pieces 8 query.length) =>
      (congrArg (x.selectChunk argpartition score (min x.rows.length (budget / ratio)))
        (hpiece p hp)).trans (selectChunk_eq _ _)))
  unfold MlxQsaIndexOffload.select
  simp only [if_neg (Nat.ne_of_gt hcount)]
  refine (bind_of_ok hresults _).trans (congrArg Except.ok ?_)
  rw [← flatMap_def, ← map_flatMap, hlength, pieces_part (by decide)]

variable {q : κ} {b n : Nat}

theorem blockScore_eq (hb : b < n) (hn : n ≤ x.rows.length) :
    blockScore x score (q, n) b = (score q x.rows[b] : WithBot α) := by
  simp [blockScore, hb, getElem?_eq_getElem (show b < x.rows.length by omega)]

variable [LinearOrder α]

/-- When more blocks are visible than are kept, all that are kept are visible. -/
theorem Best.visible {count : Nat}
    (h : Best (blockScore x score (q, n)) count (List.range x.rows.length) kept)
    (hn : n ≤ x.rows.length) (hmore : count < n) (hb : b ∈ kept) : b < n := by
  by_contra hfar
  have hout : ∃ c < n, c ∉ kept := by
    by_contra hno
    push Not at hno
    have hsub : (List.range n).Subperm kept :=
      nodup_range.subperm fun c hc => hno c (mem_range.mp hc)
    have hlength := hsub.length_le
    have hmin := h.length
    rw [List.length_range] at hlength
    omega
  obtain ⟨c, hc, hout⟩ := hout
  have hle := h.le hb (mem_range.mpr (show c < x.rows.length by omega)) hout
  rw [blockScore_eq hc hn, blockScore, if_neg hfar, le_bot_iff] at hle
  exact WithBot.coe_ne_bot hle

/-- `blocks` are the best `k` of the first `n` blocks, in their order. -/
structure Chosen (score : ρ → α) (keys : List ρ) (k n : Nat) (blocks : List Nat) : Prop where
  sorted : blocks.Pairwise (· < ·)
  length : blocks.length = min k n
  visible : ∀ b ∈ blocks, b < n
  best : ∀ b ∈ blocks, ∀ c < n, c ∉ blocks → ∀ key ∈ keys[b]?, ∀ key' ∈ keys[c]?,
    score key' ≤ score key

/-- **What `select` gives.**  The blocks of a row are in their order, and those that the token sees
    are the best. -/
theorem selectRow_spec (hpart : Partitions argpartition) {count k : Nat}
    (hcount : count = min x.rows.length k) (hpos : 0 < count) (hn : n ≤ x.rows.length) :
    (selectRow x argpartition score count (q, n)).Pairwise (· < ·) ∧
      (selectRow x argpartition score count (q, n)).length = count ∧
      Chosen (score q) x.rows k n
        ((selectRow x argpartition score count (q, n)).filter (· < n)) := by
  unfold selectRow
  dsimp only
  split
  · rename_i hle
    have hsorted : (List.range count).mergeSort (· ≤ ·) = List.range count :=
      mergeSort_of_pairwise (by simpa using pairwise_lt_range.imp Nat.le_of_lt)
    have hfilter : (List.range count).filter (· < n) = List.range n := by
      rw [show count = n + (count - n) by omega, range_add, filter_append,
        filter_eq_self.mpr (by simp), filter_eq_nil_iff.mpr (by simp), List.append_nil]
    rw [hsorted, hfilter]
    refine ⟨pairwise_lt_range, List.length_range, pairwise_lt_range, ?_,
      fun b => mem_range.mp, fun b _ c hc hout => absurd (mem_range.mpr hc) hout⟩
    rw [List.length_range]
    omega
  · rename_i hmore
    have hends : ∀ p ∈ pieces x.keyChunk x.rows.length, p.1 + p.2 ≤ x.rows.length := fun p hp =>
      (of_mem_pieces keyChunk_pos hp).2.2
    obtain ⟨kept, hrow, hbest⟩ := rowAfter_spec x score (q, n) hpart hpos hends
      (by rw [pieces_range' keyChunk_pos]; exact nodup_range)
      (Best.self (Nat.zero_le _) : Best (blockScore x score (q, n)) count [] [])
    rw [List.nil_append, pieces_range' keyChunk_pos] at hbest
    rw [map_nil] at hrow
    rw [hrow]
    dsimp only
    have hperm := mergeSort_perm kept (· ≤ ·)
    have hsorted : (kept.mergeSort (· ≤ ·)).Pairwise (· < ·) := by
      have hle := @pairwise_mergeSort _ (fun a b : Nat => decide (a ≤ b))
        (by simpa using fun _ _ _ => Nat.le_trans) (by simpa using Nat.le_total) kept
      have hne := hperm.nodup_iff.mpr (hbest.nodup nodup_range)
      exact (hle.and hne).imp fun h => Nat.lt_of_le_of_ne (of_decide_eq_true h.1) h.2
    have hvisible : ∀ b ∈ kept.mergeSort (· ≤ ·), b < n := fun b hb =>
      Best.visible hbest hn (by omega) (hperm.mem_iff.mp hb)
    have hlength : (kept.mergeSort (· ≤ ·)).length = count := by
      have hmin := hbest.length
      rw [List.length_range] at hmin
      rw [hperm.length_eq]
      omega
    rw [filter_eq_self.mpr (by simpa using hvisible)]
    refine ⟨hsorted, hlength, hsorted, by omega, hvisible, fun b hb c hc hout => ?_⟩
    have hle := hbest.le (hperm.mem_iff.mp hb)
      (mem_range.mpr (show c < x.rows.length by omega)) (mt hperm.mem_iff.mpr hout)
    rw [blockScore_eq hc hn, blockScore_eq (hvisible b hb) hn, WithBot.coe_le_coe] at hle
    rintro key hkey key' hkey'
    rw [getElem?_eq_getElem (by have := hvisible b hb; omega)] at hkey
    rw [getElem?_eq_getElem (by omega)] at hkey'
    cases hkey
    cases hkey'
    exact hle

end Selection

end TyloQuant.QsaOffload
