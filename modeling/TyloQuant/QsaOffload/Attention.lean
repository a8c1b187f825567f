import TyloQuant.QsaOffload.Select

/-!
# Attention over an offloaded cache

`MlxQsaKvOffload::attention` reads the rows that each query token attends to: all that it sees when
these are no more than the budget, else the blocks that were selected for it and the rows of the
block that is not complete.  When the keys of one token fill the buffer the rows come one by one, in
chunks; otherwise those of several tokens are copied into slots, and a mask says which slots are
taken.  The arithmetic on the rows is left out.
-/

namespace TyloQuant.QsaOffload

open Lib List

/-- The offloaded cache.  A row is a key and a value. -/
structure MlxQsaKvOffload (ρ : Type) where
  rows : List ρ
  ratio : Nat
  rowBytes : Nat
  bufferBytes : Nat

variable {budget queryOffset visible : Nat} {ids : Option (List Int)}
  {blocks : Option (List (List Int))}

namespace MlxQsaKvOffload

variable {ρ : Type} (x : MlxQsaKvOffload ρ)

/-- The loop over the selection of a token: the complete blocks that it sees, but none twice in a
    row. -/
def picked (complete : Nat) : Int → List Int → List Nat
  | _, [] => []
  | previous, block :: rest =>
    if 0 ≤ block ∧ block < complete ∧ block ≠ previous then
      block.toNat :: picked complete block rest
    else
      picked complete block rest

/-- The selection when it is used: a token that sees no more than the budget needs none. -/
def selection (budget visible : Nat) (ids : Option (List Int)) :
    Except String (Option (List Int)) :=
  if visible ≤ budget ∨ ids = none then
    if budget < visible then .error "missing QSA sparse selection" else .ok none
  else
    .ok ids

/-- `positions`, where the rows come one by one. -/
def positions (visible : Nat) : Option (List Int) → List Nat
  | none => List.range visible
  | some ids =>
    ((picked (visible / x.ratio) (-1) ids).flatMap fun block =>
      (List.range x.ratio).map fun j => block * x.ratio + j) ++
    List.range' (visible / x.ratio * x.ratio) (visible - visible / x.ratio * x.ratio)

def streamed (budget visible : Nat) (ids : Option (List Int)) : Except String (List ρ) := do
  let ids ← selection budget visible ids
  let positions := x.positions visible ids
  if positions.isEmpty then
    throw "QSA offloaded attention has no visible keys"
  let chunk := max 1 (x.bufferBytes / 8 / x.rowBytes)
  let packed ← (pieces chunk positions.length).mapM fun (begin, count) =>
    (part positions begin count).mapM fun position => readRows x.rows position 1
  pure packed.flatten.flatten

/-- The calls of `copy`, where the rows go to slots. -/
def spans (visible : Nat) : Option (List Int) → List (Nat × Nat)
  | none => pieces x.ratio visible
  | some ids =>
    (picked (visible / x.ratio) (-1) ids).map (fun block => (block * x.ratio, x.ratio)) ++
    if visible % x.ratio ≠ 0 then [(visible / x.ratio * x.ratio, visible % x.ratio)] else []

/-- `copy`: the token's slots, and how many of them are used.  A slot whose mask is not set is
    `none`. -/
def copy (maxKeys : Nat) (state : List (Option ρ) × Nat) (span : Nat × Nat) :
    Except String (List (Option ρ) × Nat) := do
  if maxKeys < state.2 + span.2 then
    throw "QSA selection exceeds its KV buffer"
  let rows ← readRows x.rows span.1 span.2
  pure (rows.foldl (fun (slots, used) row => (slots.set used (some row), used + 1)) state)

def batched (maxKeys budget visible : Nat) (ids : Option (List Int)) : Except String (List ρ) := do
  let ids ← selection budget visible ids
  let state ← (x.spans visible ids).foldlM (x.copy maxKeys) (List.replicate maxKeys none, 0)
  if state.2 = 0 then
    throw "QSA offloaded attention has no visible keys"
  pure (state.1.filterMap id)

/-- `attention`: the rows that each token attends to. -/
def attention (blocks : Option (List (List Int))) (tokens queryOffset budget : Nat) :
    Except String (List (List ρ)) := do
  if x.rows.length < queryOffset + tokens ∨ budget = 0 then
    throw "QSA offloaded attention topology mismatch"
  if blocks.any fun rows =>
      rows.length ≠ tokens || rows.any fun ids => budget / x.ratio < ids.length then
    throw "QSA offloaded selection shape mismatch"
  let ids := fun token => blocks.map (·.getD token [])
  let maxKeys := budget + x.ratio - 1
  if x.bufferBytes / 8 < maxKeys * x.rowBytes then
    (List.range tokens).mapM fun token => x.streamed budget (queryOffset + token + 1) (ids token)
  else
    let batchLimit := max 1 (x.bufferBytes / 8 / x.rowBytes / maxKeys)
    let results ← (pieces batchLimit tokens).mapM fun (begin, count) =>
      (List.range' begin count).mapM fun token =>
        x.batched maxKeys budget (queryOffset + token + 1) (ids token)
    pure results.flatten

/-! ### The rows of a token -/

variable {x}

/-- Distinct ids in their order are all picked, if they are visible. -/
theorem picked_eq {complete : Nat} {ids : List Nat} (hsorted : ids.Pairwise (· < ·)) {previous : Int}
    (hprevious : ∀ id ∈ ids, previous < id) :
    picked complete previous (ids.map Int.ofNat) = ids.filter (· < complete) := by
  induction ids generalizing previous with
  | nil => rfl
  | cons id ids ih =>
    obtain ⟨hfirst, hrest⟩ := pairwise_cons.mp hsorted
    have hne := hprevious id mem_cons_self
    have hnext : picked complete (Int.ofNat id) (ids.map Int.ofNat) = ids.filter (· < complete) :=
      ih hrest fun id' hid' => Int.ofNat_lt.mpr (hfirst id' hid')
    rw [map_cons, picked, hnext, filter_cons]
    by_cases hvisible : id < complete
    · rw [if_pos ⟨Int.natCast_nonneg id, Int.ofNat_lt.mpr hvisible, Int.ne_of_gt hne⟩,
        if_pos (decide_eq_true hvisible)]
      rfl
    · rw [if_neg fun h => hvisible (Int.ofNat_lt.mp h.2.1),
        if_neg fun h => hvisible (of_decide_eq_true h)]

theorem takeAlong_range' {β : Type} {xs : List β} {start count : Nat}
    (h : start + count ≤ xs.length) :
    takeAlong xs (List.range' start count) = part xs start count := by
  induction count generalizing start with
  | zero => simp [takeAlong, part]
  | succ count ih =>
    have hrest := @ih (start + 1) (by omega)
    unfold takeAlong part at *
    have hget : xs[start]? = some xs[start] := getElem?_eq_getElem (by omega)
    rw [range'_succ, filterMap_cons, hget, hrest,
      drop_eq_getElem_cons (show start < xs.length by omega), take_succ_cons]

theorem takeAlong_flatMap {β γ : Type} {xs : List β} {ps : List γ} {f : γ → List Nat} :
    takeAlong xs (ps.flatMap f) = ps.flatMap fun p => takeAlong xs (f p) := filterMap_flatMap

/-- The two ways go over the same rows. -/
theorem spans_flatMap (hratio : 0 < x.ratio) (visible : Nat) (ids : Option (List Int)) :
    ((x.spans visible ids).flatMap fun p => List.range' p.1 p.2) = x.positions visible ids := by
  cases ids with
  | none => exact pieces_range' hratio
  | some ids =>
    have hmod := Nat.div_add_mod' visible x.ratio
    have htail : ((if visible % x.ratio ≠ 0 then
        [(visible / x.ratio * x.ratio, visible % x.ratio)] else []).flatMap fun p =>
        List.range' p.1 p.2) =
        List.range' (visible / x.ratio * x.ratio) (visible - visible / x.ratio * x.ratio) := by
      rw [show visible - visible / x.ratio * x.ratio = visible % x.ratio by omega]
      split
      · simp
      · rename_i hzero
        rw [not_not.mp hzero]
        rfl
    unfold spans positions
    rw [flatMap_append, htail, flatMap_map]
    simp only [range'_eq_map_range]

variable {ids' : Option (List Int)}

theorem streamed_eq (hids : selection budget visible ids = .ok ids')
    (hne : x.positions visible ids' ≠ [])
    (hrange : ∀ p ∈ x.positions visible ids', p < x.rows.length) :
    x.streamed budget visible ids = .ok (takeAlong x.rows (x.positions visible ids')) := by
  generalize hall : x.positions visible ids' = all at *
  have hsize : 0 < max 1 (x.bufferBytes / 8 / x.rowBytes) := by omega
  have hread : ∀ p ∈ pieces (max 1 (x.bufferBytes / 8 / x.rowBytes)) all.length,
      ((part all p.1 p.2).mapM fun position => readRows x.rows position 1) =
        .ok ((part all p.1 p.2).map fun position => part x.rows position 1) := fun p _ =>
    mapM_eq_ok.mpr (forall₂_map_right_iff.mpr (forall₂_same.mpr fun position hmem =>
      readRows_ok (hrange position (mem_of_mem_drop (mem_of_mem_take hmem)))))
  have hpacked := mapM_eq_ok.mpr (forall₂_map_right_iff.mpr (forall₂_same.mpr hread))
  have hone : ∀ p ∈ all, part x.rows p 1 = takeAlong x.rows [p] := fun p hp =>
    (takeAlong_range' (hrange p hp) : takeAlong x.rows (List.range' p 1) = _).symm
  unfold streamed
  rw [bind_of_ok hids]
  simp only [hall, if_neg (mt List.isEmpty_iff.mp hne)]
  refine (bind_of_ok hpacked _).trans (congrArg Except.ok ?_)
  rw [← flatMap_def, ← map_flatMap, pieces_part hsize, ← flatMap_def,
    flatMap_congr hone, ← takeAlong_flatMap, flatMap_singleton']

/-- Slots that hold some rows, with nothing behind them. -/
def filled (maxKeys : Nat) (rows : List ρ) : List (Option ρ) × Nat :=
  (rows.map some ++ List.replicate (maxKeys - rows.length) none, rows.length)

variable {maxKeys : Nat}

theorem foldl_filled {rows : List ρ} (new : List ρ) (hroom : rows.length + new.length ≤ maxKeys) :
    new.foldl (fun (slots, used) row => (slots.set used (some row), used + 1))
      (filled maxKeys rows) = filled maxKeys (rows ++ new) := by
  induction new generalizing rows with
  | nil => rw [List.append_nil]; rfl
  | cons row new ih =>
    rw [length_cons] at hroom
    have hset : ((filled maxKeys rows).1.set rows.length (some row), rows.length + 1) =
        filled maxKeys (rows ++ [row]) := by
      obtain ⟨room, hroom⟩ : ∃ room, maxKeys - rows.length = room + 1 :=
        ⟨maxKeys - rows.length - 1, by omega⟩
      simp only [filled, length_append, length_singleton, ← Nat.sub_sub, hroom,
        replicate_succ, Nat.add_sub_cancel]
      simp
    rw [foldl_cons, show rows ++ row :: new = (rows ++ [row]) ++ new by simp,
      ← ih (by simp; omega), ← hset]
    rfl

theorem foldlM_copy {maxKeys : Nat} {spans : List (Nat × Nat)} {rows : List ρ}
    (hrange : ∀ p ∈ spans, p.1 + p.2 ≤ x.rows.length)
    (hroom : rows.length + (spans.flatMap fun p => List.range' p.1 p.2).length ≤ maxKeys) :
    spans.foldlM (x.copy maxKeys) (filled maxKeys rows) = .ok (filled maxKeys
      (rows ++ takeAlong x.rows (spans.flatMap fun p => List.range' p.1 p.2))) := by
  induction spans generalizing rows with
  | nil => simp [takeAlong]; rfl
  | cons p spans ih =>
    have hp := hrange p mem_cons_self
    have hlength := length_part hp
    rw [flatMap_cons, length_append, length_range'] at hroom
    have hcopy : x.copy maxKeys (filled maxKeys rows) p =
        .ok (filled maxKeys (rows ++ part x.rows p.1 p.2)) := by
      unfold copy
      simp only [if_neg (show ¬maxKeys < (filled maxKeys rows).2 + p.2 by
        simp only [filled]; omega)]
      refine (bind_of_ok (readRows_ok hp) _).trans (congrArg Except.ok ?_)
      exact foldl_filled _ (by omega)
    rw [foldlM_cons, bind_of_ok hcopy,
      ih (fun p' hp' => hrange p' (mem_cons_of_mem _ hp'))
        (by rw [length_append]; omega),
      flatMap_cons, List.append_assoc, ← takeAlong_range' hp]
    simp only [takeAlong, filterMap_append]

theorem batched_eq (hratio : 0 < x.ratio) (hids : selection budget visible ids = .ok ids')
    (hne : takeAlong x.rows (x.positions visible ids') ≠ [])
    (hrange : ∀ p ∈ x.spans visible ids', p.1 + p.2 ≤ x.rows.length)
    (hroom : (x.positions visible ids').length ≤ maxKeys) :
    x.batched maxKeys budget visible ids =
      .ok (takeAlong x.rows (x.positions visible ids')) := by
  have hcopied := @foldlM_copy _ _ maxKeys _ [] hrange
    (by rw [spans_flatMap hratio, length_nil]; omega)
  rw [spans_flatMap hratio, List.nil_append] at hcopied
  have hstart : filled maxKeys ([] : List ρ) = (List.replicate maxKeys none, 0) := rfl
  unfold batched
  rw [bind_of_ok hids]
  refine (bind_of_ok hcopied _).trans ?_
  simp only [filled, length_eq_zero_iff, if_neg hne]
  refine congrArg Except.ok ?_
  simp [filterMap_map]

theorem attention_eq {tokens : Nat} {row : Nat → List ρ} (hbudget : 0 < budget)
    (hrows : queryOffset + tokens ≤ x.rows.length)
    (hshape : ∀ rows ∈ blocks, rows.length = tokens ∧ ∀ ids ∈ rows, ids.length ≤ budget / x.ratio)
    (hstreamed : ∀ t < tokens, x.streamed budget (queryOffset + t + 1)
      (blocks.map (·.getD t [])) = .ok (row t))
    (hbatched : ∀ t < tokens, x.batched (budget + x.ratio - 1) budget (queryOffset + t + 1)
      (blocks.map (·.getD t [])) = .ok (row t)) :
    x.attention blocks tokens queryOffset budget = .ok ((List.range tokens).map row) := by
  have hshaped : blocks.any (fun rows =>
      rows.length ≠ tokens || rows.any fun ids => budget / x.ratio < ids.length) = false := by
    cases blocks with
    | none => rfl
    | some rows => simpa using hshape rows rfl
  unfold attention
  simp only [if_neg (show ¬(x.rows.length < queryOffset + tokens ∨ budget = 0) by omega), hshaped]
  simp only [Bool.false_eq_true, if_false]
  split
  · exact mapM_eq_ok.mpr (forall₂_map_right_iff.mpr (forall₂_same.mpr fun t ht =>
      hstreamed t (mem_range.mp ht)))
  · generalize hlimit : max 1 (x.bufferBytes / 8 / x.rowBytes / (budget + x.ratio - 1)) = limit
    have hpiece : ∀ p ∈ pieces limit tokens, ((List.range' p.1 p.2).mapM fun t =>
        x.batched (budget + x.ratio - 1) budget (queryOffset + t + 1)
          (blocks.map (·.getD t []))) = .ok ((List.range' p.1 p.2).map row) := fun p hp => by
      obtain ⟨-, -, hend⟩ := of_mem_pieces (by omega) hp
      refine mapM_eq_ok.mpr (forall₂_map_right_iff.mpr (forall₂_same.mpr
        fun t ht => hbatched t ?_))
      rw [mem_range'_1] at ht
      omega
    have hresults := mapM_eq_ok.mpr (forall₂_map_right_iff.mpr
      (forall₂_same.mpr hpiece))
    refine (bind_of_ok hresults _).trans (congrArg Except.ok ?_)
    rw [← flatMap_def, ← map_flatMap, pieces_range' (by omega)]

end MlxQsaKvOffload

/-! ### What is attended -/

section Wanted

variable {α κ ι ρ : Type} [LinearOrder α]

/-- The positions that a token which sees `visible` rows is meant to attend to, given the scores of
    the keys of the complete blocks. -/
def Wanted (score : ι → α) (keys : List ι) (ratio budget visible : Nat) (positions : List Nat) :
    Prop :=
  positions.Pairwise (· < ·) ∧
    if visible ≤ budget then
      positions = List.range visible
    else
      ∃ blocks, Chosen score keys (budget / ratio) (visible / ratio) blocks ∧
        positions = (blocks.flatMap fun block => List.range' (block * ratio) ratio) ++
          List.range' (visible / ratio * ratio) (visible % ratio)

/-- Every token of the call attends to the rows at the positions that are meant. -/
def AttendsWanted (index : MlxQsaIndexOffload ι) (score : κ → ι → α) (kv : MlxQsaKvOffload ρ)
    (query : List κ) (queryOffset budget : Nat) (call : Except String (List (List ρ))) : Prop :=
  ∃ attended, call = .ok attended ∧ attended.length = query.length ∧
    ∀ t q, query[t]? = some q → ∃ rows positions, attended[t]? = some rows ∧
      Wanted (score q) index.rows kv.ratio budget (queryOffset + t + 1) positions ∧
      rows.map some = positions.map (kv.rows[·]?)

theorem takeAlong_some {β : Type} {xs : List β} {ps : List Nat} (h : ∀ p ∈ ps, p < xs.length) :
    (takeAlong xs ps).map some = ps.map (xs[·]?) := by
  unfold takeAlong
  induction ps with
  | nil => rfl
  | cons p ps ih =>
    have hp := h p mem_cons_self
    have hget : xs[p]? = some xs[p] := getElem?_eq_getElem hp
    rw [filterMap_cons, hget, map_cons, map_cons, hget,
      ih fun p' hp' => h p' (mem_cons_of_mem _ hp')]

/-- The rows of blocks in their order, with the rest behind them. -/
theorem pairwise_expand {ratio n rest : Nat} {blocks : List Nat}
    (hsorted : blocks.Pairwise (· < ·)) (hlt : ∀ b ∈ blocks, b < n) :
    ((blocks.flatMap fun block => List.range' (block * ratio) ratio) ++
      List.range' (n * ratio) rest).Pairwise (· < ·) := by
  have hend : ∀ b m, b < m → ∀ p ∈ List.range' (b * ratio) ratio, p < m * ratio := by
    intro b m hb p hp
    have hmul : (b + 1) * ratio ≤ m * ratio := Nat.mul_le_mul_right _ hb
    rw [Nat.succ_mul] at hmul
    rw [mem_range'_1] at hp
    omega
  rw [pairwise_append, pairwise_flatMap]
  refine ⟨⟨fun _ _ => pairwise_lt_range', hsorted.imp fun hb p hp p' hp' => ?_⟩,
    pairwise_lt_range', fun p hp p' hp' => ?_⟩
  · exact Nat.lt_of_lt_of_le (hend _ _ hb p hp) (mem_range'_1.mp hp').1
  · obtain ⟨b, hb, hp⟩ := mem_flatMap.mp hp
    exact Nat.lt_of_lt_of_le (hend _ _ (hlt b hb) p hp) (mem_range'_1.mp hp').1

/-- What a token attends to, when a selection is there if it sees more rows than the budget. -/
theorem wanted_positions {x : MlxQsaKvOffload ρ} {score : ι → α} {keys : List ι}
    (hratio : 0 < x.ratio) (hbudget : x.ratio ≤ budget) (hvisible : 0 < visible)
    (hids : budget < visible → ∃ blocks : List Nat, ids = some (blocks.map Int.ofNat) ∧
      blocks.Pairwise (· < ·) ∧ Chosen score keys (budget / x.ratio) (visible / x.ratio)
        (blocks.filter (· < visible / x.ratio))) :
    ∃ ids', MlxQsaKvOffload.selection budget visible ids = .ok ids' ∧
      Wanted score keys x.ratio budget visible (x.positions visible ids') ∧
      0 < (x.positions visible ids').length ∧
      (x.positions visible ids').length ≤ budget + x.ratio - 1 ∧
      ∀ p ∈ x.spans visible ids', p.1 + p.2 ≤ visible := by
  by_cases hdense : visible ≤ budget
  · refine ⟨none, ?_, ⟨pairwise_lt_range, ?_⟩, ?_, ?_, fun p hp =>
      (of_mem_pieces hratio hp).2.2⟩
    · rw [MlxQsaKvOffload.selection, if_pos (Or.inl hdense), if_neg (by omega)]
    · rw [if_pos hdense]
      rfl
    · exact hvisible.trans_eq List.length_range.symm
    · refine List.length_range.trans_le ?_
      omega
  · obtain ⟨blocks, rfl, hsorted, hchosen⟩ := hids (by omega)
    have hpicked : MlxQsaKvOffload.picked (visible / x.ratio) (-1) (blocks.map Int.ofNat) =
        blocks.filter (· < visible / x.ratio) :=
      MlxQsaKvOffload.picked_eq hsorted fun id _ => by omega
    generalize blocks.filter (· < visible / x.ratio) = chosen at *
    have hmod := Nat.div_add_mod' visible x.ratio
    have hlast := Nat.mod_lt visible hratio
    have hpositions : x.positions visible (some (blocks.map Int.ofNat)) =
        (chosen.flatMap fun block => List.range' (block * x.ratio) x.ratio) ++
          List.range' (visible / x.ratio * x.ratio) (visible % x.ratio) := by
      rw [MlxQsaKvOffload.positions, hpicked,
        show visible - visible / x.ratio * x.ratio = visible % x.ratio by omega]
      simp only [range'_eq_map_range]
    have hlength : (x.positions visible (some (blocks.map Int.ofNat))).length =
        chosen.length * x.ratio + visible % x.ratio := by
      rw [hpositions, length_append, length_flatMap, length_range']
      simp [length_range']
    have hcount := hchosen.length
    have hfit : chosen.length * x.ratio ≤ budget / x.ratio * x.ratio :=
      Nat.mul_le_mul_right _ (by omega)
    have hfits := Nat.div_mul_le_self budget x.ratio
    have hsome : 0 < chosen.length := by
      have hbudget' := Nat.div_pos hbudget hratio
      have hvisible' := Nat.div_pos (show x.ratio ≤ visible by omega) hratio
      omega
    refine ⟨some (blocks.map Int.ofNat), ?_, ⟨?_, ?_⟩, ?_, by omega, fun p hp => ?_⟩
    · rw [MlxQsaKvOffload.selection, if_neg (by simpa using hdense)]
    · rw [hpositions]
      exact pairwise_expand hchosen.sorted hchosen.visible
    · rw [if_neg hdense]
      exact ⟨chosen, hchosen, hpositions⟩
    · rw [hlength]
      exact Nat.add_pos_left (Nat.mul_pos hsome hratio) _
    · rw [MlxQsaKvOffload.spans, hpicked] at hp
      rcases mem_append.mp hp with hp | hp
      · obtain ⟨b, hb, rfl⟩ := mem_map.mp hp
        have hmul : (b + 1) * x.ratio ≤ visible / x.ratio * x.ratio :=
          Nat.mul_le_mul_right _ (hchosen.visible b hb)
        rw [Nat.succ_mul] at hmul
        dsimp only
        omega
      · split at hp
        · obtain rfl := mem_singleton.mp hp
          dsimp only
          omega
        · exact absurd hp not_mem_nil

variable {index : MlxQsaIndexOffload ι} {score : κ → ι → α} {kv : MlxQsaKvOffload ρ}
  {query : List κ}

/-- Attention with such selections attends to what is meant, in both ways of reading the rows. -/
theorem attention_wanted (hratio : 0 < kv.ratio) (hbudget : kv.ratio ≤ budget)
    (hrows : queryOffset + query.length ≤ kv.rows.length)
    (hshape : ∀ rows ∈ blocks, rows.length = query.length ∧
      ∀ ids ∈ rows, ids.length ≤ budget / kv.ratio)
    (hids : ∀ t q, query[t]? = some q → budget < queryOffset + t + 1 →
      ∃ chosen : List Nat, blocks.map (·.getD t []) = some (chosen.map Int.ofNat) ∧
        chosen.Pairwise (· < ·) ∧ Chosen (score q) index.rows (budget / kv.ratio)
          ((queryOffset + t + 1) / kv.ratio)
          (chosen.filter (· < (queryOffset + t + 1) / kv.ratio))) :
    AttendsWanted index score kv query queryOffset budget
      (kv.attention blocks query.length queryOffset budget) := by
  have htoken : ∀ t q, query[t]? = some q → ∃ positions,
      Wanted (score q) index.rows kv.ratio budget (queryOffset + t + 1) positions ∧
      (∀ p ∈ positions, p < kv.rows.length) ∧
      kv.streamed budget (queryOffset + t + 1) (blocks.map (·.getD t [])) =
        .ok (takeAlong kv.rows positions) ∧
      kv.batched (budget + kv.ratio - 1) budget (queryOffset + t + 1) (blocks.map (·.getD t [])) =
        .ok (takeAlong kv.rows positions) := by
    intro t q hq
    have ht : t < query.length := (List.getElem?_eq_some_iff.mp hq).1
    obtain ⟨ids', hselection, hwanted, hpos, hroom, hspans⟩ :=
      wanted_positions hratio hbudget (Nat.succ_pos _) (hids t q hq)
    have hlt : ∀ p ∈ kv.positions (queryOffset + t + 1) ids', p < kv.rows.length := by
      intro p hp
      rw [← MlxQsaKvOffload.spans_flatMap hratio] at hp
      obtain ⟨span, hspan, hp⟩ := mem_flatMap.mp hp
      have hend := hspans span hspan
      rw [mem_range'_1] at hp
      omega
    have hread := congrArg List.length (takeAlong_some hlt)
    rw [length_map, length_map] at hread
    refine ⟨_, hwanted, hlt, MlxQsaKvOffload.streamed_eq hselection
      (ne_nil_of_length_pos hpos) hlt, MlxQsaKvOffload.batched_eq hratio hselection
      (ne_nil_of_length_pos (hread ▸ hpos)) (fun p hp => ?_) hroom⟩
    have hend := hspans p hp
    omega
  choose! positions hwanted hlt hstreamed hbatched using htoken
  obtain ⟨row, hrow⟩ : ∃ row : Nat → List ρ, ∀ t q, query[t]? = some q →
      row t = takeAlong kv.rows (positions t q) :=
    ⟨fun t => takeAlong kv.rows ((query[t]?.map (positions t)).getD []), fun t q hq =>
      congrArg (fun q => takeAlong kv.rows ((q.map (positions t)).getD [])) hq⟩
  have hread : ∀ t < query.length, ∃ q, query[t]? = some q := fun t ht =>
    ⟨query[t], getElem?_eq_getElem ht⟩
  have hattention : kv.attention blocks query.length queryOffset budget =
      .ok ((List.range query.length).map row) := by
    refine MlxQsaKvOffload.attention_eq (by omega) hrows hshape (fun t ht => ?_) fun t ht => ?_
    · obtain ⟨q, hq⟩ := hread t ht
      rw [hstreamed t q hq, hrow t q hq]
    · obtain ⟨q, hq⟩ := hread t ht
      rw [hbatched t q hq, hrow t q hq]
  refine ⟨_, hattention, by simp, fun t q hq => ⟨_, positions t q, ?_, hwanted t q hq,
    takeAlong_some (hlt t q hq)⟩⟩
  have ht : t < query.length := (List.getElem?_eq_some_iff.mp hq).1
  rw [getElem?_map, getElem?_range ht, Option.map_some, hrow t q hq]

/-- `select` and then `attention`. -/
def selectThenAttend (argpartition : List (WithBot α)ᵒᵈ → Nat → List Nat)
    (index : MlxQsaIndexOffload ι) (score : κ → ι → α) (kv : MlxQsaKvOffload ρ) (query : List κ)
    (queryOffset budget : Nat) : Except String (List (List ρ)) := do
  let blocks ← index.select argpartition score query queryOffset kv.ratio budget
  kv.attention (some (blocks.map (·.map Int.ofNat))) query.length queryOffset budget

/-- The call of the layer, which selects nothing while the cache is within the budget. -/
def attend (argpartition : List (WithBot α)ᵒᵈ → Nat → List Nat) (index : MlxQsaIndexOffload ι)
    (score : κ → ι → α) (kv : MlxQsaKvOffload ρ) (query : List κ) (queryOffset budget : Nat) :
    Except String (List (List ρ)) :=
  if budget < kv.rows.length then
    selectThenAttend argpartition index score kv query queryOffset budget
  else
    kv.attention none query.length queryOffset budget

theorem selected_wanted {argpartition : List (WithBot α)ᵒᵈ → Nat → List Nat}
    (hpart : Partitions argpartition) (hratio : 0 < kv.ratio) (hbudget : kv.ratio ≤ budget)
    (hpool : index.rows.length = kv.rows.length / kv.ratio)
    (hrows : queryOffset + query.length ≤ kv.rows.length) (hcomplete : kv.ratio ≤ kv.rows.length) :
    AttendsWanted index score kv query queryOffset budget
      (selectThenAttend argpartition index score kv query queryOffset budget) := by
  have hcount : 0 < min index.rows.length (budget / kv.ratio) := by
    have hblocks := Nat.div_pos hcomplete hratio
    have hkept := Nat.div_pos hbudget hratio
    omega
  generalize hcount' : min index.rows.length (budget / kv.ratio) = count at *
  have hspec : ∀ t q, query[t]? = some q →
      (selectRow index argpartition score count (q, (queryOffset + t + 1) / kv.ratio)).Pairwise
        (· < ·) ∧
      (selectRow index argpartition score count
        (q, (queryOffset + t + 1) / kv.ratio)).length = count ∧ _ := fun t q hq =>
    selectRow_spec hpart hcount'.symm hcount (by
      have ht : t < query.length := (List.getElem?_eq_some_iff.mp hq).1
      rw [hpool]
      exact Nat.div_le_div_right (by omega))
  have hvisible : ∀ t < query.length,
      ((List.range' (queryOffset + 1) query.length).map (· / kv.ratio))[t]? =
        some ((queryOffset + t + 1) / kv.ratio) := fun t ht => by
    rw [getElem?_map, getElem?_range' ht, Option.map_some, Nat.one_mul,
      Nat.add_right_comm]
  unfold selectThenAttend
  rw [bind_of_ok (select_eq query queryOffset kv.ratio budget (hcount' ▸ hcount)), hcount']
  refine attention_wanted hratio hbudget hrows (fun rows hmem => ?_) fun t q hq _ =>
    ⟨_, ?_, (hspec t q hq).1, (hspec t q hq).2.2⟩
  · obtain rfl := Option.mem_some_iff.mp hmem
    refine ⟨by simp, fun ids hids => ?_⟩
    obtain ⟨blocks, hblocks, rfl⟩ := mem_map.mp hids
    obtain ⟨⟨q, n⟩, htoken, rfl⟩ := mem_map.mp hblocks
    obtain ⟨t, ht⟩ := mem_iff_getElem?.mp htoken
    obtain ⟨hq, hn⟩ := getElem?_zip_eq_some.mp ht
    rw [hvisible t (List.getElem?_eq_some_iff.mp hq).1] at hn
    obtain rfl := Option.some.inj hn
    rw [length_map, (hspec t q hq).2.1]
    omega
  · have ht : t < query.length := (List.getElem?_eq_some_iff.mp hq).1
    have htoken := getElem?_zip_eq_some.mpr
      (show query[t]? = some (q, (queryOffset + t + 1) / kv.ratio).1 ∧ _ from ⟨hq, hvisible t ht⟩)
    rw [Option.map_some, getD_eq_getElem?_getD, getElem?_map, getElem?_map, htoken]
    rfl

/-- **Selection and attention read the rows that are meant**, in both ways of reading them and for
    every size of the buffer. -/
theorem select_attention_wanted {argpartition : List (WithBot α)ᵒᵈ → Nat → List Nat}
    (hpart : Partitions argpartition) (index : MlxQsaIndexOffload ι) (score : κ → ι → α)
    (kv : MlxQsaKvOffload ρ) (query : List κ) (queryOffset budget : Nat) (hratio : 0 < kv.ratio)
    (hbudget : kv.ratio ≤ budget) (hpool : index.rows.length = kv.rows.length / kv.ratio)
    (hrows : queryOffset + query.length ≤ kv.rows.length) :
    (kv.ratio ≤ kv.rows.length → AttendsWanted index score kv query queryOffset budget
        (selectThenAttend argpartition index score kv query queryOffset budget)) ∧
      AttendsWanted index score kv query queryOffset budget
        (attend argpartition index score kv query queryOffset budget) := by
  refine ⟨selected_wanted hpart hratio hbudget hpool hrows, ?_⟩
  unfold attend
  split
  · exact selected_wanted hpart hratio hbudget hpool hrows (by omega)
  · exact attention_wanted hratio hbudget hrows (fun _ h => by cases h) fun t q hq hmore => by
      have ht : t < query.length := (List.getElem?_eq_some_iff.mp hq).1
      omega

end Wanted

/-- The indices in the order of the values. -/
def sortedIndices {ν : Type} [LinearOrder ν] (xs : List ν) (_ : Nat) : List Nat :=
  (xs.zipIdx.mergeSort fun a b => decide (a.1 ≤ b.1)).map Prod.snd

theorem partitions_sortedIndices {ν : Type} [LinearOrder ν] : Partitions (@sortedIndices ν _) := by
  have hsorted := fun xs : List ν => @pairwise_mergeSort _
    (fun a b : ν × Nat => decide (a.1 ≤ b.1))
    (fun _ _ _ hab hbc => decide_eq_true ((of_decide_eq_true hab).trans (of_decide_eq_true hbc)))
    (fun a b => by simpa using le_total a.1 b.1) xs.zipIdx
  refine ⟨fun xs kth _ => ?_, fun xs kth _ a ha b hb y hy z hz => ?_⟩
  · refine ((mergeSort_perm _ _).map _).trans (List.Perm.of_eq ?_)
    rw [zipIdx_map_snd, range_eq_range']
  · have hall := hsorted xs
    unfold sortedIndices at ha hb
    have hvalue : ∀ p ∈ xs.zipIdx.mergeSort fun a b => decide (a.1 ≤ b.1), xs[p.2]? = some p.1 :=
      fun p hp => mk_mem_zipIdx_iff_getElem?.mp ((mergeSort_perm _ _).mem_iff.mp hp)
    generalize (xs.zipIdx.mergeSort fun a b => decide (a.1 ≤ b.1)) = order at *
    rw [← map_take] at ha
    rw [← map_drop] at hb
    obtain ⟨p, hp, rfl⟩ := mem_map.mp ha
    obtain ⟨p', hp', rfl⟩ := mem_map.mp hb
    rw [← take_append_drop (kth + 1) order, pairwise_append] at hall
    rw [hvalue p (mem_of_mem_take hp)] at hy
    rw [hvalue p' (mem_of_mem_drop hp')] at hz
    obtain rfl := Option.some.inj hy
    obtain rfl := Option.some.inj hz
    exact of_decide_eq_true (hall.2.2 p hp p' hp')

/-- The last of five rows attends to the better of two blocks and to itself. -/
theorem select_attention_five : let index : MlxQsaIndexOffload Nat := ⟨[3, 8], 4, 64, by decide⟩
    let kv : MlxQsaKvOffload Nat := ⟨[10, 11, 12, 13, 14], 2, 8, 4096⟩
    (2 ≤ 5 → AttendsWanted index (fun _ key => key) kv [()] 4 2
        (selectThenAttend sortedIndices index (fun _ key => key) kv [()] 4 2)) ∧
      AttendsWanted index (fun _ key => key) kv [()] 4 2
        (attend sortedIndices index (fun _ key => key) kv [()] 4 2) :=
  select_attention_wanted partitions_sortedIndices _ _ ⟨[10, 11, 12, 13, 14], 2, 8, 4096⟩ [()] 4 2
    (by decide) (by decide) rfl (by decide)

end TyloQuant.QsaOffload
