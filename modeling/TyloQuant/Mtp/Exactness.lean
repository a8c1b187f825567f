import TyloQuant.Lib.Chance
import TyloQuant.Mtp.Verification

/-!
# Speculative sampling is exact

The drafts are drawn one after the other from their proposals, each given the earlier drafts, and
the uniforms are independent.  At a position that is reached, the token has the law of the target
there: what acceptance leaves out of the target is what the residual puts back.
-/

namespace TyloQuant.Mtp

open Lib MeasureTheory List

variable {n : Nat}

/-! ### Acceptance and residual balance -/

section Balance

variable (target proposal : Law ℝ n)

/-- What a proposal gives and is kept. -/
theorem kept_mass (x : Fin n) :
    proposal.prob x * min 1 (target.prob x / proposal.prob x) =
      min (proposal.prob x) (target.prob x) := by
  have hp := target.prob_nonneg x
  rcases (proposal.prob_nonneg x).eq_or_lt with hzero | hpos
  · rw [← hzero, zero_mul, min_eq_left hp]
  · rw [mul_min_of_nonneg _ _ hpos.le, mul_one, mul_div_cancel₀ _ hpos.ne']

theorem excess_eq (x : Fin n) :
    excess target proposal x = target.prob x - min (proposal.prob x) (target.prob x) := by
  unfold excess
  rcases le_total (proposal.prob x) (target.prob x) with h | h
  · rw [min_eq_left h, max_eq_right (by linarith)]
  · rw [min_eq_right h, max_eq_left (by linarith), sub_self]

/-- The chance that a draft is rejected. -/
theorem rejected_mass :
    ∑ x, proposal.prob x * (1 - min 1 (target.prob x / proposal.prob x)) =
      ∑ x, excess target proposal x := by
  have hleft : ∀ x, proposal.prob x * (1 - min 1 (target.prob x / proposal.prob x)) =
      proposal.prob x - min (proposal.prob x) (target.prob x) := by
    intro x
    rw [mul_sub, mul_one, kept_mass]
  simp only [hleft, excess_eq, Finset.sum_sub_distrib, Law.sum_prob]

/-- **The balance**: kept drafts and residual draws together give the target. -/
theorem balance (t : Fin n) :
    ∑ x, proposal.prob x * ((if x = t then min 1 (target.prob x / proposal.prob x) else 0) +
      (1 - min 1 (target.prob x / proposal.prob x)) * (target.residual proposal).prob t) =
      target.prob t := by
  simp only [mul_add, Finset.sum_add_distrib, mul_ite, mul_zero, Finset.sum_ite_eq',
    Finset.mem_univ, if_true]
  simp only [← mul_assoc]
  rw [← Finset.sum_mul, rejected_mass, kept_mass]
  have hexcess := excess_eq target proposal t
  have hnonneg : 0 ≤ ∑ x, excess target proposal x :=
    Finset.sum_nonneg fun x _ => excess_nonneg target proposal x
  rcases hnonneg.eq_or_lt with hzero | hpos
  · -- Nothing is left over, so the target is kept whole and the fallback is never drawn from.
    have hnone : excess target proposal t = 0 :=
      (Finset.sum_eq_zero_iff_of_nonneg fun x _ => excess_nonneg target proposal x).mp hzero.symm
        t (Finset.mem_univ t)
    rw [← hzero, zero_mul]
    linarith
  · rw [Law.residual_prob t hpos, mul_div_cancel₀ _ hpos.ne']
    linarith

end Balance

/-! ### Chances of a chain -/

/-- The mean over the drafts. -/
noncomputable def Chain.meanDrafts (c : Chain ℝ n) (k : Nat) (f : List (Fin n) → ℝ) : ℝ :=
  mean (fun e x => (c.proposal e).prob x) k f

/-- The chance of an event in the drafts and the uniforms. -/
noncomputable def Chain.chance (c : Chain ℝ n) (k : Nat)
    (event : List (Fin n) → (Fin (k + 1) → ℝ) → Prop) : ℝ :=
  c.meanDrafts k fun drafts => (uniforms (Fin (k + 1))).real {x | event drafts x}

/-- The uniforms of the acceptances. -/
noncomputable def acceptanceUniforms {k : Nat} (x : Fin (k + 1) → ℝ) : List ℝ :=
  List.ofFn fun j : Fin k => x j.castSucc

/-- A verification with the uniforms `x`, of which the last one samples. -/
noncomputable def Chain.outcome {k : Nat} (c : Chain ℝ n) (drafts : List (Fin n))
    (x : Fin (k + 1) → ℝ) :
    Except String ChainVerification :=
  c.verify drafts (acceptanceUniforms x) (x (Fin.last k))

/-- All drafts before the position are kept. -/
def Chain.Reaches {k : Nat} (c : Chain ℝ n) (i : Nat) (drafts : List (Fin n))
    (x : Fin (k + 1) → ℝ) : Prop :=
  ∃ out, c.outcome drafts x = .ok out ∧ i ≤ out.acceptedDrafts

/-- The position is reached, and gets the token. -/
def Chain.Emits {k : Nat} (c : Chain ℝ n) (i : Nat) (t : Fin n) (drafts : List (Fin n))
    (x : Fin (k + 1) → ℝ) : Prop :=
  ∃ out, c.outcome drafts x = .ok out ∧
    out.emitted (drafts.map fun x => (x.val : Int)) i = some (t.val : Int)

/-! ### The events as boxes -/

/-- The first `i` uniforms lie below their bounds, the next one in `S` and the last one in `T`. -/
def sides (i k : Nat) (a : Nat → ℝ) (S T : Set ℝ) (j : Nat) : Set ℝ :=
  if j < i then Set.Iio (a j) else if j = k then T else if j = i then S else Set.univ

theorem mem_sides {i k : Nat} (hi : i ≤ k) {a : Nat → ℝ} {S T : Set ℝ} {x : Fin (k + 1) → ℝ} :
    (∀ j : Fin (k + 1), x j ∈ sides i k a S T j) ↔
      (∀ j : Fin k, j.val < i → x j.castSucc < a j) ∧ x (Fin.last k) ∈ T ∧
        ∀ h : i < k, x (⟨i, h⟩ : Fin k).castSucc ∈ S := by
  constructor
  · intro h
    refine ⟨fun j hj => ?_, ?_, fun hik => ?_⟩
    · have hj' := h j.castSucc
      unfold sides at hj'
      rw [Fin.val_castSucc, if_pos hj] at hj'
      exact hj'
    · have hlast := h (Fin.last k)
      unfold sides at hlast
      rw [Fin.val_last, if_neg (by omega), if_pos rfl] at hlast
      exact hlast
    · have hnext := h (⟨i, hik⟩ : Fin k).castSucc
      unfold sides at hnext
      rw [Fin.val_castSucc, if_neg (lt_irrefl i), if_neg (by simp; omega), if_pos rfl] at hnext
      exact hnext
  · rintro ⟨hbelow, hlast, hnext⟩ j
    unfold sides
    refine Fin.lastCases ?_ (fun j => ?_) j
    · rw [Fin.val_last, if_neg (by omega), if_pos rfl]
      exact hlast
    · rw [Fin.val_castSucc]
      split
      · rename_i hj
        exact hbelow j hj
      · rw [if_neg (by omega)]
        split
        · rename_i hj
          subst hj
          exact hnext j.isLt
        · trivial

/-! ### What a verification decides, in terms of the uniforms -/

variable {t y : Fin n}

section Events

variable {k i : Nat} {c : Chain ℝ n} {drafts : List (Fin n)} {x : Fin (k + 1) → ℝ}

@[simp] theorem acceptanceUniforms_length : (acceptanceUniforms x).length = k := by
  simp [acceptanceUniforms]

theorem mem_acceptanceUniforms (hx : ∀ j, x j ∈ Set.Ico (0 : ℝ) 1) :
    ∀ u ∈ acceptanceUniforms x, 0 ≤ u ∧ u < 1 := by
  intro u hu
  obtain ⟨j, rfl⟩ := (mem_ofFn' _ u).mp hu
  exact hx j.castSucc

theorem outcome_eq (hk : 0 < k) (hlength : drafts.length = k) (hdrawn : c.Drawn drafts)
    (hx : ∀ j, x j ∈ Set.Ico (0 : ℝ) 1) :
    c.outcome drafts x = .ok
          { acceptedDrafts := c.kept drafts (acceptanceUniforms x)
            nextToken := pick (c.nextLaw drafts (acceptanceUniforms x)).probabilities
              (x (Fin.last k))
            bonus := decide (c.kept drafts (acceptanceUniforms x) = drafts.length) } := by
  apply Chain.verify_eq
  · intro hnil
    rw [hnil] at hlength
    exact absurd hlength.symm (Nat.ne_of_gt hk)
  · exact hdrawn
  · rw [hlength]
    exact acceptanceUniforms_length
  · exact mem_acceptanceUniforms hx
  · exact hx (Fin.last k)

theorem le_kept_uniforms (hlength : drafts.length = k) (hi : i ≤ k) :
    i ≤ c.kept drafts (acceptanceUniforms x) ↔
      ∀ j : Fin k, j.val < i → x j.castSucc < c.acceptAt drafts j := by
  rw [Chain.le_kept_iff, Chain.passes_iff (by simp [hlength]) (by omega)]
  constructor
  · intro h j hj
    apply h j _ hj
    simp [acceptanceUniforms]
  · intro h j u hj hu
    have hjk : j < k := by omega
    simp only [acceptanceUniforms, List.getElem?_ofFn, dif_pos hjk, Option.some.injEq] at hu
    rw [← hu]
    exact h ⟨j, hjk⟩ hj

theorem reaches_iff (hk : 0 < k) (hlength : drafts.length = k) (hdrawn : c.Drawn drafts)
    (hi : i ≤ k) (hx : ∀ j, x j ∈ Set.Ico (0 : ℝ) 1) :
    c.Reaches i drafts x ↔
      ∀ j : Fin (k + 1), x j ∈ sides i k (c.acceptAt drafts) Set.univ Set.univ j := by
  rw [mem_sides hi]
  unfold Chain.Reaches
  rw [outcome_eq hk hlength hdrawn hx]
  constructor
  · rintro ⟨out, hout, hle⟩
    cases hout
    exact ⟨(le_kept_uniforms hlength hi).mp hle, trivial, fun _ => trivial⟩
  · rintro ⟨hbelow, -, -⟩
    exact ⟨_, rfl, (le_kept_uniforms hlength hi).mpr hbelow⟩

/-- A position gets its draft where that is kept, and the next token where the chain ends. -/
theorem emits_cases (hk : 0 < k) (hlength : drafts.length = k) (hdrawn : c.Drawn drafts)
    (hx : ∀ j, x j ∈ Set.Ico (0 : ℝ) 1) :
    c.Emits i t drafts x ↔ (i + 1 ≤ c.kept drafts (acceptanceUniforms x) ∧ drafts[i]? = some t) ∨
      (c.kept drafts (acceptanceUniforms x) = i ∧
        x (Fin.last k) ∈ (c.nextLaw drafts (acceptanceUniforms x)).stretch t) := by
  unfold Chain.Emits
  rw [outcome_eq hk hlength hdrawn hx, ← Law.pick_eq_iff (hx (Fin.last k))]
  simp only [Except.ok.injEq, exists_eq_left']
  unfold ChainVerification.emitted
  dsimp only
  rcases Nat.lt_trichotomy i (c.kept drafts (acceptanceUniforms x)) with hlt | heq | hgt
  · rw [if_pos hlt, getElem?_map]
    constructor
    · intro h
      obtain ⟨y, hy, hyt⟩ := Option.map_eq_some_iff.mp h
      obtain rfl : y = t := Fin.ext (by exact_mod_cast hyt)
      exact Or.inl ⟨hlt, hy⟩
    · rintro (⟨-, h⟩ | ⟨heq, -⟩)
      · rw [h]
        rfl
      · exact absurd heq (Nat.ne_of_gt hlt)
  · rw [if_neg (by omega), if_pos heq, Option.some.injEq]
    constructor
    · intro h
      exact Or.inr ⟨heq.symm, h⟩
    · rintro (⟨hlt, -⟩ | ⟨-, h⟩)
      · exact absurd heq (Nat.ne_of_lt hlt)
      · exact h
  · rw [if_neg (by omega), if_neg (by omega)]
    constructor
    · intro h
      simp at h
    · rintro (⟨hlt, -⟩ | ⟨heq, -⟩)
      · exact absurd hlt (by omega)
      · exact absurd heq (Nat.ne_of_lt hgt)

/-- The uniforms up to the position miss no acceptance. -/
theorem kept_below (hlength : drafts.length = k) (hi : i < k) :
    i + 1 ≤ c.kept drafts (acceptanceUniforms x) ↔
      (∀ j : Fin k, j.val < i → x j.castSucc < c.acceptAt drafts j) ∧
        x (⟨i, hi⟩ : Fin k).castSucc < c.acceptAt drafts i := by
  rw [le_kept_uniforms hlength hi]
  constructor
  · intro h
    constructor
    · intro j hj
      exact h j (by omega)
    · exact h ⟨i, hi⟩ (Nat.lt_succ_self i)
  · rintro ⟨hbelow, hnext⟩ j hj
    rcases Nat.lt_succ_iff_lt_or_eq.mp hj with hj | hj
    · exact hbelow j hj
    · obtain rfl : j = ⟨i, hi⟩ := Fin.ext hj
      exact hnext

/-- The uniform of the position is the first to miss its acceptance. -/
theorem kept_eq_iff (hlength : drafts.length = k) (hi : i < k) :
    c.kept drafts (acceptanceUniforms x) = i ↔
      (∀ j : Fin k, j.val < i → x j.castSucc < c.acceptAt drafts j) ∧
        c.acceptAt drafts i ≤ x (⟨i, hi⟩ : Fin k).castSucc := by
  have hnext := @kept_below n k i c drafts x hlength hi
  have hkeep := @le_kept_uniforms n k i c drafts x hlength hi.le
  constructor
  · intro heq
    have hbelow := hkeep.mp heq.ge
    refine ⟨hbelow, not_lt.mp ?_⟩
    intro habove
    have hlt := hnext.mpr ⟨hbelow, habove⟩
    omega
  · rintro ⟨hbelow, habove⟩
    apply le_antisymm _ (hkeep.mpr hbelow)
    apply not_lt.mp
    intro hlt
    exact absurd (hnext.mp hlt).2 (not_lt.mpr habove)

theorem emits_iff (hlength : drafts.length = k) (hdrawn : c.Drawn drafts) (hi : i < k)
    (hy : drafts[i]? = some y) (hx : ∀ j, x j ∈ Set.Ico (0 : ℝ) 1) :
    c.Emits i t drafts x ↔ (y = t ∧ ∀ j : Fin (k + 1), x j ∈
        sides i k (c.acceptAt drafts) (Set.Iio (c.acceptAt drafts i)) Set.univ j) ∨
      ∀ j : Fin (k + 1), x j ∈
        sides i k (c.acceptAt drafts) (Set.Ici (c.acceptAt drafts i))
          (((c.target (drafts.take i)).residual (c.proposal (drafts.take i))).stretch t) j := by
  have hlaw := @Chain.nextLaw_of_kept ℝ _ _ n _ c drafts (acceptanceUniforms x) i
    (by simp [hlength])
  rw [mem_sides hi.le, mem_sides hi.le, emits_cases (by omega) hlength hdrawn hx,
    kept_below hlength hi, hy]
  constructor
  · rintro (⟨⟨hbelow, hnext⟩, hyt⟩ | ⟨heq, hlast⟩)
    · left
      exact ⟨Option.some.inj hyt, hbelow, trivial, fun _ => hnext⟩
    · right
      rw [hlaw heq (by omega)] at hlast
      obtain ⟨hbelow, hnext⟩ := (kept_eq_iff hlength hi).mp heq
      exact ⟨hbelow, hlast, fun _ => hnext⟩
  · rintro (⟨rfl, hbelow, -, hnext⟩ | ⟨hbelow, hlast, hnext⟩)
    · left
      exact ⟨⟨hbelow, hnext hi⟩, rfl⟩
    · right
      have heq := (kept_eq_iff hlength hi).mpr ⟨hbelow, hnext hi⟩
      rw [hlaw heq (by omega)]
      exact ⟨heq, hlast⟩

theorem emits_last_iff (hk : 0 < k) (hlength : drafts.length = k) (hdrawn : c.Drawn drafts)
    (hx : ∀ j, x j ∈ Set.Ico (0 : ℝ) 1) :
    c.Emits k t drafts x ↔ ∀ j : Fin (k + 1), x j ∈
        sides k k (c.acceptAt drafts) Set.univ ((c.target drafts).stretch t) j := by
  have hkeep := @le_kept_uniforms n k k c drafts x hlength le_rfl
  have hmost : c.kept drafts (acceptanceUniforms x) ≤ drafts.length := Chain.kept_le
  have hlaw := @Chain.nextLaw_of_all ℝ _ _ n _ c drafts (acceptanceUniforms x) (by simp [hlength])
  rw [mem_sides le_rfl, emits_cases hk hlength hdrawn hx]
  constructor
  · rintro (⟨hlt, -⟩ | ⟨heq, hlast⟩)
    · exact absurd hlt (by omega)
    · rw [hlaw (by omega)] at hlast
      exact ⟨hkeep.mp heq.ge, hlast, fun h => absurd h (lt_irrefl k)⟩
  · rintro ⟨hbelow, hlast, -⟩
    right
    have heq := hkeep.mpr hbelow
    rw [hlaw (by omega)]
    exact ⟨by omega, hlast⟩

end Events

/-! ### Chances over the uniforms -/

theorem uniform_stretch (law : Law ℝ n) (t : Fin n) :
    uniform.real (law.stretch t) = law.prob t := by
  have ht : t.val < law.probabilities.length := by
    rw [law.length_eq]
    exact t.isLt
  have hlow : 0 ≤ (law.probabilities.take t).sum := by
    apply sum_nonneg
    intro p hp
    exact law.nonneg p (mem_of_mem_take hp)
  have hhigh : (law.probabilities.take (t + 1)).sum ≤ 1 := by
    rw [← law.sum_eq]
    have hmono := sum_take_mono law.nonneg (Nat.succ_le_of_lt ht)
    rwa [take_length] at hmono
  have hstep : (law.probabilities.take (t + 1)).sum =
      (law.probabilities.take t).sum + law.prob t := by
    unfold Law.prob
    rw [take_add_one, getElem?_eq_getElem ht, sum_append,
      getD_eq_getElem _ _ ht]
    simp
  unfold Law.stretch
  rw [uniform_Ico hlow (sum_take_mono law.nonneg (Nat.le_succ t)) hhigh, hstep]
  ring

theorem measurable_stretch (law : Law ℝ n) (t : Fin n) : MeasurableSet (law.stretch t) :=
  measurableSet_Ico

theorem Chain.acceptAt_mem (c : Chain ℝ n) (drafts : List (Fin n)) (j : Nat) :
    0 ≤ c.acceptAt drafts j ∧ c.acceptAt drafts j ≤ 1 := by
  unfold Chain.acceptAt
  cases drafts[j]? with
  | none => exact ⟨zero_le_one, le_rfl⟩
  | some x =>
    constructor
    · apply le_min zero_le_one
      exact div_nonneg (Law.prob_nonneg _ _) (Law.prob_nonneg _ _)
    · exact min_le_left _ _

section Boxes

variable {i k : Nat} {a : Nat → ℝ} {S T : Set ℝ}

theorem prod_below (ha : ∀ j, 0 ≤ a j ∧ a j ≤ 1) :
    ∏ j ∈ Finset.range i, uniform.real (sides i k a S T j) = ∏ j ∈ Finset.range i, a j := by
  apply Finset.prod_congr rfl
  intro j hj
  unfold sides
  rw [if_pos (Finset.mem_range.mp hj)]
  exact uniform_Iio (ha j).1 (ha j).2

theorem prod_box (hi : i < k) (ha : ∀ j, 0 ≤ a j ∧ a j ≤ 1) :
    ∏ j : Fin (k + 1), uniform.real (sides i k a S T j) =
      (∏ j ∈ Finset.range i, a j) * uniform.real S * uniform.real T := by
  rw [prod_sides hi (fun j => uniform.real (sides i k a S T j)), prod_below ha]
  · congr 2
    · unfold sides
      rw [if_neg (lt_irrefl i), if_neg (Nat.ne_of_lt hi), if_pos rfl]
    · unfold sides
      rw [if_neg (by omega), if_pos rfl]
  · intro j hij hjk
    unfold sides
    rw [if_neg (by omega), if_neg (by omega), if_neg (by omega)]
    exact uniform_univ

theorem prod_box_last (ha : ∀ j, 0 ≤ a j ∧ a j ≤ 1) :
    ∏ j : Fin (k + 1), uniform.real (sides k k a S T j) =
      (∏ j ∈ Finset.range k, a j) * uniform.real T := by
  rw [Fin.prod_univ_eq_prod_range (fun j => uniform.real (sides k k a S T j)) (k + 1),
    Finset.prod_range_succ, prod_below ha]
  congr 2
  unfold sides
  rw [if_neg (lt_irrefl k), if_pos rfl]

end Boxes

section Events

variable {k i : Nat} {c : Chain ℝ n} {drafts : List (Fin n)}

/-- The chance that a position is reached, once the drafts are made. -/
theorem reaches_chance (hk : 0 < k) (hlength : drafts.length = k) (hdrawn : c.Drawn drafts)
    (hi : i ≤ k) :
    (uniforms (Fin (k + 1))).real {x | c.Reaches i drafts x} =
      ∏ j ∈ Finset.range i, c.acceptAt drafts j := by
  rw [uniforms_congr fun x hx => reaches_iff hk hlength hdrawn hi hx, uniforms_box]
  rcases hi.lt_or_eq with hi | rfl
  · rw [prod_box hi (c.acceptAt_mem drafts), uniform_univ, mul_one, mul_one]
  · rw [prod_box_last (c.acceptAt_mem drafts), uniform_univ, mul_one]

theorem emits_chance (hlength : drafts.length = k) (hdrawn : c.Drawn drafts) (hi : i < k)
    (hy : drafts[i]? = some y) :
    (uniforms (Fin (k + 1))).real {x | c.Emits i t drafts x} =
      (∏ j ∈ Finset.range i, c.acceptAt drafts j) *
        ((if y = t then c.accept (drafts.take i) y else 0) + (1 - c.accept (drafts.take i) y) *
            ((c.target (drafts.take i)).residual (c.proposal (drafts.take i))).prob t) := by
  have hat : c.acceptAt drafts i = c.accept (drafts.take i) y := by
    unfold Chain.acceptAt
    rw [hy]
  have hmem := c.acceptAt_mem drafts i
  rw [uniforms_congr fun x hx => emits_iff hlength hdrawn hi hy hx]
  by_cases hyt : y = t
  · simp only [hyt, true_and, if_true]
    rw [uniforms_boxes, prod_box hi (c.acceptAt_mem drafts), prod_box hi (c.acceptAt_mem drafts),
      uniform_Iio hmem.1 hmem.2, uniform_Ici hmem.1 hmem.2, uniform_univ, uniform_stretch, hat,
      hyt]
    · ring
    · intro j
      unfold sides
      split
      · exact measurableSet_Iio
      · split
        · exact measurable_stretch _ _
        · split
          · exact measurableSet_Ici
          · exact MeasurableSet.univ
    · -- The boxes are apart in the uniform of the position.
      refine ⟨(⟨i, hi⟩ : Fin k).castSucc, ?_⟩
      unfold sides
      rw [Fin.val_castSucc, if_neg (lt_irrefl i), if_neg (Nat.ne_of_lt hi), if_pos rfl,
        if_neg (lt_irrefl i), if_neg (Nat.ne_of_lt hi), if_pos rfl]
      exact Set.Iio_disjoint_Ici le_rfl
  · simp only [hyt, false_and, false_or, if_false, zero_add]
    rw [uniforms_box, prod_box hi (c.acceptAt_mem drafts), uniform_Ici hmem.1 hmem.2,
      uniform_stretch, hat]
    ring

theorem emits_last_chance (hk : 0 < k) (hlength : drafts.length = k) (hdrawn : c.Drawn drafts) :
    (uniforms (Fin (k + 1))).real {x | c.Emits k t drafts x} =
      (∏ j ∈ Finset.range k, c.acceptAt drafts j) * (c.target drafts).prob t := by
  rw [uniforms_congr fun x hx => emits_last_iff hk hlength hdrawn hx, uniforms_box,
    prod_box_last (c.acceptAt_mem drafts), uniform_stretch]

end Events

/-! ### Chances over the drafts -/

theorem drawn_of_possible {c : Chain ℝ n} {drafts : List (Fin n)}
    (h : Possible (fun e x => (c.proposal e).prob x) drafts) : c.Drawn drafts := by
  induction drafts generalizing c with
  | nil => trivial
  | cons x drafts ih =>
    obtain ⟨hx, hrest⟩ := h
    constructor
    · exact lt_of_le_of_ne (Law.prob_nonneg _ _) (Ne.symm hx)
    · exact @ih (c.after x) hrest

variable {e : List (Fin n)}

theorem acceptAt_append (c : Chain ℝ n) (drafts : List (Fin n)) {j : Nat} (hj : j < e.length) :
    c.acceptAt (e ++ drafts) j = c.acceptAt e j := by
  unfold Chain.acceptAt
  rw [getElem?_append_left hj, take_append_of_le_length hj.le]

theorem prod_acceptAt (c : Chain ℝ n) (drafts : List (Fin n)) {i : Nat} (he : e.length = i) :
    ∏ j ∈ Finset.range i, c.acceptAt (e ++ drafts) j =
      ∏ j ∈ Finset.range i, c.acceptAt e j := by
  apply Finset.prod_congr rfl
  intro j hj
  exact acceptAt_append c drafts (by rw [he]; exact Finset.mem_range.mp hj)

section Means

open Classical

variable {k i : Nat} {c : Chain ℝ n} {A : List (Fin n) → Prop}

theorem measure_and {ι : Type} [Fintype ι] (p : Prop) (event : (ι → ℝ) → Prop) :
    (uniforms ι).real {x | p ∧ event x} =
      (if p then 1 else 0) * (uniforms ι).real {x | event x} := by
  by_cases h : p
  · simp [h]
  · simp [h]

/-- The chance to reach a position, as a mean over the drafts before it. -/
theorem reaches_mean (hk : 0 < k) (hi : i ≤ k) :
    (c.chance k fun drafts x => A (drafts.take i) ∧ c.Reaches i drafts x) =
      c.meanDrafts i fun e =>
        (if A e then 1 else 0) * ∏ j ∈ Finset.range i, c.acceptAt e j := by
  unfold Chain.chance Chain.meanDrafts
  simp only [measure_and]
  apply mean_first (fun e => (c.proposal e).sum_prob) hi
  intro e ds he hlength hds
  rw [take_left' he, reaches_chance hk hlength (drawn_of_possible hds) hi,
    prod_acceptAt c ds he]

/-- The chance to emit a token, as a mean over the drafts before its position. -/
theorem emits_mean (hk : 0 < k) (hi : i ≤ k) (t : Fin n) :
    (c.chance k fun drafts x => A (drafts.take i) ∧ c.Emits i t drafts x) =
      c.meanDrafts i fun e =>
        ((if A e then 1 else 0) * ∏ j ∈ Finset.range i, c.acceptAt e j) *
          (c.target e).prob t := by
  unfold Chain.chance Chain.meanDrafts
  simp only [measure_and]
  rcases hi.lt_or_eq with hi | rfl
  · -- Before the end: the draft of the position is summed over, and the balance is left.
    rw [mean_next (g := fun e y => ((if A e then 1 else 0) *
      ∏ j ∈ Finset.range i, c.acceptAt e j) *
        ((if y = t then c.accept e y else 0) +
          (1 - c.accept e y) * ((c.target e).residual (c.proposal e)).prob t))
      (fun e => (c.proposal e).sum_prob) hi]
    · apply mean_congr
      intro e _ _
      rw [← balance (c.target e) (c.proposal e) t, Finset.mul_sum]
      apply Finset.sum_congr rfl
      intro y _
      unfold Chain.accept
      ring
    · intro e y ds he hlength hds
      have hy : (e ++ y :: ds)[i]? = some y := by
        rw [← he]
        simp
      rw [take_left' he, emits_chance hlength (drawn_of_possible hds) hi hy,
        take_left' he, prod_acceptAt c (y :: ds) he]
      ring
  · -- At the end the target itself is sampled.
    apply mean_congr
    intro ds hlength hds
    rw [← hlength, take_length]
    rw [hlength, emits_last_chance hk hlength (drawn_of_possible hds)]
    ring

/-- At a position whose target is the same for all earlier drafts in question, the token has the
    law of that target. -/
theorem emits_chance_of_target (hk : 0 < k) (hi : i ≤ k) {law : Law ℝ n} (t : Fin n)
    (hA : ∀ e, e.length = i → A e → c.target e = law) :
    (c.chance k fun drafts x => A (drafts.take i) ∧ c.Emits i t drafts x) =
      (c.chance k fun drafts x => A (drafts.take i) ∧ c.Reaches i drafts x) * law.prob t := by
  rw [emits_mean hk hi, reaches_mean hk hi]
  unfold Chain.meanDrafts
  rw [← mean_mul]
  apply mean_congr
  intro e he _
  by_cases h : A e
  · rw [hA e he h]
  · simp [h]

end Means

/-! ### Exactness -/

/-- The call returns, and there is a token at every position that is reached. -/
theorem outcome_tokens {k : Nat} {c : Chain ℝ n} (hk : 0 < k) {drafts : List (Fin n)}
    (hlength : drafts.length = k) (hdrawn : c.Drawn drafts) {x : Fin (k + 1) → ℝ}
    (hx : ∀ j, x j ∈ Set.Ico (0 : ℝ) 1) :
    ∃ out, c.outcome drafts x = .ok out ∧ out.acceptedDrafts ≤ k ∧
      ∀ i ≤ out.acceptedDrafts, ∃ t, c.Emits i t drafts x := by
  have hkept : c.kept drafts (acceptanceUniforms x) ≤ drafts.length := Chain.kept_le
  refine ⟨_, outcome_eq hk hlength hdrawn hx, hkept.trans hlength.le, ?_⟩
  intro i hi
  simp only [emits_cases hk hlength hdrawn hx]
  rcases Nat.lt_or_eq_of_le hi with hlt | heq
  · exact ⟨drafts[i], Or.inl ⟨hlt, getElem?_eq_getElem _⟩⟩
  · obtain ⟨t, ht⟩ := (c.nextLaw drafts (acceptanceUniforms x)).exists_stretch (hx (Fin.last k))
    exact ⟨t, Or.inr ⟨heq.symm, ht⟩⟩

theorem chance_sure {k : Nat} (c : Chain ℝ n) : (c.chance k fun _ _ => True) = 1 := by
  have hmeasure : (uniforms (Fin (k + 1))).real {_x | True} = 1 := by
    have hbox := uniforms_box fun _ : Fin (k + 1) => (Set.univ : Set ℝ)
    simpa [uniform_univ] using hbox
  unfold Chain.chance Chain.meanDrafts
  simp only [hmeasure]
  exact mean_const (fun e => (c.proposal e).sum_prob) k 1

/-- **Speculative sampling is exact.**  Drafts from the proposals and independent uniforms make
    `verify_stochastic_chain` return; and at a position that is reached, the token has the law of
    the target there, given the earlier drafts.  Where the target does not depend on them, it has
    that law outright. -/
theorem speculative_sampling_exact (c : Chain ℝ n) {k : Nat} (hk : 0 < k) :
    (c.chance k fun _ _ => True) = 1 ∧
    (∀ drafts : List (Fin n), drafts.length = k → c.Drawn drafts →
      ∀ x : Fin (k + 1) → ℝ, (∀ j, x j ∈ Set.Ico (0 : ℝ) 1) →
        ∃ out, c.outcome drafts x = .ok out ∧ out.acceptedDrafts ≤ k ∧
          ∀ i ≤ out.acceptedDrafts, ∃ t, c.Emits i t drafts x) ∧
    (∀ earlier : List (Fin n), earlier.length ≤ k → ∀ t,
      (c.chance k fun drafts x =>
        drafts.take earlier.length = earlier ∧ c.Emits earlier.length t drafts x) =
      (c.chance k fun drafts x =>
        drafts.take earlier.length = earlier ∧ c.Reaches earlier.length drafts x) *
          (c.target earlier).prob t) ∧
    ∀ i ≤ k, ∀ law : Law ℝ n, (∀ earlier, earlier.length = i → c.target earlier = law) → ∀ t,
      (c.chance k fun drafts x => c.Emits i t drafts x) =
        (c.chance k fun drafts x => c.Reaches i drafts x) * law.prob t := by
  refine ⟨chance_sure c, ?_, ?_, ?_⟩
  · intro drafts hlength hdrawn x hx
    exact outcome_tokens hk hlength hdrawn hx
  · intro earlier hlength t
    apply emits_chance_of_target (A := (· = earlier)) hk hlength t
    rintro e - rfl
    rfl
  · intro i hi law hlaw t
    have h := @emits_chance_of_target n k i c (fun _ => True) hk hi law t
      fun e he _ => hlaw e he
    simpa only [true_and] using h

theorem fair_nonneg : ∀ p ∈ ([(1 / 2 : ℚ), (1 / 2 : ℚ)] : List ℝ), 0 ≤ p := by norm_num

theorem fair_sum : ([(1 / 2 : ℚ), (1 / 2 : ℚ)] : List ℝ).sum = 1 := by norm_num

theorem biased_nonneg : ∀ p ∈ ([1 / 4, 3 / 4] : List ℝ), 0 ≤ p := by norm_num

theorem biased_sum : ([1 / 4, 3 / 4] : List ℝ).sum = 1 := by norm_num

/-- A fair proposal for a biased target. -/
noncomputable def coin : Chain ℝ 2 where
  proposal _ :=
    { probabilities := [(1 / 2 : ℚ), (1 / 2 : ℚ)]
      length_eq := rfl
      nonneg := fair_nonneg
      sum_eq := fair_sum }
  target _ :=
    { probabilities := [1 / 4, 3 / 4]
      length_eq := rfl
      nonneg := biased_nonneg
      sum_eq := biased_sum }

theorem speculative_sampling_exact_coin :
    (coin.chance 1 fun drafts x => coin.Emits 0 0 drafts x) = 1 / 4 := by
  have hexact := (speculative_sampling_exact coin Nat.one_pos).2.2.2 0 (Nat.zero_le 1)
    (coin.target []) (fun _ _ => rfl) 0
  have hreaches := @reaches_mean 2 1 0 coin (fun _ => True) Nat.one_pos (Nat.zero_le 1)
  simp only [true_and] at hreaches
  rw [hexact, hreaches]
  simp [Chain.meanDrafts, mean, Law.prob, coin]

end TyloQuant.Mtp
