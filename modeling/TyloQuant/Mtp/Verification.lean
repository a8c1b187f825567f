import TyloQuant.Mtp.Policy

/-!
# What a verification comes to

For distributions that sum to one and uniforms in range nothing throws: `sample` finds the token
in whose stretch of the cumulative sum the uniform lies, and the chain keeps the drafts up to the
first whose uniform misses its acceptance.
-/

namespace TyloQuant.Mtp

open List

variable {K : Type} [Field K] [LinearOrder K]

/-- A probability vector over `n` tokens. -/
structure Law (K : Type) [Field K] [LinearOrder K] (n : Nat) where
  probabilities : List K
  length_eq : probabilities.length = n
  nonneg : ∀ p ∈ probabilities, 0 ≤ p
  sum_eq : probabilities.sum = 1

variable {n : Nat}

/-- The probability of a token. -/
def Law.prob (law : Law K n) (token : Fin n) : K := law.probabilities.getD token 0

theorem Law.prob_nonneg (law : Law K n) (token : Fin n) : 0 ≤ law.prob token := by
  unfold Law.prob
  rw [getD_eq_getElem _ _ (by rw [law.length_eq]; exact token.isLt)]
  exact law.nonneg _ (getElem_mem _)

theorem sum_getD {M : Type} [AddCommMonoid M] {ps : List M} (hlength : ps.length = n) :
    ∑ x : Fin n, ps.getD x 0 = ps.sum := by
  subst hlength
  rw [← Fin.sum_univ_getElem]
  apply Finset.sum_congr rfl
  intro x _
  exact getD_eq_getElem _ _ x.isLt

theorem Law.sum_prob (law : Law K n) : ∑ x, law.prob x = 1 := by
  rw [← law.sum_eq]
  exact sum_getD law.length_eq

/-- The part of the target above the proposal. -/
def excess (target proposal : Law K n) (x : Fin n) : K := max 0 (target.prob x - proposal.prob x)

theorem excess_nonneg (target proposal : Law K n) (x : Fin n) : 0 ≤ excess target proposal x :=
  le_max_left _ _

theorem zipWith_getD (target proposal : Law K n) (x : Fin n) :
    (List.zipWith (fun p q => max 0 (p - q)) target.probabilities
      proposal.probabilities).getD x 0 = excess target proposal x := by
  have hp : x.val < target.probabilities.length := by
    rw [target.length_eq]
    exact x.isLt
  have hq : x.val < proposal.probabilities.length := by
    rw [proposal.length_eq]
    exact x.isLt
  unfold excess Law.prob
  rw [getD_eq_getElem _ _ (by simp [hp, hq]), getElem_zipWith,
    getD_eq_getElem _ _ hp, getD_eq_getElem _ _ hq]

theorem zipWith_sum (target proposal : Law K n) :
    (List.zipWith (fun p q => max 0 (p - q)) target.probabilities
      proposal.probabilities).sum = ∑ x, excess target proposal x := by
  have hlength : (List.zipWith (fun p q => max 0 (p - q)) target.probabilities
      proposal.probabilities).length = n := by
    simp [target.length_eq, proposal.length_eq]
  rw [← sum_getD hlength]
  apply Finset.sum_congr rfl
  intro x _
  exact zipWith_getD target proposal x

variable [IsStrictOrderedRing K]

/-! ### Sampling -/

theorem sum_take_mono {ps : List K} (hps : ∀ p ∈ ps, 0 ≤ p) {i j : Nat} (hij : i ≤ j) :
    (ps.take i).sum ≤ (ps.take j).sum := by
  have hsplit : ps.take j = ps.take i ++ (ps.drop i).take (j - i) := by
    rw [← take_add]
    congr 1
    omega
  rw [hsplit, sum_append]
  have hrest : 0 ≤ ((ps.drop i).take (j - i)).sum := by
    apply sum_nonneg
    intro p hp
    exact hps p (mem_of_mem_drop (mem_of_mem_take hp))
  linarith

/-- The loop ends at the token in whose stretch the uniform lies. -/
theorem sampleLoop_spec {ps : List K} (hps : ∀ p ∈ ps, 0 ≤ p) {u c : K} {index : Nat}
    {fallback : Int} (hlow : c ≤ u) (hhigh : u < c + ps.sum) :
    ∃ t, t < ps.length ∧ sampleLoop u ps index c fallback = ((index + t : Nat) : Int) ∧
      c + (ps.take t).sum ≤ u ∧ u < c + (ps.take (t + 1)).sum := by
  induction ps generalizing c index fallback with
  | nil =>
    simp only [sum_nil, add_zero] at hhigh
    exact absurd hlow (not_le.mpr hhigh)
  | cons p ps ih =>
    have hp := hps p mem_cons_self
    have hrest : ∀ p ∈ ps, 0 ≤ p := fun q hq => hps q (mem_cons_of_mem p hq)
    rw [sum_cons] at hhigh
    unfold sampleLoop
    by_cases hzero : p ≤ 0
    · obtain rfl : p = 0 := le_antisymm hzero hp
      rw [if_pos le_rfl]
      obtain ⟨t, ht, hloop, hlo, hhi⟩ := @ih hrest c (index + 1) fallback hlow (by linarith)
      refine ⟨t + 1, ?_, ?_, ?_, ?_⟩
      · simpa using ht
      · rw [hloop]
        congr 1
        omega
      · simpa using hlo
      · simpa using hhi
    · rw [if_neg hzero]
      by_cases hhere : u < c + p
      · rw [if_pos hhere]
        refine ⟨0, ?_, ?_, ?_, ?_⟩
        · simp
        · simp
        · simpa using hlow
        · simpa using hhere
      · rw [if_neg hhere]
        obtain ⟨t, ht, hloop, hlo, hhi⟩ :=
          @ih hrest (c + p) (index + 1) index (not_lt.mp hhere) (by linarith)
        refine ⟨t + 1, ?_, ?_, ?_, ?_⟩
        · simpa using ht
        · rw [hloop]
          congr 1
          omega
        · rw [take_succ_cons, sum_cons]
          linarith
        · rw [take_succ_cons, sum_cons]
          linarith

/-- The token that a uniform picks. -/
def pick (ps : List K) (u : K) : Int := sampleLoop u ps 0 0 (-1)

theorem pick_eq_iff {ps : List K} (hps : ∀ p ∈ ps, 0 ≤ p) {u : K} (hlow : 0 ≤ u)
    (hhigh : u < ps.sum) (t : Nat) :
    pick ps u = t ↔ u ∈ Set.Ico (ps.take t).sum (ps.take (t + 1)).sum := by
  obtain ⟨t', -, hloop, hlo, hhi⟩ :=
    @sampleLoop_spec K _ _ _ ps hps u 0 0 (-1) hlow (by simpa using hhigh)
  simp only [zero_add] at hloop hlo hhi
  unfold pick
  rw [hloop]
  constructor
  · intro h
    obtain rfl : t' = t := by exact_mod_cast h
    exact ⟨hlo, hhi⟩
  · rintro ⟨hlo', hhi'⟩
    -- Two stretches that share a point are the same stretch.
    rcases Nat.lt_trichotomy t' t with hlt | rfl | hgt
    · exact absurd (lt_of_lt_of_le hhi (sum_take_mono hps hlt)) (not_lt.mpr hlo')
    · rfl
    · exact absurd (lt_of_lt_of_le hhi' (sum_take_mono hps hgt)) (not_lt.mpr hlo)

/-- The stretch of the cumulative sum that belongs to a token. -/
def Law.stretch (law : Law K n) (t : Fin n) : Set K :=
  Set.Ico (law.probabilities.take t).sum (law.probabilities.take (t + 1)).sum

theorem Law.pick_eq_iff {law : Law K n} {u : K} (hu : u ∈ Set.Ico (0 : K) 1) {t : Fin n} :
    pick law.probabilities u = (t.val : Int) ↔ u ∈ law.stretch t := by
  apply Mtp.pick_eq_iff law.nonneg hu.1
  rw [law.sum_eq]
  exact hu.2

/-- Every uniform lies in the stretch of some token. -/
theorem Law.exists_stretch (law : Law K n) {u : K} (hu : u ∈ Set.Ico (0 : K) 1) :
    ∃ t, u ∈ law.stretch t := by
  have hhigh : u < 0 + law.probabilities.sum := by
    rw [zero_add, law.sum_eq]
    exact hu.2
  obtain ⟨t, ht, -, hlo, hhi⟩ :=
    @sampleLoop_spec K _ _ _ law.probabilities law.nonneg u 0 0 (-1) hu.1 hhigh
  rw [law.length_eq] at ht
  rw [zero_add] at hlo hhi
  exact ⟨⟨t, ht⟩, hlo, hhi⟩

theorem validateDistribution_ok {ps : List K} (hps : ∀ p ∈ ps, 0 ≤ p) (hsum : ps.sum = 1) :
    validateDistribution ps = .ok () := by
  have hne : ps ≠ [] := by
    rintro rfl
    simp at hsum
  unfold validateDistribution
  rw [if_neg, if_neg]
  · rw [hsum]
    simp [hne]
  · simpa using hps

theorem sample_eq_pick {ps : List K} (hps : ∀ p ∈ ps, 0 ≤ p) (hsum : ps.sum = 1) {u : K}
    (hlow : 0 ≤ u) (hhigh : u < 1) : sample ps u = .ok (pick ps u) := by
  have hclamp : clampUniform u = u := by
    unfold clampUniform
    rw [if_neg (not_lt.mpr hlow), if_pos hhigh]
  unfold sample
  rw [validateDistribution_ok hps hsum, hclamp]
  rfl

/-! ### The residual -/

/-- What is drawn from after a rejected draft is a probability vector again. -/
def Law.residual (target proposal : Law K n) : Law K n where
  probabilities := correction target.probabilities proposal.probabilities
  length_eq := by
    unfold correction
    dsimp only
    split
    · simp [target.length_eq, proposal.length_eq]
    · exact target.length_eq
  nonneg := by
    unfold correction
    dsimp only
    split
    · rename_i hpos
      intro p hp
      obtain ⟨q, hq, rfl⟩ := mem_map.mp hp
      apply div_nonneg _ hpos.le
      obtain ⟨i, hi, rfl⟩ := mem_iff_getElem.mp hq
      rw [getElem_zipWith]
      exact le_max_left _ _
    · exact target.nonneg
  sum_eq := by
    unfold correction
    dsimp only
    split
    · rename_i hpos
      simp only [div_eq_mul_inv, sum_map_mul_right]
      rw [map_id', ← div_eq_mul_inv]
      exact div_self hpos.ne'
    · exact target.sum_eq

theorem Law.residual_prob {target proposal : Law K n} (x : Fin n)
    (hpos : 0 < ∑ x, excess target proposal x) :
    (target.residual proposal).prob x =
      excess target proposal x / ∑ x, excess target proposal x := by
  have hx : x.val < (List.zipWith (fun p q => max 0 (p - q)) target.probabilities
      proposal.probabilities).length := by
    simp [target.length_eq, proposal.length_eq]
  have hcorrection : correction target.probabilities proposal.probabilities =
      (List.zipWith (fun p q => max 0 (p - q)) target.probabilities
        proposal.probabilities).map (· / ∑ x, excess target proposal x) := by
    unfold correction
    dsimp only
    rw [zipWith_sum, if_pos hpos]
  show (correction target.probabilities proposal.probabilities).getD x 0 = _
  rw [hcorrection, getD_eq_getElem _ _ (by simpa using hx), getElem_map,
    ← zipWith_getD, getD_eq_getElem _ _ hx]

/-! ### The chain -/

/-- The proposals and the targets, each given the drafts before its position. -/
structure Chain (K : Type) [Field K] [LinearOrder K] (n : Nat) where
  proposal : List (Fin n) → Law K n
  target : List (Fin n) → Law K n

namespace Chain

/-- The chain once the first draft is made. -/
def after (c : Chain K n) (x : Fin n) : Chain K n where
  proposal e := c.proposal (x :: e)
  target e := c.target (x :: e)

/-- The call of `verify_stochastic_chain` for these drafts. -/
def verify (c : Chain K n) (drafts : List (Fin n)) (acceptanceUniforms : List K)
    (sampleUniform : K) : Except String ChainVerification :=
  verifyStochasticChain (drafts.map fun x => (x.val : Int))
    ((List.range drafts.length).map fun i => (c.proposal (drafts.take i)).probabilities)
    ((List.range (drafts.length + 1)).map fun i => (c.target (drafts.take i)).probabilities)
    acceptanceUniforms sampleUniform

/-- The chance to keep a draft. -/
def accept (c : Chain K n) (earlier : List (Fin n)) (x : Fin n) : K :=
  min 1 ((c.target earlier).prob x / (c.proposal earlier).prob x)

/-- How many drafts are kept. -/
def kept (c : Chain K n) : List (Fin n) → List K → Nat
  | x :: drafts, u :: us => if u < c.accept [] x then (c.after x).kept drafts us + 1 else 0
  | _, _ => 0

/-- The law of the token after them. -/
def nextLaw (c : Chain K n) : List (Fin n) → List K → Law K n
  | x :: drafts, u :: us =>
    if u < c.accept [] x then (c.after x).nextLaw drafts us
    else (c.target []).residual (c.proposal [])
  | _, _ => c.target []

/-- Every draft had a chance to be made. -/
def Drawn (c : Chain K n) : List (Fin n) → Prop
  | [] => True
  | x :: drafts => 0 < (c.proposal []).prob x ∧ (c.after x).Drawn drafts

section Steps

variable {c : Chain K n} {x : Fin n} {drafts : List (Fin n)} {u : K} {us : List K}

omit [IsStrictOrderedRing K] in
theorem kept_accept (h : u < c.accept [] x) :
    c.kept (x :: drafts) (u :: us) = (c.after x).kept drafts us + 1 :=
  if_pos h

omit [IsStrictOrderedRing K] in
theorem kept_reject (h : ¬u < c.accept [] x) : c.kept (x :: drafts) (u :: us) = 0 :=
  if_neg h

theorem nextLaw_accept (h : u < c.accept [] x) :
    c.nextLaw (x :: drafts) (u :: us) = (c.after x).nextLaw drafts us :=
  if_pos h

theorem nextLaw_reject (h : ¬u < c.accept [] x) :
    c.nextLaw (x :: drafts) (u :: us) = (c.target []).residual (c.proposal []) :=
  if_neg h

end Steps

/-- **The loop** in closed form. -/
theorem verifyLoop_eq {c : Chain K n} {drafts : List (Fin n)} {us : List K} {v : K}
    {position : Nat} (hdrawn : c.Drawn drafts) (hlength : us.length = drafts.length)
    (hus : ∀ u ∈ us, 0 ≤ u ∧ u < 1) (hv : 0 ≤ v ∧ v < 1) :
    verifyLoop v position (drafts.map fun x => (x.val : Int))
      ((List.range drafts.length).map fun i => (c.proposal (drafts.take i)).probabilities)
      ((List.range (drafts.length + 1)).map fun i => (c.target (drafts.take i)).probabilities) us =
      .ok { acceptedDrafts := position + c.kept drafts us
            nextToken := pick (c.nextLaw drafts us).probabilities v
            bonus := decide (c.kept drafts us = drafts.length) } := by
  induction drafts generalizing c us position with
  | nil =>
    obtain rfl : us = [] := eq_nil_of_length_eq_zero hlength
    simp only [map_nil, length_nil, range_zero, range_one, map_cons,
      take_nil, zero_add]
    unfold verifyLoop
    rw [validateDistribution_ok (c.target []).nonneg (c.target []).sum_eq,
      sample_eq_pick (c.target []).nonneg (c.target []).sum_eq hv.1 hv.2]
    rfl
  | cons x drafts ih =>
    cases us with
    | nil => simp at hlength
    | cons u us =>
      obtain ⟨hpos, hrest⟩ := hdrawn
      have hu := hus u mem_cons_self
      have hlength' : us.length = drafts.length := by simpa using hlength
      rw [length_cons, range_succ_eq_map, range_succ_eq_map]
      simp only [map_cons, map_map, take_zero]
      unfold verifyLoop
      have hsize : ∀ law : Law K n, law.probabilities.length = n := Law.length_eq
      have hne : (c.proposal []).probabilities ≠ [] := by
        intro hnil
        have hn := hsize (c.proposal [])
        rw [hnil, length_nil] at hn
        exact absurd x.isLt (by omega)
      have hshape : ¬((c.proposal []).probabilities.isEmpty = true ∨
          (c.proposal []).probabilities.length ≠ (c.target []).probabilities.length ∨
          (x.val : Int) < 0 ∨ ((c.proposal []).probabilities.length : Int) ≤ (x.val : Int)) := by
        rw [hsize, hsize]
        have := x.isLt
        simp [hne]
      have hq : ¬(c.proposal []).probabilities.getD x.val 0 ≤ 0 := not_le.mpr hpos
      have hclamp : clampUniform u = u := by
        unfold clampUniform
        rw [if_neg (not_lt.mpr hu.1), if_pos hu.2]
      rw [if_neg hshape, validateDistribution_ok (c.proposal []).nonneg (c.proposal []).sum_eq,
        validateDistribution_ok (c.target []).nonneg (c.target []).sum_eq]
      simp only [Int.toNat_natCast]
      rw [hclamp]
      show (if _ then _ else if u < c.accept [] x then _ else _) = _
      rw [if_neg hq]
      by_cases haccept : u < c.accept [] x
      · rw [if_pos haccept]
        have hloop := @ih (c.after x) us (position + 1) hrest hlength' fun u' hu' =>
          hus u' (mem_cons_of_mem u hu')
        rw [kept_accept haccept, nextLaw_accept haccept]
        simp only [Nat.add_right_cancel_iff]
        rw [← Nat.add_assoc, Nat.add_right_comm]
        exact hloop
      · rw [if_neg haccept, kept_reject haccept, nextLaw_reject haccept]
        have hresidual := sample_eq_pick ((c.target []).residual (c.proposal [])).nonneg
          ((c.target []).residual (c.proposal [])).sum_eq hv.1 hv.2
        show (sample ((c.target []).residual (c.proposal [])).probabilities v >>= _) = _
        rw [hresidual]
        rfl

/-- **A verification** in closed form. -/
theorem verify_eq {c : Chain K n} {drafts : List (Fin n)} {us : List K} {v : K}
    (hsome : drafts ≠ []) (hdrawn : c.Drawn drafts) (hlength : us.length = drafts.length)
    (hus : ∀ u ∈ us, 0 ≤ u ∧ u < 1) (hv : 0 ≤ v ∧ v < 1) :
    c.verify drafts us v = .ok
          { acceptedDrafts := c.kept drafts us
            nextToken := pick (c.nextLaw drafts us).probabilities v
            bonus := decide (c.kept drafts us = drafts.length) } := by
  unfold verify verifyStochasticChain
  rw [if_neg (by simp [hsome, hlength]), verifyLoop_eq hdrawn hlength hus hv, zero_add]

/-! ### Positions -/

/-- The uniforms of the first drafts all lie below their acceptances. -/
def Passes (c : Chain K n) : Nat → List (Fin n) → List K → Prop
  | 0, _, _ => True
  | i + 1, x :: drafts, u :: us => u < c.accept [] x ∧ (c.after x).Passes i drafts us
  | _ + 1, _, _ => False

omit [IsStrictOrderedRing K] in
theorem le_kept_iff {c : Chain K n} {drafts : List (Fin n)} {us : List K} {i : Nat} :
    i ≤ c.kept drafts us ↔ c.Passes i drafts us := by
  induction drafts generalizing c us i with
  | nil => cases i <;> simp [kept, Passes]
  | cons x drafts ih =>
    cases us with
    | nil => cases i <;> simp [kept, Passes]
    | cons u us =>
      cases i with
      | zero => simp [Passes]
      | succ i =>
        by_cases h : u < c.accept [] x
        · simp [kept_accept h, Passes, h, ih]
        · simp [kept_reject h, Passes, h]

omit [IsStrictOrderedRing K] in
theorem kept_le {c : Chain K n} {drafts : List (Fin n)} {us : List K} :
    c.kept drafts us ≤ drafts.length := by
  induction drafts generalizing c us with
  | nil => simp [kept]
  | cons x drafts ih =>
    cases us with
    | nil => simp [kept]
    | cons u us =>
      by_cases h : u < c.accept [] x
      · rw [kept_accept h]
        simpa using ih
      · rw [kept_reject h]
        exact Nat.zero_le _

/-- The acceptance at a position. -/
def acceptAt (c : Chain K n) (drafts : List (Fin n)) (j : Nat) : K :=
  match drafts[j]? with
  | some x => c.accept (drafts.take j) x
  | none => 1

omit [IsStrictOrderedRing K] in
theorem passes_iff {c : Chain K n} {drafts : List (Fin n)} {us : List K} {i : Nat}
    (hlength : us.length = drafts.length) (hi : i ≤ drafts.length) :
    c.Passes i drafts us ↔ ∀ j u, j < i → us[j]? = some u → u < c.acceptAt drafts j := by
  induction drafts generalizing c us i with
  | nil =>
    obtain rfl : i = 0 := by simpa using hi
    simp [Passes]
  | cons x drafts ih =>
    cases us with
    | nil => simp at hlength
    | cons u us =>
      cases i with
      | zero => simp [Passes]
      | succ i =>
        have hrest := @ih (c.after x) us i (by simpa using hlength) (by simpa using hi)
        unfold Passes
        rw [hrest]
        constructor
        · rintro ⟨hfirst, hothers⟩ j u' hj hu'
          cases j with
          | zero =>
            obtain rfl : u = u' := by simpa using hu'
            exact hfirst
          | succ j => exact hothers j u' (by omega) (by simpa using hu')
        · intro h
          constructor
          · exact h 0 u (Nat.succ_pos i) rfl
          · intro j u' hj hu'
            exact h (j + 1) u' (by omega) (by simpa using hu')

/-- The law of the token at the position of the first rejected draft. -/
theorem nextLaw_of_kept {c : Chain K n} {drafts : List (Fin n)} {us : List K} {i : Nat}
    (hlength : us.length = drafts.length) (hkept : c.kept drafts us = i)
    (hi : i < drafts.length) :
    c.nextLaw drafts us =
      (c.target (drafts.take i)).residual (c.proposal (drafts.take i)) := by
  induction drafts generalizing c us i with
  | nil => simp at hi
  | cons x drafts ih =>
    cases us with
    | nil => simp at hlength
    | cons u us =>
      by_cases h : u < c.accept [] x
      · rw [kept_accept h] at hkept
        subst hkept
        rw [nextLaw_accept h]
        exact ih (by simpa using hlength) rfl (by simpa using hi)
      · rw [kept_reject h] at hkept
        subst hkept
        rw [nextLaw_reject h]
        rfl

theorem nextLaw_of_all {c : Chain K n} {drafts : List (Fin n)} {us : List K}
    (hlength : us.length = drafts.length) (hkept : c.kept drafts us = drafts.length) :
    c.nextLaw drafts us = c.target drafts := by
  induction drafts generalizing c us with
  | nil => rfl
  | cons x drafts ih =>
    cases us with
    | nil => simp at hlength
    | cons u us =>
      by_cases h : u < c.accept [] x
      · rw [kept_accept h] at hkept
        rw [nextLaw_accept h]
        exact ih (by simpa using hlength) (by simpa using hkept)
      · rw [kept_reject h] at hkept
        simp at hkept

end Chain

end TyloQuant.Mtp
