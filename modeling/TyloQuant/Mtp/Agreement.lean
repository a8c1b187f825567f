import TyloQuant.Mtp.Compact

/-!
# Short lists and whole vocabularies

A list in ascending order and its expansion over the vocabulary are the same to everything that
passes over zeros: the checks, the sum, the loop of `sample`.  The residual of two lists expands
to the correction of the expansions, so the two chains decide alike.
-/

namespace TyloQuant.Mtp

open Lib List

variable {K : Type} [Field K] [LinearOrder K]

/-! ### What passes over zeros -/

namespace Expands

variable {i : Nat} {entries : List (Int × K)} {ps : List K}

omit [LinearOrder K] in
theorem sum_eq (h : Expands i entries ps) : ps.sum = (entries.map Prod.snd).sum := by
  induction h with
  | nil => rfl
  | listed _ ih => rw [sum_cons, ih, map_cons, sum_cons]
  | absent _ ih => rw [sum_cons, ih, zero_add]

theorem nonneg_iff (h : Expands i entries ps) : (∀ p ∈ ps, 0 ≤ p) ↔ ∀ e ∈ entries, 0 ≤ e.2 := by
  induction h with
  | nil => simp
  | listed _ ih => rw [forall_mem_cons, forall_mem_cons, ih]
  | absent _ ih => rw [forall_mem_cons, ih, and_iff_right le_rfl]

theorem sampleLoop_eq (h : Expands i entries ps) (uniform cumulative : K) (fallback : Int) :
    sampleLoop uniform ps i cumulative fallback
      = sampleCompactLoop uniform entries cumulative fallback := by
  induction h generalizing cumulative fallback with
  | nil => rfl
  | @listed i p entries ps _ ih =>
    rw [sampleLoop, sampleCompactLoop, ih, ih]
  | @absent i entries ps _ ih => rw [sampleLoop, if_pos le_rfl, ih]

end Expands

theorem sampleCompactLoop_fallback {entries : List (Int × K)} (h : ∃ e ∈ entries, 0 < e.2)
    (uniform cumulative : K) (fallback other : Int) :
    sampleCompactLoop uniform entries cumulative fallback
      = sampleCompactLoop uniform entries cumulative other := by
  induction entries with
  | nil =>
    obtain ⟨e, he, -⟩ := h
    cases he
  | cons e entries ih =>
    obtain ⟨token, p⟩ := e
    rw [sampleCompactLoop, sampleCompactLoop]
    by_cases hp : p ≤ 0
    · rw [if_pos hp, if_pos hp]
      apply ih
      obtain ⟨e, he, hpos⟩ := h
      rcases mem_cons.mp he with rfl | he
      · exact absurd hp (not_le.mpr hpos)
      · exact ⟨e, he, hpos⟩
    · rw [if_neg hp, if_neg hp]

/-! ### One list -/

variable {token : Int}

namespace CompactDistribution

variable {vocab : Nat} {d : CompactDistribution K}

/-- The order that `validate_compact_distribution` asks for. -/
def Ascending (d : CompactDistribution K) : Prop := d.tokens.Pairwise (· ≤ ·)

section

omit [LinearOrder K]

omit [Field K] in
theorem Over.entries_fst (h : d.Over vocab) : d.entries.map Prod.fst = d.tokens :=
  map_fst_zip h.length_eq.le

omit [Field K] in
theorem Over.entries_snd (h : d.Over vocab) : d.entries.map Prod.snd = d.probabilities :=
  map_snd_zip h.length_eq.ge

omit [Field K] in
theorem Over.entries_ascending (h : d.Over vocab) (hasc : d.Ascending) :
    d.entries.Pairwise fun a b => a.1 < b.1 := by
  have hlt : d.tokens.Pairwise (· < ·) := by
    apply (hasc.and h.nodup).imp
    intro a b hab
    exact lt_of_le_of_ne hab.1 hab.2
  rw [← h.entries_fst, pairwise_map] at hlt
  exact hlt

theorem Over.expands (h : d.Over vocab) (hasc : d.Ascending) :
    Expands 0 d.entries (d.dense vocab) := by
  unfold dense
  rw [range_eq_range']
  apply expands_range (h.entries_ascending hasc)
  intro e he
  have htoken : e.1 ∈ d.tokens := by
    rw [← h.entries_fst]
    exact mem_map_of_mem he
  have := h.inVocab e.1 htoken
  omega

theorem dense_length : (d.dense vocab).length = vocab := by
  unfold dense
  rw [length_map, List.length_range]

theorem lookup_zip {tokens : List Int} {probabilities : List K}
    (hlength : tokens.length = probabilities.length) (hasc : tokens.Pairwise (· ≤ ·)) :
    (if tokens[lowerBound tokens token]? = some token
      then probabilities.getD (lowerBound tokens token) 0 else 0)
      = ((tokens.zip probabilities).lookup token).getD 0 := by
  induction tokens generalizing probabilities with
  | nil => simp
  | cons t tokens ih =>
    cases probabilities with
    | nil => cases hlength
    | cons p probabilities =>
      rw [pairwise_cons] at hasc
      rw [length_cons, length_cons] at hlength
      unfold lowerBound at ih ⊢
      rw [findIdx_cons, zip_cons_cons, lookup_cons]
      rcases lt_trichotomy token t with hlt | rfl | hgt
      · have hrest : (tokens.zip probabilities).lookup token = none := by
          apply lookup_of_lt
          intro e he
          exact lt_of_lt_of_le hlt (hasc.1 e.1 (of_mem_zip he).1)
        have hne : (token == t) = false := beq_eq_false_iff_ne.mpr hlt.ne
        rw [hne, hrest]
        simp [hlt.le, hlt.ne']
      · simp
      · have hne : (token == t) = false := beq_eq_false_iff_ne.mpr hgt.ne'
        rw [hne, ← ih (by omega) hasc.2]
        simp [not_le.mpr hgt]

/-- In an ascending list `lower_bound` finds a token that is there. -/
theorem Over.probability_eq (h : d.Over vocab) (hasc : d.Ascending) (token : Int) :
    d.probability token = (d.entries.lookup token).getD 0 :=
  lookup_zip h.length_eq hasc

theorem Over.probability_of_notMem (h : d.Over vocab) (hasc : d.Ascending)
    (htoken : token ∉ d.tokens) : d.probability token = 0 := by
  rw [h.probability_eq hasc]
  have hnone : d.entries.lookup token = none := by
    rw [lookup_eq_none_iff]
    intro e he
    simp only [bne_iff_ne, ne_eq]
    rintro rfl
    apply htoken
    rw [← h.entries_fst]
    exact mem_map_of_mem he
  rw [hnone]
  rfl

theorem Over.dense_getD (h : d.Over vocab) (hasc : d.Ascending) (hlow : 0 ≤ token)
    (hhigh : token < vocab) : (d.dense vocab).getD token.toNat 0 = d.probability token := by
  have hcast : (token.toNat : Int) = token := Int.toNat_of_nonneg hlow
  have hlt : token.toNat < vocab := by omega
  rw [h.probability_eq hasc]
  unfold dense
  rw [getD_eq_getElem _ _ (by simpa using hlt), getElem_map, getElem_range, hcast]

end

theorem Over.inVocab_of_pos (h : d.Over vocab) (hasc : d.Ascending)
    (hpos : ¬d.probability token ≤ 0) : 0 ≤ token ∧ token < vocab := by
  apply h.inVocab
  by_contra htoken
  exact hpos (h.probability_of_notMem hasc htoken).le

variable [IsStrictOrderedRing K]

omit [IsStrictOrderedRing K] in
theorem validateCompact_ascending (h : validateCompactDistribution d = .ok ()) : d.Ascending := by
  unfold validateCompactDistribution at h
  rw [guard_eq_ok, not_or, not_or] at h
  exact not_not.mp h.1.2.2

theorem Over.validate_iff (h : d.Over vocab) :
    validateCompactDistribution d = .ok () ↔
      d.Ascending ∧ validateDistribution (d.dense vocab) = .ok () := by
  by_cases hasc : d.Ascending
  swap
  · refine ⟨fun hok => absurd (validateCompact_ascending hok) hasc, fun hok => absurd hok.1 hasc⟩
  have hexpands := h.expands hasc
  have hnonneg : (∀ p ∈ d.dense vocab, 0 ≤ p) ↔ ∀ p ∈ d.probabilities, 0 ≤ p := by
    rw [hexpands.nonneg_iff, ← h.entries_snd, forall_mem_map]
  have hsum : (d.dense vocab).sum = d.probabilities.sum := by
    rw [hexpands.sum_eq, h.entries_snd]
  have hany (ps : List K) : (¬ps.any (fun p => p < 0) = true) ↔ ∀ p ∈ ps, 0 ≤ p := by
    simp
  -- an empty list sums to zero, which is too far from one
  have hempty (ps : List K) (hps : ¬tolerance < |ps.sum - 1|) : ps ≠ [] := by
    rintro rfl
    apply hps
    rw [sum_nil, zero_sub, abs_neg, abs_one, div_lt_one (by norm_num)]
    norm_num
  unfold validateCompactDistribution validateDistribution
  rw [guard_eq_ok, guard_eq_ok, guard_eq_ok, guard_eq_ok, guard_eq_ok, hany, hany, hnonneg, hsum]
  constructor
  · rintro ⟨-, hneg, htotal, -⟩
    refine ⟨hasc, hneg, ?_, rfl⟩
    rintro (hisEmpty | hfar)
    · rw [List.isEmpty_iff] at hisEmpty
      rw [← hsum] at htotal
      exact hempty _ htotal hisEmpty
    · exact htotal hfar
  · rintro ⟨-, hneg, htotal, -⟩
    rw [not_or] at htotal
    refine ⟨?_, hneg, htotal.2, rfl⟩
    rintro (hisEmpty | hlength | hdesc)
    · rw [List.isEmpty_iff] at hisEmpty
      have hlength := h.length_eq
      rw [hisEmpty, length_nil, eq_comm, length_eq_zero_iff] at hlength
      exact hempty _ htotal.2 hlength
    · exact hlength h.length_eq
    · exact hdesc hasc

/-- After the checks the two loops find the same token: one has a probability, so where the loops
    begin does not matter. -/
theorem Over.sampleLoop_eq (h : d.Over vocab) (hvalid : validateCompactDistribution d = .ok ())
    (uniform : K) :
    sampleLoop uniform (d.dense vocab) 0 0 (-1)
      = sampleCompactLoop uniform d.entries 0 (d.tokens.getLastD 0) := by
  have hasc := validateCompact_ascending hvalid
  rw [(h.expands hasc).sampleLoop_eq]
  apply sampleCompactLoop_fallback
  by_contra hnone
  simp only [not_exists, not_and, not_lt] at hnone
  unfold validateCompactDistribution at hvalid
  rw [guard_eq_ok, guard_eq_ok, guard_eq_ok] at hvalid
  obtain ⟨-, -, htotal, -⟩ := hvalid
  apply htotal
  have hsum : d.probabilities.sum ≤ 0 := by
    rw [← h.entries_snd, ← nsmul_zero (d.entries.map Prod.snd).length]
    apply sum_le_card_nsmul
    intro p hp
    obtain ⟨e, he, rfl⟩ := mem_map.mp hp
    exact hnone e he
  rw [lt_abs]
  right
  have hsmall : (tolerance : K) < 1 := by
    rw [div_lt_one (by norm_num)]
    norm_num
  linarith

theorem Over.sample_iff (h : d.Over vocab) {uniform : K} :
    sampleCompact d uniform = .ok token ↔
      d.Ascending ∧ sample (d.dense vocab) uniform = .ok token := by
  unfold sampleCompact sample
  rw [bind_eq_ok, bind_eq_ok]
  constructor
  · rintro ⟨⟨⟩, hvalid, htoken⟩
    obtain ⟨hasc, hdense⟩ := h.validate_iff.mp hvalid
    refine ⟨hasc, (), hdense, ?_⟩
    rw [h.sampleLoop_eq hvalid]
    exact htoken
  · rintro ⟨hasc, ⟨⟩, hdense, htoken⟩
    have hvalid := h.validate_iff.mpr ⟨hasc, hdense⟩
    refine ⟨(), hvalid, ?_⟩
    rw [h.sampleLoop_eq hvalid] at htoken
    exact htoken

end CompactDistribution

/-! ### The residual -/

theorem mem_mergedTokens {target proposal : List Int} :
    token ∈ mergedTokens target proposal ↔ token ∈ target ∨ token ∈ proposal := by
  induction target, proposal using mergedTokens.induct with
  | case1 proposal => simp [mergedTokens]
  | case2 t target => simp [mergedTokens]
  | case3 t target p proposal hlt ih =>
    rw [mergedTokens, if_pos hlt, mem_cons, ih]
    simp only [mem_cons]
    tauto
  | case4 t target p proposal hlt hgt ih =>
    rw [mergedTokens, if_neg hlt, if_pos hgt, mem_cons, ih]
    simp only [mem_cons]
    tauto
  | case5 t target p proposal hlt hgt ih =>
    obtain rfl : t = p := le_antisymm (not_lt.mp hgt) (not_lt.mp hlt)
    rw [mergedTokens, if_neg hlt, if_neg hgt, mem_cons, ih]
    simp only [mem_cons]
    tauto

/-- Two lists in ascending order are passed through in ascending order. -/
theorem mergedTokens_pairwise {target proposal : List Int} (htarget : target.Pairwise (· < ·))
    (hproposal : proposal.Pairwise (· < ·)) :
    (mergedTokens target proposal).Pairwise (· < ·) := by
  induction target, proposal using mergedTokens.induct with
  | case1 proposal =>
    rw [mergedTokens]
    exact hproposal
  | case2 t target =>
    rw [mergedTokens]
    exact htarget
  | case3 t target p proposal hlt ih =>
    have hp := hproposal
    rw [pairwise_cons] at htarget hp
    rw [mergedTokens, if_pos hlt, pairwise_cons]
    refine ⟨fun token htoken => ?_, ih htarget.2 hproposal⟩
    rcases mem_mergedTokens.mp htoken with hmem | hmem
    · exact htarget.1 token hmem
    · rcases mem_cons.mp hmem with rfl | hmem
      · exact hlt
      · exact hlt.trans (hp.1 token hmem)
  | case4 t target p proposal hlt hgt ih =>
    have ht := htarget
    rw [pairwise_cons] at hproposal ht
    rw [mergedTokens, if_neg hlt, if_pos hgt, pairwise_cons]
    refine ⟨fun token htoken => ?_, ih htarget hproposal.2⟩
    rcases mem_mergedTokens.mp htoken with hmem | hmem
    · rcases mem_cons.mp hmem with rfl | hmem
      · exact hgt
      · exact hgt.trans (ht.1 token hmem)
    · exact hproposal.1 token hmem
  | case5 t target p proposal hlt hgt ih =>
    obtain rfl : t = p := le_antisymm (not_lt.mp hgt) (not_lt.mp hlt)
    rw [pairwise_cons] at htarget hproposal
    rw [mergedTokens, if_neg hlt, if_neg hgt, pairwise_cons]
    refine ⟨fun token htoken => ?_, ih htarget.2 hproposal.2⟩
    rcases mem_mergedTokens.mp htoken with hmem | hmem
    · exact htarget.1 token hmem
    · exact hproposal.1 token hmem

/-- The part of the target above the proposal, at a token. -/
def difference (target proposal : CompactDistribution K) (token : Int) : K :=
  max 0 (target.probability token - proposal.probability token)

/-- What one draws from has the positive differences, divided by their sum. -/
def residualOf (target proposal : CompactDistribution K) (total : K) : CompactDistribution K where
  tokens := (residualEntries target proposal).map Prod.fst
  probabilities := (residualEntries target proposal).map (·.2 / total)

section Residual

variable {vocab : Nat} {target proposal : CompactDistribution K} {e : Int × K}

theorem mem_residualEntries :
    e ∈ residualEntries target proposal ↔
      (e.1 ∈ target.tokens ∨ e.1 ∈ proposal.tokens) ∧ 0 < difference target proposal e.1 ∧
        e.2 = difference target proposal e.1 := by
  unfold residualEntries
  rw [mem_filterMap]
  constructor
  · rintro ⟨token, htoken, hentry⟩
    change (if 0 < difference target proposal token then _ else _) = _ at hentry
    by_cases hpos : 0 < difference target proposal token
    · rw [if_pos hpos] at hentry
      cases hentry
      exact ⟨mem_mergedTokens.mp htoken, hpos, rfl⟩
    · rw [if_neg hpos] at hentry
      cases hentry
  · rintro ⟨htoken, hpos, hvalue⟩
    refine ⟨e.1, mem_mergedTokens.mpr htoken, ?_⟩
    change (if 0 < difference target proposal e.1 then _ else _) = _
    rw [if_pos hpos]
    change some (e.1, difference target proposal e.1) = some e
    rw [← hvalue]

theorem residualEntries_pairwise (htarget : target.Over vocab) (hproposal : proposal.Over vocab)
    (hat : target.Ascending) (hap : proposal.Ascending) :
    (residualEntries target proposal).Pairwise fun a b => a.1 < b.1 := by
  have htokens {d : CompactDistribution K} (h : d.Over vocab) (hasc : d.Ascending) :
      d.tokens.Pairwise (· < ·) := by
    rw [← h.entries_fst, pairwise_map]
    exact h.entries_ascending hasc
  apply List.Pairwise.filterMap _ _ (mergedTokens_pairwise (htokens htarget hat)
    (htokens hproposal hap))
  intro a b hab x hx y hy
  change (if 0 < difference target proposal a then _ else _) = _ at hx
  change (if 0 < difference target proposal b then _ else _) = _ at hy
  split at hx
  · split at hy
    · cases hx
      cases hy
      exact hab
    · cases hy
  · cases hx

omit [Field K] [LinearOrder K] in
theorem lookup_of_mem {entries : List (Int × K)} (h : entries.Pairwise fun a b => a.1 < b.1)
    (he : e ∈ entries) : entries.lookup e.1 = some e.2 := by
  induction entries with
  | nil => cases he
  | cons first entries ih =>
    rw [pairwise_cons] at h
    rcases mem_cons.mp he with rfl | he
    · exact lookup_cons_self
    · have hne : (e.1 == first.1) = false := beq_eq_false_iff_ne.mpr (h.1 e he).ne'
      rw [lookup_cons, hne]
      exact ih h.2 he

theorem residualOf_over (htarget : target.Over vocab) (hproposal : proposal.Over vocab)
    (hat : target.Ascending) (hap : proposal.Ascending) (total : K) :
    (residualOf target proposal total).Over vocab where
  length_eq := by
    unfold residualOf
    rw [length_map, length_map]
  nodup := by
    apply List.Pairwise.imp (R := (· < ·)) fun h => ne_of_lt h
    unfold residualOf
    rw [pairwise_map]
    exact residualEntries_pairwise htarget hproposal hat hap
  inVocab token htoken := by
    obtain ⟨e, he, rfl⟩ := mem_map.mp htoken
    rcases (mem_residualEntries.mp he).1 with hmem | hmem
    · exact htarget.inVocab e.1 hmem
    · exact hproposal.inVocab e.1 hmem

theorem residualOf_ascending (htarget : target.Over vocab) (hproposal : proposal.Over vocab)
    (hat : target.Ascending) (hap : proposal.Ascending) (total : K) :
    (residualOf target proposal total).Ascending := by
  unfold CompactDistribution.Ascending residualOf
  rw [pairwise_map]
  exact (residualEntries_pairwise htarget hproposal hat hap).imp fun h => le_of_lt h

theorem residualOf_entries (total : K) :
    (residualOf target proposal total).entries
      = (residualEntries target proposal).map fun e => (e.1, e.2 / total) := by
  unfold CompactDistribution.entries residualOf
  exact zip_map' ..

/-- The residual has the difference of every token, also where it is zero. -/
theorem residualOf_probability (htarget : target.Over vocab) (hproposal : proposal.Over vocab)
    (hat : target.Ascending) (hap : proposal.Ascending) (total : K) (token : Int) :
    ((residualOf target proposal total).entries.lookup token).getD 0
      = difference target proposal token / total := by
  have hover := residualOf_over htarget hproposal hat hap total
  have hasc := residualOf_ascending htarget hproposal hat hap total
  by_cases hmem : (token, difference target proposal token) ∈ residualEntries target proposal
  · have hentry : (token, difference target proposal token / total)
        ∈ (residualOf target proposal total).entries := by
      rw [residualOf_entries]
      exact mem_map.mpr ⟨_, hmem, rfl⟩
    rw [lookup_of_mem (hover.entries_ascending hasc) hentry]
    rfl
  · rw [← hover.probability_eq hasc]
    have hzero : difference target proposal token = 0 := by
      by_contra hne
      have hpos : 0 < difference target proposal token :=
        lt_of_le_of_ne (le_max_left _ _) (Ne.symm hne)
      apply hmem
      refine mem_residualEntries.mpr ⟨?_, hpos, rfl⟩
      by_contra hnot
      rw [not_or] at hnot
      apply hne
      unfold difference
      rw [htarget.probability_of_notMem hat hnot.1, hproposal.probability_of_notMem hap hnot.2,
        sub_zero, max_self]
    rw [hzero, zero_div]
    apply hover.probability_of_notMem hasc
    intro htoken
    obtain ⟨e, he, rfl⟩ := mem_map.mp htoken
    exact absurd hzero (mem_residualEntries.mp he).2.1.ne'

theorem zipWith_dense (htarget : target.Over vocab) (hproposal : proposal.Over vocab)
    (hat : target.Ascending) (hap : proposal.Ascending) :
    List.zipWith (fun p q => max 0 (p - q)) (target.dense vocab) (proposal.dense vocab)
      = (List.range vocab).map fun token : Nat => difference target proposal token := by
  unfold CompactDistribution.dense
  rw [zipWith_map, zipWith_self]
  apply map_congr_left
  intro token _
  rw [← htarget.probability_eq hat, ← hproposal.probability_eq hap]
  rfl

/-- The residual expands to the divided differences of the expansions. -/
theorem residualOf_dense (htarget : target.Over vocab) (hproposal : proposal.Over vocab)
    (hat : target.Ascending) (hap : proposal.Ascending) (total : K) :
    (residualOf target proposal total).dense vocab
      = (List.zipWith (fun p q => max 0 (p - q)) (target.dense vocab)
          (proposal.dense vocab)).map (· / total) := by
  rw [zipWith_dense htarget hproposal hat hap, map_map]
  apply map_congr_left
  intro token _
  exact residualOf_probability htarget hproposal hat hap total token

theorem residualEntries_sum (htarget : target.Over vocab) (hproposal : proposal.Over vocab)
    (hat : target.Ascending) (hap : proposal.Ascending) :
    ((residualEntries target proposal).map Prod.snd).sum
      = (List.zipWith (fun p q => max 0 (p - q)) (target.dense vocab)
          (proposal.dense vocab)).sum := by
  have hover := residualOf_over htarget hproposal hat hap 1
  have hasc := residualOf_ascending htarget hproposal hat hap 1
  have hsum := (hover.expands hasc).sum_eq
  rw [residualOf_dense htarget hproposal hat hap, hover.entries_snd] at hsum
  unfold residualOf at hsum
  simpa only [div_one, map_id'] using hsum.symm

/-- `positive_residual` of two lists expands to the correction of their expansions. -/
theorem positiveResidual_spec (htarget : target.Over vocab) (hproposal : proposal.Over vocab)
    (hvt : validateCompactDistribution target = .ok ())
    (hvp : validateCompactDistribution proposal = .ok ()) :
    ∃ residual, positiveResidual target proposal = .ok residual ∧ residual.Over vocab ∧
      residual.Ascending ∧
        residual.dense vocab = correction (target.dense vocab) (proposal.dense vocab) := by
  have hat := CompactDistribution.validateCompact_ascending hvt
  have hap := CompactDistribution.validateCompact_ascending hvp
  have hsum := residualEntries_sum htarget hproposal hat hap
  unfold positiveResidual correction
  rw [hvt, hvp]
  dsimp only
  rw [← hsum]
  by_cases hpos : 0 < ((residualEntries target proposal).map Prod.snd).sum
  · refine ⟨_, rfl, ?_⟩
    rw [if_pos hpos, if_pos hpos, hsum]
    exact ⟨residualOf_over htarget hproposal hat hap _,
      residualOf_ascending htarget hproposal hat hap _,
      residualOf_dense htarget hproposal hat hap _⟩
  · refine ⟨_, rfl, ?_⟩
    rw [if_neg hpos, if_neg hpos]
    exact ⟨htarget, hat, rfl⟩

end Residual

/-! ### The chain -/

section Chain

variable [IsStrictOrderedRing K] {vocab : Nat} {sampleUniform : K}

variable {proposal target : CompactDistribution K} {draft : Int} {drafts : List Int} {uniform : K}
  {uniforms : List K} {position : Nat} {v : ChainVerification}

/-- What one position comes to: the draft is kept and `rest` decides, or the next token is drawn
    from the correction. -/
def Decides (vocab : Nat) (sampleUniform : K) (position : Nat) (draft : Int)
    (proposal target : CompactDistribution K) (uniform : K) (rest : Prop)
    (v : ChainVerification) : Prop :=
  validateDistribution (proposal.dense vocab) = .ok () ∧
    validateDistribution (target.dense vocab) = .ok () ∧ ¬proposal.probability draft ≤ 0 ∧
        if clampUniform uniform < min 1 (target.probability draft / proposal.probability draft)
        then rest
        else ∃ token, sample (correction (target.dense vocab) (proposal.dense vocab)) sampleUniform
          = .ok token ∧ v = { acceptedDrafts := position, nextToken := token, bonus := false }

omit [IsStrictOrderedRing K] in
/-- A position of the chain over whole vocabularies. -/
theorem verifyLoop_position {proposals targets : List (List K)} (hproposal : proposal.Over vocab)
    (htarget : target.Over vocab) (hap : proposal.Ascending) (hat : target.Ascending) :
    verifyLoop sampleUniform position (draft :: drafts) (proposal.dense vocab :: proposals)
        (target.dense vocab :: targets) (uniform :: uniforms) = .ok v ↔
      Decides vocab sampleUniform position draft proposal target uniform
        (verifyLoop sampleUniform (position + 1) drafts proposals targets uniforms = .ok v) v := by
  have hlength (d : CompactDistribution K) : (d.dense vocab).length = vocab :=
    CompactDistribution.dense_length
  unfold Decides
  rw [verifyLoop, guard_eq_ok, bind_eq_ok, hlength, hlength]
  constructor
  · rintro ⟨hshape, ⟨⟩, hvp, h⟩
    obtain ⟨⟨⟩, hvt, h⟩ := bind_eq_ok.mp h
    simp only [not_or, not_lt, not_le] at hshape
    obtain ⟨-, -, hlow, hhigh⟩ := hshape
    rw [guard_eq_ok, hproposal.dense_getD hap hlow hhigh] at h
    unfold acceptance at h
    rw [hproposal.dense_getD hap hlow hhigh, htarget.dense_getD hat hlow hhigh] at h
    refine ⟨hvp, hvt, h.1, ?_⟩
    replace h := h.2
    split at h
    · next haccept =>
        rw [if_pos haccept]
        exact h
    · next haccept =>
        rw [if_neg haccept]
        obtain ⟨token, htoken, h⟩ := bind_eq_ok.mp h
        exact ⟨token, htoken, (pure_eq_ok.mp h).symm⟩
  · rintro ⟨hvp, hvt, hq, h⟩
    obtain ⟨hlow, hhigh⟩ := hproposal.inVocab_of_pos hap hq
    refine ⟨?_, (), hvp, bind_eq_ok.mpr ⟨(), hvt, ?_⟩⟩
    · rintro (hempty | hne | hneg | hlarge)
      · rw [List.isEmpty_iff] at hempty
        have hzero := hlength proposal
        rw [hempty, length_nil] at hzero
        omega
      · exact hne rfl
      · omega
      · omega
    · rw [guard_eq_ok, hproposal.dense_getD hap hlow hhigh]
      unfold acceptance
      rw [hproposal.dense_getD hap hlow hhigh, htarget.dense_getD hat hlow hhigh]
      refine ⟨hq, ?_⟩
      split at h
      · next haccept =>
          rw [if_pos haccept]
          exact h
      · next haccept =>
          obtain ⟨token, htoken, rfl⟩ := h
          rw [if_neg haccept]
          exact bind_eq_ok.mpr ⟨token, htoken, rfl⟩

variable {proposals : List (CompactDistribution K)} {targets : List (CompactDistribution K)}

/-- A position of the chain over lists. -/
theorem verifyCompactLoop_position (hproposal : proposal.Over vocab) (htarget : target.Over vocab) :
    verifyCompactLoop sampleUniform position (draft :: drafts) (proposal :: proposals)
        (target :: targets) (uniform :: uniforms) = .ok v ↔
      proposal.Ascending ∧ target.Ascending ∧
        Decides vocab sampleUniform position draft proposal target uniform
          (verifyCompactLoop sampleUniform (position + 1) drafts proposals targets uniforms
            = .ok v) v := by
  unfold Decides
  rw [verifyCompactLoop, bind_eq_ok]
  constructor
  · rintro ⟨⟨⟩, hvp, h⟩
    obtain ⟨⟨⟩, hvt, h⟩ := bind_eq_ok.mp h
    obtain ⟨hap, hdp⟩ := hproposal.validate_iff.mp hvp
    obtain ⟨hat, hdt⟩ := htarget.validate_iff.mp hvt
    rw [guard_eq_ok] at h
    refine ⟨hap, hat, hdp, hdt, h.1, ?_⟩
    replace h := h.2
    split at h
    · next haccept =>
        rw [if_pos haccept]
        exact h
    · next haccept =>
        rw [if_neg haccept]
        obtain ⟨residual, hresidual, hover, -, hdense⟩ :=
          positiveResidual_spec htarget hproposal hvt hvp
        obtain ⟨residual', hresidual', h⟩ := bind_eq_ok.mp h
        rw [hresidual] at hresidual'
        cases hresidual'
        obtain ⟨token, htoken, h⟩ := bind_eq_ok.mp h
        refine ⟨token, ?_, (pure_eq_ok.mp h).symm⟩
        rw [← hdense]
        exact (hover.sample_iff.mp htoken).2
  · rintro ⟨hap, hat, hdp, hdt, hq, h⟩
    have hvp := hproposal.validate_iff.mpr ⟨hap, hdp⟩
    have hvt := htarget.validate_iff.mpr ⟨hat, hdt⟩
    refine ⟨(), hvp, bind_eq_ok.mpr ⟨(), hvt, ?_⟩⟩
    rw [guard_eq_ok]
    refine ⟨hq, ?_⟩
    split at h
    · next haccept =>
        rw [if_pos haccept]
        exact h
    · next haccept =>
        obtain ⟨token, htoken, rfl⟩ := h
        rw [if_neg haccept]
        obtain ⟨residual, hresidual, hover, hasc, hdense⟩ :=
          positiveResidual_spec htarget hproposal hvt hvp
        refine bind_eq_ok.mpr ⟨residual, hresidual, bind_eq_ok.mpr ⟨token, ?_, rfl⟩⟩
        rw [← hdense] at htoken
        exact hover.sample_iff.mpr ⟨hasc, htoken⟩

theorem verifyCompactLoop_last (htarget : target.Over vocab) (ps : List (List K)) :
    verifyCompactLoop sampleUniform position [] proposals [target] uniforms = .ok v ↔
      target.Ascending ∧
        verifyLoop sampleUniform position [] ps [target.dense vocab] uniforms = .ok v := by
  rw [verifyCompactLoop, verifyLoop, bind_eq_ok, bind_eq_ok]
  constructor
  · rintro ⟨token, htoken, h⟩
    obtain ⟨hasc, hsample⟩ := htarget.sample_iff.mp htoken
    obtain ⟨⟨⟩, hvalid, -⟩ := bind_eq_ok.mp hsample
    exact ⟨hasc, (), hvalid, bind_eq_ok.mpr ⟨token, hsample, h⟩⟩
  · rintro ⟨hasc, ⟨⟩, -, h⟩
    obtain ⟨token, hsample, h⟩ := bind_eq_ok.mp h
    exact ⟨token, htarget.sample_iff.mpr ⟨hasc, hsample⟩, h⟩

theorem verifyCompactLoop_agrees (hproposals : ∀ d ∈ proposals, d.Over vocab)
    (htargets : ∀ d ∈ targets, d.Over vocab) :
    (verifyCompactLoop sampleUniform position drafts proposals targets uniforms = .ok v →
      verifyLoop sampleUniform position drafts (proposals.map (·.dense vocab))
        (targets.map (·.dense vocab)) uniforms = .ok v) ∧
    ((∀ d ∈ proposals, d.Ascending) → (∀ d ∈ targets, d.Ascending) →
      verifyLoop sampleUniform position drafts (proposals.map (·.dense vocab))
        (targets.map (·.dense vocab)) uniforms = .ok v →
      verifyCompactLoop sampleUniform position drafts proposals targets uniforms = .ok v) := by
  induction position, drafts, proposals, targets, uniforms using verifyCompactLoop.induct with
  | case1 position draft drafts proposal proposals target targets uniform uniforms ih =>
    rw [forall_mem_cons] at hproposals htargets
    obtain ⟨hto, hof⟩ := ih hproposals.2 htargets.2
    rw [verifyCompactLoop_position hproposals.1 htargets.1]
    simp only [map_cons]
    constructor
    · rintro ⟨hap, hat, hdp, hdt, hq, h⟩
      rw [verifyLoop_position hproposals.1 htargets.1 hap hat]
      refine ⟨hdp, hdt, hq, ?_⟩
      split at h
      · next haccept =>
          rw [if_pos haccept]
          exact hto h
      · next haccept =>
          rw [if_neg haccept]
          exact h
    · intro hascp hasct h
      rw [forall_mem_cons] at hascp hasct
      rw [verifyLoop_position hproposals.1 htargets.1 hascp.1 hasct.1] at h
      obtain ⟨hdp, hdt, hq, h⟩ := h
      refine ⟨hascp.1, hasct.1, hdp, hdt, hq, ?_⟩
      split at h
      · next haccept =>
          rw [if_pos haccept]
          exact hof hascp.2 hasct.2 h
      · next haccept =>
          rw [if_neg haccept]
          exact h
  | case2 position proposals last uniforms =>
    rw [verifyCompactLoop_last (htargets last mem_cons_self) (proposals.map (·.dense vocab))]
    exact ⟨fun h => h.2, fun _ hasc h => ⟨hasc last mem_cons_self, h⟩⟩
  | case3 drafts position proposals targets uniforms hloop hlast =>
    -- the shapes do not fit, in either chain
    constructor
    · intro h
      unfold verifyCompactLoop at h
      split at h
      · exact (hloop _ _ _ _ _ _ _ _ rfl rfl rfl rfl).elim
      · exact (hlast _ rfl rfl).elim
      · cases h
    · intro _ _ h
      generalize hps : proposals.map (·.dense vocab) = ps at h
      generalize hts : targets.map (·.dense vocab) = ts at h
      unfold verifyLoop at h
      split at h
      · obtain ⟨_, _, rfl, -, -⟩ := map_eq_cons_iff.mp hps
        obtain ⟨_, _, rfl, -, -⟩ := map_eq_cons_iff.mp hts
        exact (hloop _ _ _ _ _ _ _ _ rfl rfl rfl rfl).elim
      · obtain ⟨_, rest, rfl, -, hrest⟩ := map_eq_cons_iff.mp hts
        rw [map_eq_nil_iff] at hrest
        subst hrest
        exact (hlast _ rfl rfl).elim
      · cases h

/-- **The chains agree**: what the chain over lists returns, the chain over the expansions returns,
    and the other way round when the lists are in ascending order. -/
theorem compact_chain_agrees {proposals targets : List (CompactDistribution K)}
    (hproposals : ∀ d ∈ proposals, d.Over vocab) (htargets : ∀ d ∈ targets, d.Over vocab) :
    (∀ v, verifyCompactChain drafts proposals targets uniforms sampleUniform = .ok v →
      verifyStochasticChain drafts (proposals.map (·.dense vocab)) (targets.map (·.dense vocab))
        uniforms sampleUniform = .ok v) ∧
    ((∀ d ∈ proposals, d.Ascending) → (∀ d ∈ targets, d.Ascending) →
      ∀ v, verifyStochasticChain drafts (proposals.map (·.dense vocab))
          (targets.map (·.dense vocab)) uniforms sampleUniform = .ok v →
        verifyCompactChain drafts proposals targets uniforms sampleUniform = .ok v) := by
  unfold verifyCompactChain verifyStochasticChain
  rw [length_map, length_map]
  constructor
  · intro v h
    rw [guard_eq_ok] at h ⊢
    exact ⟨h.1, (verifyCompactLoop_agrees hproposals htargets).1 h.2⟩
  · intro hascp hasct v h
    rw [guard_eq_ok] at h ⊢
    exact ⟨h.1, (verifyCompactLoop_agrees hproposals htargets).2 hascp hasct h.2⟩

end Chain

/-- Over three tokens, a rejected draft: the next token is one that the proposal does not list. -/
theorem compact_chain_agrees_rejected :
    verifyStochasticChain [0] [[(3 / 4 : ℚ), 1 / 4, 0]] [[1 / 2, 0, 1 / 2], [1, 0, 0]] [9 / 10]
      (1 / 3) = .ok { acceptedDrafts := 0, nextToken := 2, bonus := false } := by
  have hproposals : ∀ d ∈ [CompactDistribution.mk [0, 1] [(3 / 4 : ℚ), 1 / 4]], d.Over 3 := by
    intro d hd
    obtain rfl := mem_singleton.mp hd
    exact ⟨rfl, by decide, by decide⟩
  have htargets : ∀ d ∈ [CompactDistribution.mk [0, 2] [(1 / 2 : ℚ), 1 / 2],
      CompactDistribution.mk [0] [1]], d.Over 3 := by
    intro d hd
    rcases mem_cons.mp hd with rfl | hd
    · exact ⟨rfl, by decide, by decide⟩
    · obtain rfl := mem_singleton.mp hd
      exact ⟨rfl, by decide, by decide⟩
  have hcompact : verifyCompactChain [0] [⟨[0, 1], [(3 / 4 : ℚ), 1 / 4]⟩]
      [⟨[0, 2], [1 / 2, 1 / 2]⟩, ⟨[0], [1]⟩] [9 / 10] (1 / 3)
        = .ok { acceptedDrafts := 0, nextToken := 2, bonus := false } := by
    decide +kernel
  exact (compact_chain_agrees hproposals htargets).1 _ hcompact

/-- A list in another order is refused, where its expansion gives a token. -/
theorem compact_chain_refuses :
    (∀ v, verifyCompactChain [0] [⟨[0], [(1 : ℚ)]⟩] [⟨[0], [1]⟩, ⟨[1, 0], [1 / 2, 1 / 2]⟩] [0] 0
      ≠ .ok v) ∧
    verifyStochasticChain [0] [CompactDistribution.dense 2 ⟨[0], [(1 : ℚ)]⟩]
        [CompactDistribution.dense 2 ⟨[0], [1]⟩,
          CompactDistribution.dense 2 ⟨[1, 0], [1 / 2, 1 / 2]⟩] [0] 0
      = .ok { acceptedDrafts := 1, nextToken := 0, bonus := true } := by
  constructor
  · intro v h
    have herror : verifyCompactChain [0] [⟨[0], [(1 : ℚ)]⟩]
        [⟨[0], [1]⟩, ⟨[1, 0], [1 / 2, 1 / 2]⟩] [0] 0
          = .error "invalid compact MTP distribution" := by
      decide +kernel
    rw [herror] at h
    cases h
  · decide +kernel

end TyloQuant.Mtp
