import TyloQuant.Mtp.Policy
import TyloQuant.Lib.Outcome

/-!
# Stochastic verification over short lists of tokens

`verify_compact_chain` decides the same as `verify_stochastic_chain`, from distributions that list
their tokens in ascending order and leave out the others.  A list in another order is refused.
-/

namespace TyloQuant.Mtp

open List

variable {K : Type} [Field K] [LinearOrder K]

structure CompactDistribution (K : Type) where
  tokens : List Int
  probabilities : List K

namespace CompactDistribution

/-- `lower_bound` in an ascending list: the place of the first token that is not below this one. -/
def lowerBound (tokens : List Int) (token : Int) : Nat := tokens.findIdx fun t => token ≤ t

def probability (distribution : CompactDistribution K) (token : Int) : K :=
  let found := lowerBound distribution.tokens token
  if distribution.tokens[found]? = some token then distribution.probabilities.getD found 0 else 0

/-- The tokens with their probabilities. -/
def entries (distribution : CompactDistribution K) : List (Int × K) :=
  distribution.tokens.zip distribution.probabilities

end CompactDistribution

def validateCompactDistribution (distribution : CompactDistribution K) : Except String Unit :=
  if distribution.tokens.isEmpty ∨ distribution.tokens.length ≠ distribution.probabilities.length ∨
      ¬distribution.tokens.Pairwise (· ≤ ·) then
    .error "invalid compact MTP distribution"
  else if distribution.probabilities.any (fun p => p < 0) then
    .error "invalid compact MTP probability"
  else if tolerance < |distribution.probabilities.sum - 1| then
    .error "compact MTP distribution is not normalized"
  else .ok ()

/-- The loop of `sample_compact`, with the probability passed so far. -/
def sampleCompactLoop (uniform : K) : List (Int × K) → K → Int → Int
  | [], _, fallback => fallback
  | (token, p) :: entries, cumulative, fallback =>
    if p ≤ 0 then sampleCompactLoop uniform entries cumulative fallback
    else if uniform < cumulative + p then token
    else sampleCompactLoop uniform entries (cumulative + p) token

def sampleCompact (distribution : CompactDistribution K) (uniform : K) : Except String Int := do
  validateCompactDistribution distribution
  pure (sampleCompactLoop (clampUniform uniform) distribution.entries 0
    (distribution.tokens.getLastD 0))

/-- The tokens that the loop of `positive_residual` goes through: the smaller of the two next
    ones, and both lists advance when they are the same. -/
def mergedTokens : List Int → List Int → List Int
  | [], proposal => proposal
  | t :: target, [] => t :: target
  | t :: target, p :: proposal =>
    if t < p then t :: mergedTokens target (p :: proposal)
    else if p < t then p :: mergedTokens (t :: target) proposal
    else t :: mergedTokens target proposal
termination_by target proposal => target.length + proposal.length

/-- What the loop collects. -/
def residualEntries (target proposal : CompactDistribution K) : List (Int × K) :=
  (mergedTokens target.tokens proposal.tokens).filterMap fun token =>
    let probability := max 0 (target.probability token - proposal.probability token)
    if 0 < probability then some (token, probability) else none

def positiveResidual (target proposal : CompactDistribution K) :
    Except String (CompactDistribution K) := do
  validateCompactDistribution target
  validateCompactDistribution proposal
  let entries := residualEntries target proposal
  let total := (entries.map Prod.snd).sum
  pure <|
    if 0 < total then
      { tokens := entries.map Prod.fst, probabilities := entries.map (·.2 / total) }
    else target

/-- The loop over the positions, and what comes after it. -/
def verifyCompactLoop (sampleUniform : K) :
    Nat → List Int → List (CompactDistribution K) → List (CompactDistribution K) → List K →
      Except String ChainVerification
  | position, draft :: drafts, proposal :: proposals, target :: targets, uniform :: uniforms => do
      validateCompactDistribution proposal
      validateCompactDistribution target
      if proposal.probability draft ≤ 0 then
        .error "compact MTP chain probability is invalid"
      else if clampUniform uniform
          < min 1 (target.probability draft / proposal.probability draft) then
        verifyCompactLoop sampleUniform (position + 1) drafts proposals targets uniforms
      else
        let residual ← positiveResidual target proposal
        let nextToken ← sampleCompact residual sampleUniform
        pure { acceptedDrafts := position, nextToken, bonus := false }
  | position, [], _, [last], _ => do
      let nextToken ← sampleCompact last sampleUniform
      pure { acceptedDrafts := position, nextToken, bonus := true }
  | _, _, _, _, _ => .error "compact MTP chain shapes are incompatible"

def verifyCompactChain (drafts : List Int) (proposals targets : List (CompactDistribution K))
    (acceptanceUniforms : List K) (sampleUniform : K) : Except String ChainVerification :=
  if drafts.isEmpty ∨ proposals.length ≠ drafts.length ∨ targets.length ≠ drafts.length + 1 ∨
      acceptanceUniforms.length ≠ drafts.length then
    .error "compact MTP chain shapes are incompatible"
  else verifyCompactLoop sampleUniform 0 drafts proposals targets acceptanceUniforms

/-! ### Expansions -/

/-- The probabilities of all tokens of a vocabulary. -/
def CompactDistribution.dense (vocab : Nat) (distribution : CompactDistribution K) : List K :=
  (List.range vocab).map fun token : Nat => (distribution.entries.lookup (token : Int)).getD 0

/-- Different tokens of the vocabulary, each with a probability. -/
structure CompactDistribution.Over (vocab : Nat) (distribution : CompactDistribution K) : Prop where
  length_eq : distribution.tokens.length = distribution.probabilities.length
  nodup : distribution.tokens.Nodup
  inVocab : ∀ token ∈ distribution.tokens, 0 ≤ token ∧ token < vocab

/-- The list from an index on, with the entries of the tokens from there on. -/
inductive Expands : Nat → List (Int × K) → List K → Prop where
  | nil (i : Nat) : Expands i [] []
  | listed {i : Nat} {p : K} {entries : List (Int × K)} {ps : List K}
      (rest : Expands (i + 1) entries ps) : Expands i ((↑i, p) :: entries) (p :: ps)
  | absent {i : Nat} {entries : List (Int × K)} {ps : List K}
      (rest : Expands (i + 1) entries ps) : Expands i entries (0 :: ps)

omit [Field K] [LinearOrder K] in
theorem lookup_of_lt {entries : List (Int × K)} {token : Int}
    (h : ∀ e ∈ entries, token < e.1) : entries.lookup token = none := by
  rw [lookup_eq_none_iff]
  intro e he
  simp only [bne_iff_ne, ne_eq]
  exact (h e he).ne

omit [LinearOrder K] in
theorem expands_range {entries : List (Int × K)} {i n : Nat}
    (hasc : entries.Pairwise fun a b => a.1 < b.1)
    (hrange : ∀ e ∈ entries, (i : Int) ≤ e.1 ∧ e.1 < i + n) :
    Expands i entries
      ((List.range' i n).map fun token : Nat => (entries.lookup (token : Int)).getD 0) := by
  induction n generalizing i entries with
  | zero =>
    cases entries with
    | nil => exact .nil i
    | cons e entries =>
      have := hrange e mem_cons_self
      omega
  | succ n ih =>
    rw [range'_succ, map_cons]
    by_cases hhead : ∀ e ∈ entries, (i : Int) < e.1
    · rw [lookup_of_lt hhead]
      apply Expands.absent
      apply ih hasc
      intro e he
      have := hhead e he
      have := hrange e he
      omega
    · cases entries with
      | nil =>
        exfalso
        apply hhead
        intro e he
        cases he
      | cons e entries =>
        rw [pairwise_cons] at hasc
        obtain ⟨token, p⟩ := e
        obtain rfl : token = i := by
          by_contra hne
          apply hhead
          have hfirst := hrange (token, p) mem_cons_self
          intro e he
          rcases mem_cons.mp he with rfl | he
          · change (i : Int) ≤ token ∧ _ at hfirst
            change (i : Int) < token
            omega
          · have := hasc.1 e he
            change (i : Int) ≤ token ∧ _ at hfirst
            change token < e.1 at this
            omega
        rw [lookup_cons_self]
        have hrest : (List.range' (i + 1) n).map
            (fun token : Nat => ((((i : Int), p) :: entries).lookup (token : Int)).getD 0)
            = (List.range' (i + 1) n).map
              fun token : Nat => (entries.lookup (token : Int)).getD 0 := by
          apply map_congr_left
          intro token htoken
          have hne : ((token : Int) == (i : Int)) = false := by
            rw [mem_range'_1] at htoken
            simp only [beq_eq_false_iff_ne, ne_eq]
            omega
          rw [lookup_cons, hne]
        rw [hrest]
        apply Expands.listed
        apply ih hasc.2
        intro e he
        have hlt : (i : Int) < e.1 := hasc.1 e he
        have := hrange e (mem_cons_of_mem _ he)
        omega

end TyloQuant.Mtp
