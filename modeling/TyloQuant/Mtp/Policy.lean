import Mathlib

/-!
# Stochastic verification of drafts

`verify_stochastic_chain` decides how many drafted tokens a target model keeps, and which token
comes after them.  The probabilities are the elements of an ordered field, so the arithmetic is
exact: a `float` or `double` of the code is its value, and rounding has no counterpart.
-/

namespace TyloQuant.Mtp

variable {K : Type} [Field K] [LinearOrder K]

structure ChainVerification where
  acceptedDrafts : Nat := 0
  nextToken : Int := -1
  bonus : Bool := false
deriving DecidableEq, Repr

/-- How far a sum of probabilities may be from one. -/
abbrev tolerance : K := 1 / 100000

def validateDistribution (probabilities : List K) : Except String Unit :=
  if probabilities.any (fun p => p < 0) then .error "invalid MTP probability"
  else if probabilities.isEmpty ∨ tolerance < |probabilities.sum - 1| then
    .error "MTP probability vector is not normalized"
  else .ok ()

/-- `clamp(uniform, 0, nextafter(1, 0))`.  No `double` lies between the upper bound and one, so
    what is in range stays as it is. -/
def clampUniform (uniform : K) : K :=
  if uniform < 0 then 0 else if uniform < 1 then uniform else 1 - 1 / 2 ^ 53

/-- The loop of `sample`, at an index, with the probability passed so far. -/
def sampleLoop (uniform : K) : List K → Nat → K → Int → Int
  | [], _, _, fallback => fallback
  | p :: ps, index, cumulative, fallback =>
    if p ≤ 0 then sampleLoop uniform ps (index + 1) cumulative fallback
    else if uniform < cumulative + p then index
    else sampleLoop uniform ps (index + 1) (cumulative + p) index

def sample (probabilities : List K) (uniform : K) : Except String Int := do
  validateDistribution probabilities
  pure (sampleLoop (clampUniform uniform) probabilities 0 0 (-1))

/-- What is drawn from after a rejected draft: the normalized positive part of the difference, or
    the target where there is none. -/
def correction (target proposal : List K) : List K :=
  let correction := List.zipWith (fun p q => max 0 (p - q)) target proposal
  let total := correction.sum
  if 0 < total then correction.map (· / total) else target

def acceptance (target proposal : List K) (draft : Nat) : K :=
  min 1 (target.getD draft 0 / proposal.getD draft 0)

/-- The loop over the positions, and what comes after it. -/
def verifyLoop (sampleUniform : K) :
    Nat → List Int → List (List K) → List (List K) → List K → Except String ChainVerification
  | position, draft :: drafts, proposal :: proposals, target :: targets, uniform :: uniforms =>
    if proposal.isEmpty ∨ proposal.length ≠ target.length ∨ draft < 0 ∨
        (proposal.length : Int) ≤ draft then
      .error "stochastic MTP chain distribution is incompatible"
    else do
      validateDistribution proposal
      validateDistribution target
      if proposal.getD draft.toNat 0 ≤ 0 then
        .error "stochastic MTP chain probability is invalid"
      else if clampUniform uniform < acceptance target proposal draft.toNat then
        verifyLoop sampleUniform (position + 1) drafts proposals targets uniforms
      else
        let nextToken ← sample (correction target proposal) sampleUniform
        pure { acceptedDrafts := position, nextToken, bonus := false }
  | position, [], _, [last], _ => do
      validateDistribution last
      let nextToken ← sample last sampleUniform
      pure { acceptedDrafts := position, nextToken, bonus := true }
  | _, _, _, _, _ => .error "stochastic MTP chain shapes are incompatible"

def verifyStochasticChain (drafts : List Int) (proposals targets : List (List K))
    (acceptanceUniforms : List K) (sampleUniform : K) : Except String ChainVerification :=
  if drafts.isEmpty ∨ proposals.length ≠ drafts.length ∨ targets.length ≠ drafts.length + 1 ∨
      acceptanceUniforms.length ≠ drafts.length then
    .error "stochastic MTP chain shapes are incompatible"
  else verifyLoop sampleUniform 0 drafts proposals targets acceptanceUniforms

/-- The token that a verification puts at a position: a draft it kept, or the next token. -/
def ChainVerification.emitted (v : ChainVerification) (drafts : List Int) (position : Nat) :
    Option Int :=
  if position < v.acceptedDrafts then drafts[position]?
  else if position = v.acceptedDrafts then some v.nextToken
  else none

end TyloQuant.Mtp
