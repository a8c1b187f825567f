import Mathlib.Algebra.Order.Group.Int
import TyloQuant.NgramHash.Engram

/-!
# The last tokens of a row

What a row keeps between two calls is the end of the row with padding before its start.  The tokens
that a hash mixes are found in this window as in the whole row, and so are the places at which the
two hashes cut: at an image token, or at the end of a sequence.
-/

namespace TyloQuant.NgramHash

open Lib EngramHashState List

/-! ### Windows -/

/-- The row with padding before its start. -/
def padded (padId : Int) (m : Nat) (row : List Int) : List Int := List.replicate m padId ++ row

/-- The `m` tokens before a position. -/
def window (padId : Int) (m : Nat) (row : List Int) (position : Nat) : List Int :=
  part (padded padId m row) position m

/-- The token `back` places before a position. -/
def tokenAt (padId : Int) (row : List Int) (position back : Nat) : Int :=
  if back ≤ position then row.getD (position - back) 0 else padId

variable {padId : Int} {m : Nat} {row chunk : List Int} {position : Nat}

theorem length_padded : (padded padId m row).length = m + row.length := by
  simp [padded]

theorem length_window (h : position ≤ row.length) : (window padId m row position).length = m := by
  refine length_part ?_
  rw [length_padded]
  omega

theorem window_nil : window padId m [] 0 = List.replicate m padId := by
  rw [window, padded, List.append_nil]
  exact part_self (length_replicate)

theorem getD_padded {back : Nat} (h : back ≤ m) :
    (padded padId m row).getD (m + position - back) 0 = tokenAt padId row position back := by
  unfold padded tokenAt
  split
  next hle =>
    rw [getD_append_right _ _ _ _ (by simp; omega), length_replicate]
    congr 1
    omega
  next hlt =>
    rw [getD_append _ _ _ _ (by simp; omega), getD_replicate _ (by omega)]

theorem tokenAt_take {padId : Int} {position back length : Nat} (h : position < length) :
    tokenAt padId (row.take length) position back = tokenAt padId row position back := by
  rw [tokenAt, tokenAt, getD_eq_getElem?_getD, getElem?_take_of_lt (by omega),
    ← getD_eq_getElem?_getD]

/-- A window and the chunk after it are the end of the longer row. -/
theorem window_append :
    window padId m row row.length ++ chunk = (padded padId m (row ++ chunk)).drop row.length := by
  have hwindow : window padId m row row.length = (padded padId m row).drop row.length := by
    rw [window, part, take_of_length_le]
    simp [length_padded]
  have hpadded : padded padId m (row ++ chunk) = padded padId m row ++ chunk := by
    simp [padded]
  rw [hwindow, hpadded, drop_append_of_le_length (by simp [length_padded])]

theorem window_advance :
    part (window padId m row row.length ++ chunk) chunk.length m =
      window padId m (row ++ chunk) (row.length + chunk.length) := by
  rw [window_append, window, part, part, drop_drop]

theorem getD_window_append {back token : Nat} (hback : back ≤ m) :
    (window padId m row row.length ++ chunk).getD (m + token - back) 0 =
      tokenAt padId (row ++ chunk) (row.length + token) back := by
  rw [window_append, getD_drop, ← getD_padded hback]
  congr 1
  omega

theorem window_take :
    window padId m (row.take position) position = window padId m row position := by
  have hpadded : padded padId m (row.take position) = (padded padId m row).take (m + position) := by
    have hfull : (List.replicate m padId).length ≤ m + position := by simp
    rw [padded, padded, take_append, take_of_length_le hfull, length_replicate,
      Nat.add_sub_cancel_left]
  rw [window, window, hpadded, part, part, drop_take, take_take]
  congr 1
  omega

/-- A window is found in an earlier one and the tokens since. -/
theorem getD_window_later {start column : Nat} (hstart : start ≤ position)
    (hcolumn : column < m) :
    (window padId m row position).getD column 0 =
      if position - start + column < m then
        (window padId m row start).getD (position - start + column) 0
      else (row.drop start).getD (position - start + column - m) 0 := by
  rw [window, getD_part hcolumn]
  split
  next hlt =>
    rw [window, getD_part hlt]
    congr 1
    omega
  next hge =>
    rw [padded, getD_append_right _ _ _ _ (by simp; omega), length_replicate, getD_drop]
    congr 1
    omega

/-! ### Mixing -/

theorem reduced_eq_emod {word : BitVec 64} {modulus : Int} (h : 0 < modulus) :
    reduced word modulus = word.toInt % modulus := by
  rw [reduced, Int.tmod_eq_emod]
  have hnonneg := Int.emod_nonneg word.toInt h.ne'
  have hlt := Int.emod_lt_of_pos word.toInt h
  have habs : (modulus.natAbs : Int) = modulus := Int.natAbs_of_nonneg h.le
  grind

theorem rolling_congr {tokens tokens' multipliers : Nat → Int} {shift : Nat}
    (h : ∀ k ≤ shift, tokens k = tokens' k) :
    rolling tokens multipliers shift = rolling tokens' multipliers shift := by
  induction shift with
  | zero => rw [rolling, rolling, h 0 (Nat.le_refl 0)]
  | succ shift ih =>
    rw [rolling, rolling, ih fun k hk => h k (by omega), h _ (Nat.le_refl _)]

/-! ### Cuts -/

/-- The tokens that an Engram hash mixes: from the last image on, and padding before it. -/
def cutAtImage (padId : Int) (row : List Int) (position back : Nat) : Int :=
  if ∃ near ≤ back, tokenAt padId row position near = kDeadToken then padId
  else tokenAt padId row position back

/-- The tokens that `ngram_hashes` mixes: those of the segment, and EOS before it. -/
def cutAtEos (eos : Int) (row : List Int) (position back : Nat) : Int :=
  if ∃ near ≤ back, 0 < near ∧ tokenAt eos row position near = eos then eos
  else tokenAt eos row position back

theorem getD_blockedTokens {sources : List Int} {blocked : Bool} {k : Nat}
    (hk : k < sources.length) :
    (blockedTokens padId blocked sources).getD k 0 =
      if blocked = true ∨ ∃ near ≤ k, sources.getD near 0 = kDeadToken then padId
      else sources.getD k 0 := by
  induction sources generalizing blocked k with
  | nil => simp at hk
  | cons source sources ih =>
    cases k with
    | zero => simp [blockedTokens]
    | succ k =>
      have hsplit : (∃ near ≤ k + 1, (source :: sources).getD near 0 = kDeadToken) ↔
          source = kDeadToken ∨ ∃ near ≤ k, sources.getD near 0 = kDeadToken := by
        constructor
        · rintro ⟨near, hnear, h⟩
          cases near with
          | zero => exact Or.inl (by simpa using h)
          | succ near => exact Or.inr ⟨near, by omega, by simpa using h⟩
        · rintro (h | ⟨near, hnear, h⟩)
          · exact ⟨0, by omega, by simpa using h⟩
          · exact ⟨near + 1, by omega, by simpa using h⟩
      rw [blockedTokens, getD_cons_succ, ih (by simpa using hk), getD_cons_succ]
      simp only [hsplit, Bool.or_eq_true, beq_iff_eq, or_assoc]

end TyloQuant.NgramHash
