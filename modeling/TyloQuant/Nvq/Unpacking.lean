import TyloQuant.Nvq.Group64

/-!
# The records are taken apart exactly

Both ways of writing a vector leave its index and its signs right after those before it: a step
lemma for one vector, one for eight records, and from them by induction rows and the whole.
-/

namespace TyloQuant.Nvq

open Lib Bits List

/-! ### Words -/

theorem and_127 (n : Nat) : n &&& 127 = n % 2 ^ 7 := Nat.and_two_pow_sub_one_eq_mod n 7

theorem and_4095 (n : Nat) : n &&& 4095 = n % 2 ^ 12 := Nat.and_two_pow_sub_one_eq_mod n 12

theorem and_1048575 (n : Nat) : n &&& 1048575 = n % 2 ^ 20 := Nat.and_two_pow_sub_one_eq_mod n 20

theorem testBit_or_shiftLeft {x y w : Nat} (hx : x < 2 ^ w) (j : Nat) :
    (x ||| y <<< w).testBit j = if j < w then x.testBit j else y.testBit (j - w) := by
  rw [Nat.testBit_or, Nat.testBit_shiftLeft]
  by_cases hj : j < w
  · simp [hj, show ¬w ≤ j by omega]
  · have hpow : 2 ^ w ≤ 2 ^ j := Nat.pow_le_pow_right (by omega) (by omega)
    simp [hj, show w ≤ j by omega, Nat.testBit_lt_two_pow (show x < 2 ^ j by omega)]

/-- Three fields of `w` bits, from segments of 20 bits. -/
def lanes (record start w : Nat) : Nat :=
  (record >>> start) % 2 ^ w ||| ((record >>> (start + 20)) % 2 ^ w) <<< w |||
    ((record >>> (start + 40)) % 2 ^ w) <<< (2 * w)

theorem testBit_lanes (record start : Nat) {w t : Nat} (ht : t < 3 * w) :
    (lanes record start w).testBit t = record.testBit (20 * (t / w) + (start + t % w)) := by
  have hw : 0 < w := by omega
  simp only [lanes, Nat.testBit_or, Nat.testBit_shiftLeft, Nat.testBit_mod_two_pow,
    Nat.testBit_shiftRight]
  rcases Nat.lt_or_ge t w with hlow | hlow
  · have hdiv : t / w = 0 := Nat.div_eq_of_lt hlow
    have hmod : t % w = t := Nat.mod_eq_of_lt hlow
    simp [hdiv, hmod, hlow, show ¬w ≤ t by omega, show ¬2 * w ≤ t by omega]
  rcases Nat.lt_or_ge t (2 * w) with hmid | hmid
  · obtain ⟨hdiv, hmod⟩ := div_mod_of_mem (n := 1) (by omega : w * 1 ≤ t) (by omega)
    simp [hdiv, hmod, hlow, show ¬t < w by omega, show t - w < w by omega,
      show ¬2 * w ≤ t by omega, show start + 20 + (t - w) = 20 + (start + (t - w)) by omega]
  · obtain ⟨hdiv, hmod⟩ := div_mod_of_mem (n := 2) (by omega : w * 2 ≤ t) (by omega)
    simp [hdiv, hmod, hlow, hmid, show ¬t < w by omega, show ¬t - w < w by omega,
      show t - 2 * w < w by omega, Nat.mul_comm w 2,
      show start + 40 + (t - 2 * w) = 40 + (start + (t - 2 * w)) by omega]

theorem lanes_lt (record start w : Nat) : lanes record start w < 2 ^ (3 * w) := by
  have hfield : ∀ n k : Nat, k ≤ 2 * w → (n % 2 ^ w) <<< k < 2 ^ (3 * w) := by
    intro n k hk
    have hlt : n % 2 ^ w < 2 ^ w := Nat.mod_lt _ (Nat.two_pow_pos w)
    have hpow : 2 ^ w * 2 ^ k ≤ 2 ^ (3 * w) := by
      rw [← Nat.pow_add]
      exact Nat.pow_le_pow_right (by omega) (by omega)
    rw [Nat.shiftLeft_eq]
    exact lt_of_lt_of_le (Nat.mul_lt_mul_of_pos_right hlt (Nat.two_pow_pos k)) hpow
  unfold lanes
  refine Nat.or_lt_two_pow (Nat.or_lt_two_pow ?_ (hfield _ _ (by omega))) (hfield _ _ (by omega))
  simpa using hfield (record >>> start) 0 (by omega)

theorem indexWord_eq (record : Nat) : indexWord record = lanes record 0 12 := by
  simp [indexWord, lanes, and_4095]

theorem signWord_eq (a b : Nat) : signWord a b = lanes a 12 7 ||| lanes b 12 7 <<< 21 := by
  simp only [signWord, lanes, and_127, Nat.shiftLeft_or_distrib, ← Nat.shiftLeft_add, Nat.or_assoc]

theorem testBit_signWord (a b : Nat) {t : Nat} (ht : t < 42) :
    (signWord a b).testBit t
      = (if t < 21 then a else b).testBit (20 * (t % 21 / 7) + (12 + t % 7)) := by
  rw [signWord_eq, testBit_or_shiftLeft (lanes_lt a 12 7)]
  by_cases hlow : t < 21
  · rw [if_pos hlow, if_pos hlow, testBit_lanes _ _ (by omega), Nat.mod_eq_of_lt hlow]
  · rw [if_neg hlow, if_neg hlow, testBit_lanes _ _ (by omega), show t % 21 = t - 21 by omega,
      show (t - 21) % 7 = t % 7 by omega]

theorem signWord_lt (a b : Nat) : signWord a b < 2 ^ 42 := by
  rw [signWord_eq]
  have ha := lanes_lt a 12 7
  have hb := lanes_lt b 12 7
  apply Nat.or_lt_two_pow
  · omega
  · rw [Nat.shiftLeft_eq]
    omega

/-! ### Stores -/

theorem bit_putIndices (data : Nat → UInt8) (start a b i : Nat) :
    bit (putIndices data start a b) i
      = if 8 * start ≤ i ∧ i < 8 * start + 72 then
          (if (i - 8 * start) < 36 then (indexWord a).testBit (i - 8 * start)
            else (indexWord b).testBit (i - 8 * start - 36))
        else bit data i := by
  have ha : indexWord a < 2 ^ 36 := by
    rw [indexWord_eq]
    exact lanes_lt a 0 12
  unfold putIndices
  simp only [bit_put, bit_word]
  by_cases hlast : 8 * (start + 8) ≤ i ∧ i < 8 * (start + 8 + 1)
  · rw [if_pos hlast, if_pos (by omega), if_neg (by omega), Nat.testBit_shiftRight]
    congr 1
    omega
  · rw [if_neg hlast]
    by_cases hfirst : 8 * start ≤ i ∧ i < 8 * (start + 8)
    · rw [if_pos hfirst, if_pos (by omega), Nat.testBit_mod_two_pow, testBit_or_shiftLeft ha]
      simp [show i - 8 * start < 64 by omega]
    · rw [if_neg hfirst, if_neg (by omega)]

theorem bit_putPairs (records : List UInt64) (data : Nat → UInt8) (start first pairs i : Nat) :
    bit ((List.range pairs).foldl (fun data pair =>
        putIndices data (start + pair * 9) (recordAt records (first + pair * 2))
          (recordAt records (first + pair * 2 + 1))) data) i
      = if 8 * start ≤ i ∧ i < 8 * start + 72 * pairs then
          (recordAt records (first + (i - 8 * start) / 36)).testBit
            (20 * ((i - 8 * start) % 36 / 12) + (i - 8 * start) % 12)
        else bit data i := by
  induction pairs with
  | zero => rw [if_neg (by omega)]; rfl
  | succ pairs ih =>
    rw [range_succ, foldl_append, foldl_cons, foldl_nil, bit_putIndices, ih]
    by_cases hlast : 8 * (start + pairs * 9) ≤ i ∧ i < 8 * (start + pairs * 9) + 72
    · rw [if_pos hlast, indexWord_eq, indexWord_eq]
      by_cases hlow : i - 8 * (start + pairs * 9) < 36
      · rw [if_pos hlow, if_pos (by omega), testBit_lanes _ _ (by omega),
          show (i - 8 * start) / 36 = pairs * 2 by omega]
        congr 1
        omega
      · rw [if_neg hlow, if_pos (by omega), testBit_lanes _ _ (by omega),
          show (i - 8 * start) / 36 = pairs * 2 + 1 by omega, Nat.add_assoc]
        congr 1
        omega
    · rw [if_neg hlast]
      by_cases hbefore : 8 * start ≤ i ∧ i < 8 * start + 72 * pairs
      · rw [if_pos hbefore, if_pos (by omega)]
      · rw [if_neg hbefore, if_neg (by omega)]

theorem bit_putSigns (data : Nat → UInt8) (start : Nat) {signs : Nat → Nat}
    (hsigns : ∀ pair, signs pair < 2 ^ 42) (i : Nat) :
    bit (putSigns data start signs) i
      = if 8 * start ≤ i ∧ i < 8 * start + 168 then
          (signs ((i - 8 * start) / 42)).testBit ((i - 8 * start) % 42)
        else bit data i := by
  have hclear : ∀ pair t, 42 ≤ t → (signs pair).testBit t = false := by
    intro pair t ht
    have hpow : 2 ^ 42 ≤ 2 ^ t := Nat.pow_le_pow_right (by omega) ht
    have hlt := hsigns pair
    exact Nat.testBit_lt_two_pow (by omega)
  unfold putSigns
  simp only [bit_put, bit_word]
  by_cases hin : 8 * start ≤ i ∧ i < 8 * start + 168
  swap
  · rw [if_neg hin, if_neg (by omega), if_neg (by omega), if_neg (by omega)]
  rw [if_pos hin]
  obtain ⟨q, rfl⟩ : ∃ q, i = 8 * start + q := ⟨i - 8 * start, by omega⟩
  simp only [Nat.add_sub_cancel_left]
  have hq : q < 168 := by omega
  by_cases hhigh : 128 ≤ q
  · rw [if_pos (by omega), Nat.testBit_shiftRight, show q / 42 = 3 by omega,
      show 2 + (8 * start + q - 8 * (start + 16)) = q % 42 by omega]
  rw [if_neg (by omega)]
  by_cases hmiddle : 64 ≤ q
  · rw [if_pos (by omega), show 8 * start + q - 8 * (start + 8) = q - 64 by omega]
    rw [Nat.testBit_mod_two_pow, decide_eq_true (show q - 64 < 64 by omega), Bool.true_and]
    simp only [Nat.testBit_or, Nat.testBit_shiftLeft, Nat.testBit_shiftRight]
    rcases Nat.lt_or_ge q 84 with h84 | h84
    · rw [decide_eq_false (show ¬20 ≤ q - 64 by omega),
        decide_eq_false (show ¬62 ≤ q - 64 by omega), show 22 + (q - 64) = q % 42 by omega,
        show q / 42 = 1 by omega]
      simp
    have hone := hclear 1 (22 + (q - 64)) (by omega)
    rcases Nat.lt_or_ge q 126 with h126 | h126
    · rw [hone, decide_eq_true (show 20 ≤ q - 64 by omega),
        decide_eq_false (show ¬62 ≤ q - 64 by omega), show q - 64 - 20 = q % 42 by omega,
        show q / 42 = 2 by omega]
      simp
    · rw [hone, hclear 2 (q - 64 - 20) (by omega), decide_eq_true (show 62 ≤ q - 64 by omega),
        show q - 64 - 62 = q % 42 by omega, show q / 42 = 3 by omega]
      simp
  · rw [if_neg (by omega), if_pos (by omega)]
    rw [Nat.testBit_mod_two_pow, decide_eq_true (show q < 64 by omega), Bool.true_and]
    simp only [Nat.testBit_or, Nat.testBit_shiftLeft]
    rcases Nat.lt_or_ge q 42 with h42 | h42
    · simp [show ¬42 ≤ q by omega, show q % 42 = q by omega, show q / 42 = 0 by omega]
    · simp [h42, show q - 42 = q % 42 by omega, show q / 42 = 1 by omega, hclear 0 q h42]

/-! ### Vectors in order -/

section Vectors

variable {records : List UInt64} {groups vectors row group : Nat}

theorem segmentOf_row {l : Nat} (hl : l < vectors) :
    segmentOf records groups vectors (row * vectors + l)
      = recordAt records (row * groups + l / 3) >>> (l % 3 * 20) := by
  have hdiv : (row * vectors + l) / vectors = row := by
    rw [Nat.mul_comm, Nat.mul_add_div (by omega), Nat.div_eq_of_lt hl, Nat.add_zero]
  have hmod : (row * vectors + l) % vectors = l := by
    rw [Nat.mul_comm, Nat.mul_add_mod, Nat.mod_eq_of_lt hl]
  unfold segmentOf
  rw [hdiv, hmod]

theorem testBit_indexOf {l j : Nat} (hl : l < vectors) (hj : j < 12) :
    (indexOf records groups vectors (row * vectors + l)).testBit j
      = (recordAt records (row * groups + l / 3)).testBit (20 * (l % 3) + j) := by
  unfold indexOf
  rw [Nat.testBit_mod_two_pow, segmentOf_row hl, Nat.testBit_shiftRight, Nat.mul_comm (l % 3)]
  simp [hj]

theorem testBit_signsOf {l j : Nat} (hl : l < vectors) (hj : j < 7) :
    (signsOf records groups vectors (row * vectors + l)).testBit j
      = (recordAt records (row * groups + l / 3)).testBit (20 * (l % 3) + (12 + j)) := by
  unfold signsOf
  rw [Nat.testBit_mod_two_pow, segmentOf_row hl, Nat.testBit_shiftRight, Nat.testBit_shiftRight,
    Nat.mul_comm (l % 3)]
  simp [hj]

theorem indexOf_lt (v : Nat) : indexOf records groups vectors v < 2 ^ 12 :=
  Nat.mod_lt _ (Nat.two_pow_pos 12)

theorem signsOf_lt (v : Nat) : signsOf records groups vectors v < 2 ^ 7 :=
  Nat.mod_lt _ (Nat.two_pow_pos 7)

/-- The streams hold the first `n` vectors. -/
structure Streams.Holds (indices aux : FieldTarget) (records : List UInt64) (groups vectors n : Nat)
    (s : Streams) : Prop where
  index : s.vectorIndex = n
  indices : Filled indices.data s.indices indices.bytes 12 n (indexOf records groups vectors)
  aux : Filled aux.data s.aux aux.bytes 7 n (signsOf records groups vectors)

variable {indices aux : FieldTarget} {s : Streams} {n l : Nat}

/-- One vector after the others. -/
theorem Streams.Holds.putOne (h : s.Holds indices aux records groups vectors (row * vectors + l))
    (hl : l < vectors) (hindices : 12 * (row * vectors + l + 1) ≤ 8 * indices.bytes)
    (haux : 7 * (row * vectors + l + 1) ≤ 8 * aux.bytes) :
    (putOne (recordAt records (row * groups + l / 3)) s (l % 3)).Holds indices aux records groups
      vectors (row * vectors + l + 1) := by
  obtain ⟨hindex, hfilled, hsigns⟩ := h
  set n := row * vectors + l with hn
  have hsegment : segmentOf records groups vectors n
      = recordAt records (row * groups + l / 3) >>> (l % 3 * 20) := segmentOf_row hl
  have hvalue : ((recordAt records (row * groups + l / 3) >>> (l % 3 * 20) &&& 0xfffff) &&& 0xfff)
      = indexOf records groups vectors n := by
    apply Nat.eq_of_testBit_eq
    intro j
    rw [and_4095, and_1048575, indexOf, hsegment, Nat.testBit_mod_two_pow,
      Nat.testBit_mod_two_pow, Nat.testBit_mod_two_pow]
    by_cases hj : j < 12
    · simp [hj, show j < 20 by omega]
    · simp [hj]
  have hsign : ((recordAt records (row * groups + l / 3) >>> (l % 3 * 20) &&& 0xfffff) >>> 12
      &&& 127) = signsOf records groups vectors n := by
    apply Nat.eq_of_testBit_eq
    intro j
    rw [and_127, and_1048575, signsOf, hsegment, Nat.testBit_mod_two_pow,
      Nat.testBit_mod_two_pow, Nat.testBit_shiftRight, Nat.testBit_shiftRight,
      Nat.testBit_mod_two_pow]
    by_cases hj : j < 7
    · simp [hj, show 12 + j < 20 by omega]
    · simp [hj]
  unfold Nvq.putOne
  rw [hindex]
  dsimp only
  rw [hvalue, hsign]
  have hshift : (n &&& 1) * 4 = 12 * n % 8 := by
    rw [Nat.and_one_is_mod]
    omega
  have hbit : n * 7 &&& 7 = 7 * n % 8 := by
    rw [Nat.and_two_pow_sub_one_eq_mod _ 3, Nat.mul_comm]
  rw [hshift, hbit, Nat.mul_comm n 12, Nat.mul_comm n 7]
  refine ⟨rfl, ?_, ?_⟩
  · exact hfilled.set hindices (indexOf_lt n)
      (bit_orPair_field s.indices (by omega) (indexOf_lt n))
  · apply hsigns.set haux (signsOf_lt n)
    by_cases hlong : 1 < 7 * n % 8
    · rw [if_pos hlong]
      exact bit_orPair_field s.aux (by omega) (signsOf_lt n)
    · rw [if_neg hlong]
      exact bit_orByte_field s.aux (by omega) (signsOf_lt n)

/-- Eight whole records after the others. -/
theorem Streams.Holds.putEight
    (h : s.Holds indices aux records groups vectors (row * vectors + group * 3))
    (haligned : (row * vectors + group * 3) % 8 = 0) (hgroup : group * 3 + 24 ≤ vectors)
    (hindices : 12 * (row * vectors + group * 3 + 24) ≤ 8 * indices.bytes)
    (haux : 7 * (row * vectors + group * 3 + 24) ≤ 8 * aux.bytes) :
    (putEight records (row * groups + group) s).Holds indices aux records groups vectors
      (row * vectors + group * 3 + 24) := by
  obtain ⟨hindex, hfilled, hsigns⟩ := h
  unfold Nvq.putEight
  rw [hindex]
  refine ⟨rfl, ?_, ?_⟩
  · apply hfilled.extend hindices
    intro i
    dsimp only
    rw [bit_putPairs, show 8 * ((row * vectors + group * 3) * 12 / 8)
      = 12 * (row * vectors + group * 3) by omega]
    by_cases hin : 12 * (row * vectors + group * 3) ≤ i ∧ i < 12 * (row * vectors + group * 3 + 24)
    · obtain ⟨q, rfl⟩ : ∃ q, i = 12 * (row * vectors + group * 3) + q :=
        ⟨i - 12 * (row * vectors + group * 3), by omega⟩
      rw [if_pos (by omega), if_pos hin,
        show (12 * (row * vectors + group * 3) + q) / 12 = row * vectors + (group * 3 + q / 12) by
          omega,
        show (12 * (row * vectors + group * 3) + q) % 12 = q % 12 by omega,
        testBit_indexOf (by omega) (by omega), Nat.add_sub_cancel_left,
        show (group * 3 + q / 12) / 3 = group + q / 36 by omega,
        show (group * 3 + q / 12) % 3 = q % 36 / 12 by omega, Nat.add_assoc]
    · rw [if_neg (by omega), if_neg hin]
  · apply hsigns.extend haux
    intro i
    dsimp only
    rw [bit_putSigns _ _ (fun pair => signWord_lt _ _),
      show 8 * ((row * vectors + group * 3) * 7 / 8) = 7 * (row * vectors + group * 3) by omega]
    by_cases hin : 7 * (row * vectors + group * 3) ≤ i ∧ i < 7 * (row * vectors + group * 3 + 24)
    · obtain ⟨q, rfl⟩ : ∃ q, i = 7 * (row * vectors + group * 3) + q :=
        ⟨i - 7 * (row * vectors + group * 3), by omega⟩
      have hrecord : (if q % 42 < 21 then recordAt records (row * groups + group + q / 42 * 2)
          else recordAt records (row * groups + group + q / 42 * 2 + 1))
          = recordAt records (row * groups + (group + q / 21)) := by
        by_cases hlow : q % 42 < 21
        · rw [if_pos hlow]
          congr 1
          omega
        · rw [if_neg hlow]
          congr 1
          omega
      rw [if_pos (by omega), if_pos hin, Nat.add_sub_cancel_left,
        testBit_signWord _ _ (by omega), hrecord,
        show (7 * (row * vectors + group * 3) + q) / 7 = row * vectors + (group * 3 + q / 7) by
          omega,
        show (7 * (row * vectors + group * 3) + q) % 7 = q % 7 by omega,
        testBit_signsOf (by omega) (by omega),
        show (group * 3 + q / 7) / 3 = group + q / 21 by omega,
        show (group * 3 + q / 7) % 3 = q % 42 % 21 / 7 by omega,
        show q % 42 % 7 = q % 7 by omega]
    · rw [if_neg (by omega), if_neg hin]

end Vectors

/-! ### Rows -/

section Rows

variable {records : List UInt64} {rows groups vectors row group n : Nat}
  {indices aux : FieldTarget} {s : Streams}

theorem filter_range_lt (a b n : Nat) :
    (List.range n).filter (fun offset => a + offset < b) = List.range (min n (b - a)) := by
  induction n with
  | zero => simp
  | succ n ih =>
    rw [range_succ, filter_append, ih]
    by_cases h : a + n < b
    · rw [show min (n + 1) (b - a) = n + 1 by omega, show min n (b - a) = n by omega,
        range_succ]
      simp [h]
    · rw [show min (n + 1) (b - a) = min n (b - a) by omega]
      simp [h]

theorem Streams.Holds.putRecord (count : Nat)
    (h : s.Holds indices aux records groups vectors (row * vectors + group * 3))
    (hthree : count ≤ 3) (hcount : group * 3 + count ≤ vectors)
    (hindices : 12 * (row * vectors + vectors) ≤ 8 * indices.bytes)
    (haux : 7 * (row * vectors + vectors) ≤ 8 * aux.bytes) :
    ((List.range count).foldl (Nvq.putOne (recordAt records (row * groups + group))) s).Holds
      indices aux records groups vectors (row * vectors + (group * 3 + count)) := by
  induction count with
  | zero => exact h
  | succ count ih =>
    have hbefore := ih (by omega) (by omega)
    rw [range_succ, foldl_append, foldl_cons, foldl_nil]
    have hone := hbefore.putOne (by omega) (by omega) (by omega)
    rwa [show (group * 3 + count) / 3 = group by omega,
      show (group * 3 + count) % 3 = count by omega] at hone

/-- A row, whichever way its vectors are written. -/
theorem Streams.Holds.unpackRow (hgroups : groups = (vectors + 2) / 3)
    (h : s.Holds indices aux records groups vectors (row * vectors + min vectors (group * 3)))
    (hindices : 12 * (row * vectors + vectors) ≤ 8 * indices.bytes)
    (haux : 7 * (row * vectors + vectors) ≤ 8 * aux.bytes) :
    (unpackRow records groups vectors row group s).Holds indices aux records groups vectors
      (row * vectors + vectors) := by
  fun_induction Nvq.unpackRow records groups vectors row group s with
  | case1 group s hlt hfast ih =>
    rw [show min vectors (group * 3) = group * 3 by omega] at h
    have haligned : (row * vectors + group * 3) % 8 = 0 := by
      rw [← h.index, ← Nat.and_two_pow_sub_one_eq_mod _ 3]
      exact hfast.1
    apply ih
    rw [show min vectors ((group + 8) * 3) = group * 3 + 24 by omega, ← Nat.add_assoc]
    exact h.putEight haligned hfast.2 (by omega) (by omega)
  | case2 group s hlt hslow ih =>
    rw [show min vectors (group * 3) = group * 3 by omega] at h
    apply ih
    rw [filter_range_lt,
      show min vectors ((group + 1) * 3) = group * 3 + min 3 (vectors - group * 3) by omega]
    exact h.putRecord _ (by omega) (by omega) hindices haux
  | case3 group s hend =>
    rwa [show min vectors (group * 3) = vectors by omega] at h

theorem unpackRows_holds (hgroups : groups = (vectors + 2) / 3) (n : Nat)
    (hindices : 12 * (n * vectors) ≤ 8 * indices.bytes)
    (haux : 7 * (n * vectors) ≤ 8 * aux.bytes) :
    ((List.range n).foldl (fun s row => unpackRow records groups vectors row 0 s)
        { vectorIndex := 0, indices := indices.clear.data, aux := aux.clear.data }).Holds
      indices aux records groups vectors (n * vectors) := by
  induction n with
  | zero =>
    rw [Nat.zero_mul]
    exact ⟨rfl, filled_zeros _ _ _ _, filled_zeros _ _ _ _⟩
  | succ n ih =>
    rw [Nat.succ_mul n vectors] at hindices haux ⊢
    rw [range_succ, foldl_append, foldl_cons, foldl_nil]
    apply Streams.Holds.unpackRow hgroups _ hindices haux
    rw [Nat.zero_mul, Nat.min_zero, Nat.add_zero]
    exact ih (by omega) (by omega)

/-! ### States and checks -/

variable {target : FieldTarget}

theorem states_filled (n : Nat) (hroom : 4 * n ≤ 8 * target.bytes) :
    Filled target.data ((List.range n).foldl (stateStep records) (0, target.clear.data)).2
      target.bytes 4 n (stateOf records) := by
  induction n with
  | zero => exact filled_zeros _ _ _ _
  | succ n ih =>
    rw [range_succ, foldl_append, foldl_cons, foldl_nil]
    have hstate : stateOf records n < 2 ^ 4 := by
      have hlt : recordAt records n < 2 ^ 64 := UInt64.toNat_lt _
      unfold stateOf
      rw [Nat.shiftRight_eq_div_pow]
      omega
    have hshift : (n &&& 1) * 4 = 4 * n % 8 := by
      rw [Nat.and_one_is_mod]
      omega
    apply (ih (by omega)).set hroom hstate
    unfold stateStep
    rw [hshift, show n / 2 = 4 * n / 8 by omega]
    exact bit_orByte_field _ (by omega) hstate

theorem testBit_parityOf (record p : Nat) :
    (parityOf record).testBit p = oddParity (record >>> p) := by
  simp only [parityOf, oddParity, List.range, List.range.loop, List.foldl, Nat.testBit_xor,
    Nat.testBit_shiftRight, Bool.false_xor, Nat.add_zero]
  rw [show 4 + (2 + (1 + p)) = p + 7 by omega, show 4 + (2 + p) = p + 6 by omega,
    show 4 + (1 + p) = p + 5 by omega, show 2 + (1 + p) = p + 3 by omega, Nat.add_comm 4,
    Nat.add_comm 2, Nat.add_comm 1]
  simp only [Bool.xor_assoc, Bool.xor_left_comm]

theorem and_one_shiftLeft (n p : Nat) : n &&& 1 <<< p = 0 ↔ n.testBit p = false := by
  rw [Nat.one_shiftLeft, Nat.and_two_pow]
  cases n.testBit p <;> simp

theorem parity_mask (record : Nat) : parityOf record &&& parityMask = 0 ↔
    ∀ offset < 3, oddParity (record >>> (offset * 20 + 12)) = false := by
  unfold parityMask
  rw [Nat.and_or_distrib_left, Nat.and_or_distrib_left, Nat.or_eq_zero_iff, Nat.or_eq_zero_iff,
    and_one_shiftLeft, and_one_shiftLeft, and_one_shiftLeft, testBit_parityOf, testBit_parityOf,
    testBit_parityOf]
  constructor
  · rintro ⟨⟨h0, h1⟩, h2⟩ offset hoffset
    obtain rfl | rfl | rfl : offset = 0 ∨ offset = 1 ∨ offset = 2 := by omega
    · exact h0
    · exact h1
    · exact h2
  · intro h
    exact ⟨⟨h 0 (by omega), h 1 (by omega)⟩, h 2 (by omega)⟩

theorem states_parity (n : Nat) (data : Nat → UInt8) :
    ((List.range n).foldl (stateStep records) (0, data)).1 = 0 ↔
      ∀ i < n, ∀ offset < 3, oddParity (recordAt records i >>> (offset * 20 + 12)) = false := by
  induction n with
  | zero => simp
  | succ n ih =>
    rw [range_succ, foldl_append, foldl_cons, foldl_nil]
    change _ ||| (parityOf (recordAt records n) &&& parityMask) = 0 ↔ _
    rw [Nat.or_eq_zero_iff, ih, parity_mask]
    constructor
    · rintro ⟨hbefore, hlast⟩ i hi
      rcases Nat.lt_succ_iff_lt_or_eq.mp hi with hi | rfl
      · exact hbefore i hi
      · exact hlast
    · intro h
      exact ⟨fun i hi => h i (by omega), h n (by omega)⟩

theorem and_padding (n tail : Nat) (htail : tail * 20 ≤ 60) :
    n &&& padding tail = 0 ↔ ∀ j, tail * 20 ≤ j → j < 60 → n.testBit j = false := by
  have hbit : ∀ j, (n &&& padding tail).testBit j
      = (n.testBit j && (decide (j < 60) ^^ decide (j < tail * 20))) := by
    intro j
    unfold padding
    rw [Nat.one_shiftLeft, Nat.one_shiftLeft, Nat.testBit_and, Nat.testBit_xor,
      Nat.testBit_two_pow_sub_one, Nat.testBit_two_pow_sub_one]
  constructor
  · intro h j hlow hhigh
    have hj := hbit j
    rw [h, Nat.zero_testBit] at hj
    simpa [hhigh, show ¬j < tail * 20 by omega] using hj
  · intro h
    apply Nat.eq_of_testBit_eq
    intro j
    rw [hbit, Nat.zero_testBit]
    by_cases hlow : j < tail * 20
    · simp [hlow, show j < 60 by omega]
    · by_cases hhigh : j < 60
      · simp [h j (by omega) hhigh]
      · simp [hlow, hhigh]

theorem checkPadding_iff : checkPadding records rows groups vectors = true ↔
    (vectors % 3 = 0 ∨ ∀ row < rows, ∀ j, vectors % 3 * 20 ≤ j → j < 60 →
      (recordAt records ((row + 1) * groups - 1)).testBit j = false) := by
  unfold checkPadding
  simp only [Bool.or_eq_true, decide_eq_true_eq, all_eq_true, mem_range,
    and_padding _ _ (show vectors % 3 * 20 ≤ 60 by omega)]

/-- What the two checks refuse. -/
theorem not_malformed : ¬Malformed records rows groups vectors ↔
    (∀ i < records.length, ∀ offset < 3,
      oddParity (recordAt records i >>> (offset * 20 + 12)) = false) ∧
    checkPadding records rows groups vectors = true := by
  rw [checkPadding_iff]
  unfold Malformed
  push Not
  simp only [Bool.not_eq_true, ne_eq]
  constructor
  · rintro ⟨hparity, hpadding⟩
    refine ⟨hparity, ?_⟩
    by_cases htail : vectors % 3 = 0
    · exact Or.inl htail
    · exact Or.inr (hpadding htail)
  · rintro ⟨hparity, hpadding⟩
    refine ⟨hparity, fun htail => ?_⟩
    rcases hpadding with hzero | hpadding
    · exact absurd hzero htail
    · exact hpadding

theorem FieldTarget.holds_of_filled {data : Nat → UInt8} {w : Nat} {value : Nat → Nat}
    (h : Filled target.data data target.bytes w n value) (hroom : w * n ≤ 8 * target.bytes)
    (hvalue : ∀ v < n, value v < 2 ^ w) :
    target.Holds { target.clear with data } w n value := by
  refine ⟨rfl, fun v hv => h.field_eq hv hroom (hvalue v hv), fun i hlow hi => ?_, h.frame⟩
  rw [h.bits i hi]
  simp [show ¬i < w * n by omega]

/-- **The records are taken apart exactly**: each state, index and sign field is where it belongs,
    and what is refused is an odd parity or a padding bit that is set. -/
theorem unpack_group64_exact {fields : FieldTargets}
    (hgroups : groups = (vectors + 2) / 3) (hrecords : records.length = rows * groups)
    (hstates : fields.states.bytes = packed (rows * groups) 4)
    (hindices : fields.indices.bytes = packed (rows * vectors) 12)
    (haux : fields.aux.bytes = packed (rows * vectors) 7) :
    (Malformed records rows groups vectors →
      ∃ e, unpackGroup64 records rows groups vectors fields = .error e) ∧
    (¬Malformed records rows groups vectors →
      ∃ out, unpackGroup64 records rows groups vectors fields = .ok out ∧
        out.anchors = fields.anchors ∧
        fields.states.Holds out.states 4 (rows * groups) (stateOf records) ∧
        fields.indices.Holds out.indices 12 (rows * vectors) (indexOf records groups vectors) ∧
        fields.aux.Holds out.aux 7 (rows * vectors) (signsOf records groups vectors)) := by
  constructor
  · intro h
    unfold unpackGroup64
    dsimp only
    split
    · exact ⟨_, rfl⟩
    · rename_i hparity
      rw [not_not, states_parity] at hparity
      have hpadding : checkPadding records rows groups vectors = false := by
        rw [← Bool.not_eq_true]
        exact fun hpadding => not_malformed.mpr ⟨hparity, hpadding⟩ h
      rw [hpadding]
      exact ⟨_, rfl⟩
  · intro h
    obtain ⟨hparity, hpadding⟩ := not_malformed.mp h
    unfold packed at hstates hindices haux
    unfold unpackGroup64
    dsimp only
    rw [if_neg (by rw [not_not, states_parity]; exact hparity), hpadding, hrecords]
    refine ⟨_, rfl, rfl, ?_, ?_, ?_⟩
    · apply FieldTarget.holds_of_filled (states_filled _ (by omega)) (by omega)
      intro v _
      have hlt : recordAt records v < 2 ^ 64 := UInt64.toNat_lt _
      unfold stateOf
      rw [Nat.shiftRight_eq_div_pow]
      omega
    · have hrows := @unpackRows_holds records _ _ _ _ hgroups rows
        (show 12 * (rows * vectors) ≤ 8 * fields.indices.bytes by omega)
        (show 7 * (rows * vectors) ≤ 8 * fields.aux.bytes by omega)
      exact FieldTarget.holds_of_filled hrows.indices (by omega) fun v _ => indexOf_lt v
    · have hrows := @unpackRows_holds records _ _ _ _ hgroups rows
        (show 12 * (rows * vectors) ≤ 8 * fields.indices.bytes by omega)
        (show 7 * (rows * vectors) ≤ 8 * fields.aux.bytes by omega)
      exact FieldTarget.holds_of_filled hrows.aux (by omega) fun v _ => signsOf_lt v

end Rows

/-- A row of 25 vectors: eight full records, and one with a vector and padding. -/
def sampleRecords : List UInt64 := List.replicate 8 0x50500B0000903007 ++ [0x600000000000F0FF]

/-- Five state, 38 index and 22 sign bytes in a memory of ones. -/
def sampleTargets : FieldTargets where
  anchors := { data := fun _ => 255, bytes := 2 }
  states := { data := fun _ => 255, bytes := 5 }
  indices := { data := fun _ => 255, bytes := 38 }
  aux := { data := fun _ => 255, bytes := 22 }

theorem unpack_group64_exact_sample :
    ∃ out, unpackGroup64 sampleRecords 1 9 25 sampleTargets = .ok out ∧
      field out.states.data 28 4 = 5 ∧ field out.states.data 32 4 = 6 ∧
      field out.indices.data 264 12 = 9 ∧ field out.indices.data 276 12 = 11 ∧
      field out.indices.data 288 12 = 255 ∧ field out.aux.data 147 7 = 3 ∧
      field out.aux.data 161 7 = 5 ∧ field out.aux.data 168 7 = 15 ∧ out.aux.data 22 = 255 := by
  have hwell : ¬Malformed sampleRecords 1 9 25 := not_malformed.mpr ⟨by decide, by decide⟩
  obtain ⟨out, hout, -, hstates, hindices, haux⟩ :=
    (@unpack_group64_exact sampleRecords 1 9 25 sampleTargets rfl rfl rfl rfl rfl).2 hwell
  exact ⟨out, hout, hstates.fields 7 (by decide), hstates.fields 8 (by decide),
    hindices.fields 22 (by decide), hindices.fields 23 (by decide), hindices.fields 24 (by decide),
    haux.fields 21 (by decide), haux.fields 23 (by decide), haux.fields 24 (by decide),
    haux.frame 22 (by decide)⟩

end TyloQuant.Nvq
