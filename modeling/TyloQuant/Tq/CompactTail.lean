import Mathlib.Data.List.Nodup
import TyloQuant.Tq.Descriptors
import TyloQuant.Tq.States

/-!
# The padding of a last ring

Cutting the padding off a ring cuts the ring open: the bits that its first states read past its
end are kept as the boundary state, in the bits of the descriptor that have no other use.
-/

namespace TyloQuant.Tq

open Lib Bytes ByteFile Bits List

/-! ### Boundary states in descriptors -/

theorem testBit_scatterSeed (seed i : Nat) : (TQTensor.scatterSeed seed).testBit i =
    (if 35 ≤ i ∧ i < 40 then seed.testBit (i - 35) else if 56 ≤ i ∧ i < 64 then seed.testBit (i - 51)
      else if i = 0 then seed.testBit 13 else decide (i = 31) && seed.testBit 14) := by
  have h0 := testBit_placed (n := 5) rfl seed 35 0 i
  have h1 := testBit_placed (n := 8) rfl seed 56 5 i
  have h2 := testBit_placed (n := 1) rfl seed 0 13 i
  have h3 := testBit_placed (n := 1) rfl seed 31 14 i
  rw [Nat.shiftRight_zero] at h0
  rw [Nat.shiftLeft_zero] at h2
  change ((((seed &&& (2 ^ 5 - 1)) <<< 35 ||| (seed >>> 5 &&& (2 ^ 8 - 1)) <<< 56)
    ||| (seed >>> 13 &&& (2 ^ 1 - 1))) ||| (seed >>> 14 &&& (2 ^ 1 - 1)) <<< 31).testBit i = _
  rw [Nat.testBit_or, Nat.testBit_or, Nat.testBit_or, h0, h1, h2, h3]
  by_cases hlow : 35 ≤ i ∧ i < 40
  · simp [hlow, show ¬56 ≤ i by omega, show ¬i = 0 by omega, show ¬i < 32 by omega]
  · by_cases hhigh : 56 ≤ i ∧ i < 64
    · simp [hlow, hhigh, show ¬i = 0 by omega, show ¬i < 32 by omega,
        show 5 + (i - 56) = i - 51 by omega]
    · by_cases heq : i = 0
      · simp [heq]
      · by_cases heq' : i = 31
        · simp [heq']
        · simp [hlow, hhigh, heq, heq', show ¬(31 ≤ i ∧ i < 32) by omega]

/-- The bits of a descriptor that are kept: the width and the anchor. -/
theorem testBit_kept (i : Nat) : (0x00ffff0700000000).testBit i
    = (decide (32 ≤ i ∧ i < 35) || decide (40 ≤ i ∧ i < 56)) := by
  change ((2 ^ 3 - 1) <<< 32 ||| (2 ^ 16 - 1) <<< 40).testBit i = _
  rw [Nat.testBit_or, Nat.testBit_shiftLeft, Nat.testBit_shiftLeft, Nat.testBit_two_pow_sub_one,
    Nat.testBit_two_pow_sub_one, ← Bool.decide_and, ← Bool.decide_and]
  congr 1
  · exact decide_eq_decide.mpr (by omega)
  · exact decide_eq_decide.mpr (by omega)

section Descriptor

variable {d off seed : Nat}

/-- The descriptor of a compact row. -/
def compactDescriptor (d off seed : Nat) : Nat :=
  d &&& 0x00ffff0700000000 ||| off ||| TQTensor.scatterSeed seed

variable (hoff : off < 2 ^ 31)

include hoff

theorem testBit_compactDescriptor {i : Nat} (hi : 31 < i) :
    (compactDescriptor d off seed).testBit i
      = (((decide (32 ≤ i ∧ i < 35) || decide (40 ≤ i ∧ i < 56)) && d.testBit i)
        || (TQTensor.scatterSeed seed).testBit i) := by
  have hpow : 2 ^ 31 ≤ 2 ^ i := Nat.pow_le_pow_right (by omega) (by omega)
  have hclear : off.testBit i = false := Nat.testBit_lt_two_pow (by omega)
  rw [compactDescriptor, Nat.testBit_or, Nat.testBit_or, Nat.testBit_and, testBit_kept, hclear,
    Bool.or_false, Bool.and_comm]

theorem bitsOf_compactDescriptor : bitsOf (compactDescriptor d off seed) = bitsOf d := by
  apply bitsOf_congr
  intro i hi hlt
  rw [testBit_compactDescriptor hoff (by omega), testBit_scatterSeed]
  simp [hi, hlt, show ¬35 ≤ i by omega, show ¬56 ≤ i by omega, show ¬i = 0 by omega,
    show ¬i = 31 by omega]

theorem anchorOf_compactDescriptor : anchorOf (compactDescriptor d off seed) = anchorOf d := by
  apply anchorOf_congr
  intro i hi hlt
  rw [testBit_compactDescriptor hoff (by omega), testBit_scatterSeed]
  simp [hi, hlt, show ¬i < 40 by omega, show ¬56 ≤ i by omega, show ¬i = 0 by omega,
    show ¬i = 31 by omega]

theorem tailSeed_compactDescriptor (heven : off % 2 = 0) (hseed : seed < 2 ^ 15) :
    tailSeed (compactDescriptor d off seed) = seed := by
  have hfirst : (compactDescriptor d off seed).testBit 0 = seed.testBit 13 := by
    have hclear : off.testBit 0 = false := by simp [Nat.testBit_zero, heven]
    rw [compactDescriptor, Nat.testBit_or, Nat.testBit_or, Nat.testBit_and, testBit_kept, hclear,
      testBit_scatterSeed]
    simp
  have hlast : (compactDescriptor d off seed).testBit 31 = seed.testBit 14 := by
    have hclear : off.testBit 31 = false := Nat.testBit_lt_two_pow hoff
    rw [compactDescriptor, Nat.testBit_or, Nat.testBit_or, Nat.testBit_and, testBit_kept, hclear,
      testBit_scatterSeed]
    simp
  apply Nat.eq_of_testBit_eq
  intro j
  rw [testBit_tailSeed, hfirst, hlast]
  by_cases h5 : j < 5
  · rw [if_pos h5, testBit_compactDescriptor hoff (by omega), testBit_scatterSeed]
    simp [show 35 + j < 40 by omega, show ¬35 + j < 35 by omega, show ¬40 ≤ 35 + j by omega]
  · by_cases h13 : j < 13
    · rw [if_neg h5, if_pos h13, testBit_compactDescriptor hoff (by omega), testBit_scatterSeed]
      simp [show ¬51 + j < 35 by omega, show ¬51 + j < 56 by omega, show ¬51 + j < 40 by omega,
        show 56 ≤ 51 + j by omega, show 51 + j < 64 by omega]
    · rw [if_neg h5, if_neg h13]
      by_cases heq : j = 13
      · rw [if_pos heq, heq]
      · rw [if_neg heq]
        by_cases heq' : j = 14
        · simp [heq']
        · have hpow : 2 ^ 15 ≤ 2 ^ j := Nat.pow_le_pow_right (by omega) (by omega)
          have hclear : seed.testBit j = false := Nat.testBit_lt_two_pow (by omega)
          simp [heq', hclear]

end Descriptor

/-! ### States of the kept bytes -/

namespace TQTensor

variable {t : TQTensor} {w k row : Nat} (hk : 1 ≤ k ∧ k ≤ 8)

include hk

theorem boundarySeed_eq : t.boundarySeed w k row
    = field (ringByte k (t.lastRing w k row)) (255 * k) 16 >>> k := by
  have hring (j : Nat) (hj : j < 64 * k) :
      t.lastRing w k row (j % (32 * k)) = ringByte k (t.lastRing w k row) j := by
    unfold ringByte
    split
    · rw [Nat.mod_eq_of_lt ‹_›]
    · rw [Nat.mod_eq_sub_mod (by omega), Nat.mod_eq_of_lt (by omega)]
  unfold boundarySeed
  dsimp only
  rw [hring _ (by omega), hring _ (by omega), hring _ (by omega), ← triple_shiftRight]
  exact congrArg (· >>> k) (Nat.and_two_pow_sub_one_eq_mod _ 16)

theorem testBit_boundarySeed (j : Nat) : (t.boundarySeed w k row).testBit j
    = (decide (j < 16 - k) && bit (ringByte k (t.lastRing w k row)) (256 * k + j)) := by
  rw [boundarySeed_eq hk, Nat.testBit_shiftRight, testBit_field,
    show 255 * k + (k + j) = 256 * k + j by omega,
    show decide (k + j < 16) = decide (j < 16 - k) from decide_eq_decide.mpr (by omega)]

theorem boundarySeed_lt : t.boundarySeed w k row < 2 ^ (16 - k) := by
  apply Nat.lt_pow_two_of_testBit
  intro j hj
  rw [testBit_boundarySeed hk]
  simp [show ¬j < 16 - k by omega]

omit hk in
theorem bit_tailByte {size seed i : Nat} (rest : Nat → UInt8) (hi : i < 8 * size + 16) :
    bit (tailByte size seed rest) i
      = if i < 8 * size then bit rest i else seed.testBit (i - 8 * size) := by
  have hmod : i % 8 < 8 := Nat.mod_lt _ (by omega)
  unfold bit tailByte
  by_cases hin : i < 8 * size
  · rw [if_pos (by omega), if_pos hin]
  · rw [if_neg (by omega), if_neg hin]
    by_cases hfirst : i / 8 = size
    · rw [if_pos hfirst, testBit_ofNat, testBit_and_mask (show 255 = 2 ^ 8 - 1 from rfl),
        show i - 8 * size = i % 8 by omega]
      simp [hmod]
    · rw [if_neg hfirst, testBit_ofNat, Nat.testBit_shiftRight,
        show i - 8 * size = 8 + i % 8 by omega]
      simp [hmod]

omit hk in
theorem bit_ringByte {ring : Nat → UInt8} {i : Nat} (hi : i < 256 * k) :
    bit (ringByte k ring) i = bit ring i := by
  unfold bit ringByte
  rw [if_pos (by omega)]

omit hk in
/-- The kept bytes of the last ring are its end. -/
theorem kept_tail (row j : Nat) : t.kept w k row (w / 256 * 32 * k + j)
    = t.lastRing w k row ((256 - w % 256) * k / 8 + j) := by
  unfold kept
  dsimp only
  rw [if_neg (by omega), Nat.add_sub_cancel_left]

theorem stateAt_kept {W seed i : Nat} (hmod : w % 32 = 0) (hW : W = (w / 256 + 1) * 256) (hi : i < w) :
    stateAt w k (t.boundarySeed w k row) (t.kept w k row) i = stateAt W k seed (t.raw row) i := by
  have hfull : W / 256 = w / 256 + 1 := by omega
  rw [stateAt, stateAt, if_pos (show i < W / 256 * 256 by omega)]
  by_cases hin : i < w / 256 * 256
  · rw [if_pos hin]
    apply ring_congr hk.1 hin
    intro j hj
    unfold kept
    dsimp only
    rw [if_pos (by rw [Nat.mul_assoc]; exact hj)]
  · -- The ring is cut before its place 256 - tail; what lies before is padding.
    rw [if_neg hin]
    obtain ⟨n, m, hn, hm⟩ : ∃ n m, w % 256 = 8 * n ∧ n + m = 32 :=
      ⟨w % 256 / 8, 32 - w % 256 / 8, by omega, by omega⟩
    have hnk : w % 256 * k / 8 = n * k := by
      rw [hn, Nat.mul_assoc]
      omega
    have hmk : (256 - w % 256) * k / 8 = m * k := by
      rw [hn, show 256 - 8 * n = 8 * m by omega, Nat.mul_assoc]
      omega
    have hsum : n * k + m * k = 32 * k := by rw [← Nat.add_mul, hm]
    have hpos : (w % 256 - 1 - i % 256) * k + k ≤ 8 * (n * k) := by
      rw [← Nat.succ_mul, ← Nat.mul_assoc]
      exact Nat.mul_le_mul_right k (by omega)
    have hshift : (255 - i % 256) * k = (w % 256 - 1 - i % 256) * k + 8 * (m * k) := by
      rw [← Nat.mul_assoc, ← Nat.add_mul]
      congr 1
      omega
    have hring : (fun j => t.raw row (32 * k * (i / 256) + j)) = t.lastRing w k row := by
      funext j
      have hplace : 32 * k * (w / 256) = w / 256 * 32 * k := by ring
      rw [lastRing, show i / 256 = w / 256 by omega, hplace]
    simp only [hnk, hshift, hring, kept_tail, hmk]
    rw [field_eq_iff]
    intro j hj
    rw [bit_tailByte _ (by omega)]
    by_cases hlow : (w % 256 - 1 - i % 256) * k + j < 8 * (n * k)
    · rw [if_pos hlow, bit_add, bit_ringByte (by omega)]
      congr 1
      omega
    · rw [if_neg hlow, testBit_boundarySeed hk]
      simp only [show (w % 256 - 1 - i % 256) * k + j - 8 * (n * k) < 16 - k by omega, decide_true,
        Bool.true_and]
      congr 1
      omega

omit hk

/-! ### The copied rows -/

/-- The rows of one width after the other. -/
def grouped (n : Nat) (bits : Nat → Nat) : List Nat :=
  (List.range' 1 8).flatMap fun k => (List.range n).filter fun row => bits row = k

theorem mem_grouped {n row : Nat} {bits : Nat → Nat} :
    row ∈ grouped n bits ↔ row < n ∧ 1 ≤ bits row ∧ bits row ≤ 8 := by
  simp only [grouped, mem_flatMap, mem_range'_1, mem_filter, mem_range,
    decide_eq_true_eq]
  constructor
  · rintro ⟨k, hk, hrow, rfl⟩
    omega
  · rintro ⟨hrow, hbits⟩
    exact ⟨_, by omega, hrow, rfl⟩

theorem nodup_grouped (n : Nat) (bits : Nat → Nat) : (grouped n bits).Nodup := by
  rw [grouped, nodup_flatMap]
  refine ⟨fun k _ => nodup_range.filter _, ?_⟩
  apply List.Pairwise.imp _ nodup_range'
  intro k l hne row hk hl
  simp only [mem_filter, decide_eq_true_eq] at hk hl
  exact hne (hk.2.symm.trans hl.2)

section Rows

variable {t' : TQTensor} {empty : Nat → UInt8}

/-- What a call that cuts a tail leaves, row by row. -/
structure Cut (t : TQTensor) (w : Nat) (t' : TQTensor) : Prop where
  columns : t.columns = true
  rows : t'.rows = t.rows
  width : t'.width = w
  gs : t'.gs = t.gs
  geometry : w % 32 = 0 ∧ w % 256 ≠ 0 ∧ t.width = (w / 256 + 1) * 256
  scales : ∀ scales, t.scales = .columns scales → t'.scales = .columns (scales.take w)
  descriptors : ∀ row < t.rows, ∃ off < 2 ^ 31, off % 2 = 0 ∧ (t'.descriptor row).toNat
    = compactDescriptor (t.descriptor row).toNat off (t.boundarySeed w (t.bits row) row)
  bytes : ∀ row < t.rows, ∀ j < w * t.bits row / 8, t'.rowByte row j = t.kept w (t.bits row) row j

/-- The words of the rows that are kept. -/
def keptWords (t : TQTensor) (w row : Nat) : Nat := w * t.bits row / 32

theorem keptLengths_eq (t : TQTensor) (w : Nat) :
    (t.descriptors.map fun d => w * bitsOf d.toNat / 32) = (List.range t.rows).map (t.keptWords w) :=
  t.sound.map_descriptors fun d => w * bitsOf d.toNat / 32

theorem scatterSeed_lt (seed : Nat) : scatterSeed seed < 2 ^ 64 := by
  apply Nat.lt_pow_two_of_testBit
  intro i hi
  rw [testBit_scatterSeed]
  simp [show ¬i < 40 by omega, show ¬i < 64 by omega, show ¬i = 0 by omega, show ¬i = 31 by omega]

/-- Where the kept words of a row start. -/
def keptStart (t : TQTensor) (w row : Nat) : Nat :=
  (((List.range t.rows).map (t.keptWords w)).take row).sum

theorem getD_keptStart (hrow : row < t.rows) :
    (cumulative 0 ((List.range t.rows).map (t.keptWords w))).getD row 0 = t.keptStart w row := by
  rw [getD_cumulative 0 (by simpa using hrow), Nat.zero_add]
  rfl

theorem keptStart_succ (hrow : row < t.rows) :
    t.keptStart w (row + 1) = t.keptStart w row + t.keptWords w row := by
  rw [keptStart, sum_take_succ _ (by simpa using hrow), keptStart,
    getD_eq_getElem _ _ (by simpa using hrow), getElem_map, getElem_range]

theorem keptStart_mono {i j : Nat} (h : i ≤ j) : t.keptStart w i ≤ t.keptStart w j := sum_take_le h

theorem kept_bytes (hmod : w % 32 = 0) (row : Nat) :
    w * t.bits row / 8 = t.keptWords w row * 4 := by
  obtain ⟨v, rfl⟩ : ∃ v, w = 32 * v := ⟨w / 32, by omega⟩
  unfold keptWords
  rw [Nat.mul_assoc]
  omega

/-- The kept bytes of different rows are apart. -/
theorem kept_apart {a b i : Nat} (ha : a < t.rows) (hb : b < t.rows)
    (hia : t.keptStart w a * 4 ≤ i ∧ i < t.keptStart w a * 4 + t.keptWords w a * 4)
    (hib : t.keptStart w b * 4 ≤ i ∧ i < t.keptStart w b * 4 + t.keptWords w b * 4) : b = a := by
  have hsucca := @keptStart_succ t w a ha
  have hsuccb := @keptStart_succ t w b hb
  rcases Nat.lt_trichotomy b a with hlt | heq | hlt
  · have hle : t.keptStart w (b + 1) ≤ t.keptStart w a := keptStart_mono hlt
    omega
  · exact heq
  · have hle : t.keptStart w (a + 1) ≤ t.keptStart w b := keptStart_mono hlt
    omega

theorem toNat_descriptor (d : UInt64) {off seed : Nat} (hoff : off < 2 ^ 31) :
    (UInt64.ofNat (d.toNat &&& 0x00ffff0700000000 ||| off) ||| UInt64.ofNat (scatterSeed seed)).toNat
      = compactDescriptor d.toNat off seed := by
  have hbase : d.toNat &&& 0x00ffff0700000000 ||| off < 2 ^ 64 :=
    Nat.or_lt_two_pow (lt_of_le_of_lt Nat.and_le_left d.toNat_lt) (by omega)
  rw [UInt64.toNat_or, UInt64.toNat_ofNat_of_lt' hbase,
    UInt64.toNat_ofNat_of_lt' (scatterSeed_lt seed)]
  rfl

/-- What the loop over the widths leaves, when the tensor with it passes the checks. -/
theorem cut_of_make (hcolumns : t.columns = true)
    (hgeometry : w % 32 = 0 ∧ w % 256 ≠ 0 ∧ t.width = (w / 256 + 1) * 256)
    (heven : ∀ row < t.rows, t.keptWords w row % 2 = 0)
    (hcapacity : ((List.range t.rows).map (t.keptWords w)).sum < 2 ^ 31)
    {descriptors : Nat → UInt64} {output : Nat → UInt8}
    (hdescriptors : ∀ row < t.rows, (descriptors row).toNat = compactDescriptor
      (t.descriptor row).toNat (t.keptStart w row) (t.boundarySeed w (t.bits row) row))
    (houtput : ∀ row < t.rows, ∀ j < w * t.bits row / 8,
      output (t.keptStart w row * 4 + j) = t.kept w (t.bits row) row j)
    (h : t'.toComponents =
      { rows := t.rows
        width := w
        gs := t.gs
        scales := match t.scales with
          | .columns scales => .columns (scales.take w)
          | .selectors scales => .selectors scales
        descriptors := (List.range t.rows).map descriptors
        packed := (List.range (((List.range t.rows).map (t.keptWords w)).sum * 4)).map output }) :
    t.Cut w t' := by
  have hrows := congrArg Components.rows h
  have hgs := congrArg Components.gs h
  change t'.rows = t.rows at hrows
  change t'.gs = t.gs at hgs
  have hwidth : t'.width = w := congrArg Components.width h
  have hdescriptor : ∀ row < t.rows, t'.descriptor row = descriptors row := by
    intro row hrow
    have hlist : t'.descriptors = (List.range t.rows).map descriptors :=
      congrArg Components.descriptors h
    rw [Components.descriptor, hlist, getD_eq_getElem _ _ (by simpa using hrow),
      getElem_map, getElem_range]
  have hstart_lt (row : Nat) : t.keptStart w row < 2 ^ 31 :=
    lt_of_le_of_lt (sum_take_le_sum _ row) hcapacity
  have hstart_even (row : Nat) : t.keptStart w row % 2 = 0 := by
    apply sum_even
    intro l hl
    obtain ⟨r, hr, rfl⟩ := mem_map.mp (mem_of_mem_take hl)
    exact heven r (mem_range.mp hr)
  have hwords : ∀ row < t.rows, t'.words (t'.descriptor row) = t.keptWords w row := by
    intro row hrow
    rw [Components.words, hwidth, hdescriptor row hrow, hdescriptors row hrow,
      bitsOf_compactDescriptor (hstart_lt row)]
    rfl
  have hlengths : t'.lengths = (List.range t.rows).map (t.keptWords w) := by
    rw [Components.lengths, t'.sound.map_descriptors, hrows]
    exact map_congr_left fun row hrow => hwords row (mem_range.mp hrow)
  refine ⟨hcolumns, hrows, hwidth, hgs, hgeometry, fun scales hscales => ?_,
    fun row hrow => ?_, fun row hrow j hj => ?_⟩
  · have hscales' := congrArg Components.scales h
    rw [hscales] at hscales'
    exact hscales'
  · rw [hdescriptor row hrow]
    exact ⟨_, hstart_lt row, hstart_even row, hdescriptors row hrow⟩
  · have hpacked : t'.packed = (List.range (((List.range t.rows).map (t.keptWords w)).sum * 4)).map
        output := congrArg Components.packed h
    have hfits := t'.sound.row_fits (hrows ▸ hrow)
    rw [hwords row hrow, ← t'.sound.total, hlengths] at hfits
    have hstart : t'.start row = t.keptStart w row := by
      rw [Components.start, hlengths]
      rfl
    have hbytes := kept_bytes (t := t) hgeometry.1 row
    rw [← houtput row hrow j hj, rowByte, hstart, hpacked, byte,
      getD_eq_getElem _ _ (by simp; omega), getElem_map, getElem_range]

theorem compactTail_cut (h : t.compactTail w empty = .ok t') (hw : w ≠ t.width) : t.Cut w t' := by
  unfold compactTail at h
  rw [if_neg hw, guard_eq_ok] at h
  obtain ⟨hgeometry, h⟩ := h
  simp only [not_or, not_not] at hgeometry
  obtain ⟨hcompact, hcolumns, hpos, hmod, hshort, hwidth⟩ := hgeometry
  have hgeometry : w % 32 = 0 ∧ w % 256 ≠ 0 ∧ t.width = (w / 256 + 1) * 256 := by
    clear h
    omega
  dsimp only at h
  rw [guard_eq_ok, guard_eq_ok, make_eq_ok, keptLengths_eq] at h
  obtain ⟨heven, hcapacity, h⟩ := h
  have heven' : ∀ row < t.rows, t.keptWords w row % 2 = 0 := by
    intro row hrow
    have hmem : t.keptWords w row ∈ (List.range t.rows).map (t.keptWords w) :=
      mem_map_of_mem (mem_range.mpr hrow)
    have hnot := mt (fun hne => any_eq_true.mpr ⟨_, hmem, hne⟩) heven
    simpa [Nat.and_one_is_mod] using hnot
  refine cut_of_make hcolumns hgeometry heven' (by omega) ?_ ?_ h
  · intro row hrow
    have hids : row ∈ grouped t.rows t.bits := mem_grouped.mpr ⟨hrow, bitsOf_le _⟩
    have hupdate := Scatter.updateAll_apply (g := fun row d =>
      d ||| UInt64.ofNat (scatterSeed (t.boundarySeed w (t.bits row) row)))
      (f := fun row => UInt64.ofNat ((t.descriptor row).toNat &&& 0x00ffff0700000000
        ||| (cumulative 0 ((List.range t.rows).map (t.keptWords w))).getD row 0))
      (nodup_grouped t.rows t.bits) row
    refine (congrArg UInt64.toNat (hupdate.trans (if_pos hids))).trans ?_
    rw [getD_keptStart hrow]
    apply toNat_descriptor
    have hle := sum_take_le_sum ((List.range t.rows).map (t.keptWords w)) row
    unfold keptStart
    omega
  · intro row hrow j hj
    have hids : row ∈ grouped t.rows t.bits := mem_grouped.mpr ⟨hrow, bitsOf_le _⟩
    rw [← getD_keptStart hrow]
    refine @Scatter.putAll_of_mem _ _ _ _ _ _ _ _ hids hj fun b hb hcovers => ?_
    have hb' := (mem_grouped.mp hb).1
    obtain ⟨hle, hlt⟩ := hcovers
    dsimp only at hle hlt
    rw [getD_keptStart hrow, getD_keptStart hb'] at hle hlt
    change _ < t.keptStart w b * 4 + w * t.bits b / 8 at hlt
    rw [kept_bytes hmod] at hj hlt
    exact kept_apart hrow hb' ⟨by omega, by omega⟩ ⟨hle, hlt⟩

theorem raw_eq_rowByte (hrow : row < t.rows) : t.raw row = t.rowByte row := by
  funext j
  unfold raw rowByte
  rw [← t.sound.offset_eq hrow]
  rfl

section Cut

variable (hcut : t.Cut w t') (hrow : row < t.rows)

include hcut hrow

theorem Cut.bits_eq : t'.bits row = t.bits row := by
  obtain ⟨off, hoff, -, hdescriptor⟩ := hcut.descriptors row hrow
  rw [bits, hdescriptor, bitsOf_compactDescriptor hoff]
  rfl

theorem Cut.anchor_eq : anchorOf (t'.descriptor row).toNat = anchorOf (t.descriptor row).toNat := by
  obtain ⟨off, hoff, -, hdescriptor⟩ := hcut.descriptors row hrow
  rw [hdescriptor, anchorOf_compactDescriptor hoff]

theorem Cut.seed_eq : t'.seed row = t.boundarySeed w (t.bits row) row := by
  obtain ⟨off, hoff, heven, hdescriptor⟩ := hcut.descriptors row hrow
  have hk : 1 ≤ t.bits row ∧ t.bits row ≤ 8 := bitsOf_le _
  have hpow : 2 ^ (16 - t.bits row) ≤ 2 ^ 15 := Nat.pow_le_pow_right (by omega) (by omega)
  rw [seed, hdescriptor,
    tailSeed_compactDescriptor hoff heven (lt_of_lt_of_le (boundarySeed_lt hk) hpow)]

theorem Cut.states_eq :
    ∃ states, t.states row = .ok states ∧ t'.states row = .ok (states.take w) := by
  have hk : 1 ≤ t.bits row ∧ t.bits row ≤ 8 := bitsOf_le _
  obtain ⟨hmod, hshort, hwidth⟩ := hcut.geometry
  refine ⟨_, TQTensor.states_eq hrow, ?_⟩
  rw [TQTensor.states_eq (hcut.rows ▸ hrow), hcut.width, hcut.bits_eq hrow, hcut.seed_eq hrow,
    ← map_take, take_range, Nat.min_eq_left (by omega)]
  refine congrArg Except.ok (map_congr_left fun i hi => ?_)
  rw [stateAt_congr hk.1 (hcut.bytes row hrow), ← raw_eq_rowByte hrow]
  exact stateAt_kept hk hmod hwidth (mem_range.mp hi)

end Cut

/-- **Cutting the padding off keeps every state of the columns that stay.** -/
theorem compactTail_states (h : t.compactTail w empty = .ok t') (hrow : row < t.rows) :
    ∃ states, t.states row = .ok states ∧ t'.states row = .ok (states.take w) := by
  by_cases hw : w = t.width
  · unfold compactTail at h
    rw [if_pos hw] at h
    cases h
    refine ⟨_, states_eq hrow, ?_⟩
    rw [take_of_length_le (by simp [hw])]
    exact states_eq hrow
  · exact (compactTail_cut h hw).states_eq hrow

theorem compactTail_shape (h : t.compactTail w empty = .ok t') : t'.rows = t.rows ∧ t'.width = w := by
  by_cases hw : w = t.width
  · unfold compactTail at h
    rw [if_pos hw] at h
    cases h
    exact ⟨rfl, hw.symm⟩
  · have hcut := compactTail_cut h hw
    exact ⟨hcut.rows, hcut.width⟩

theorem compactTail_anchors (h : t.compactTail w empty = .ok t') : t'.anchors = t.anchors := by
  by_cases hw : w = t.width
  · unfold compactTail at h
    rw [if_pos hw] at h
    cases h
    rfl
  · have hcut := compactTail_cut h hw
    rw [anchors, anchors, t'.sound.map_descriptors, t.sound.map_descriptors, hcut.rows]
    exact map_congr_left fun row hrow => hcut.anchor_eq (mem_range.mp hrow)

theorem compactTail_scales (h : t.compactTail w empty = .ok t') {scales : List UInt16}
    (hscales : t.scales = .columns scales) : t'.scales = .columns (scales.take w) := by
  by_cases hw : w = t.width
  · unfold compactTail at h
    rw [if_pos hw] at h
    cases h
    have hlength := t.sound.columnCount hscales
    rw [take_of_length_le (by omega), hscales]
  · exact (compactTail_cut h hw).scales scales hscales

end Rows

end TQTensor

end TyloQuant.Tq
