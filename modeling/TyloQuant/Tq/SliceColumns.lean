import Mathlib.Algebra.Order.BigOperators.Group.List
import Mathlib.Data.Nat.ModEq
import TyloQuant.Tq.SliceRows

/-!
# Ranges of columns

A range of whole rings of a tensor is a tensor.  A subgroup that is wider than a ring is split, and
each of its rings gets its selector.
-/

namespace TyloQuant.Tq

open Lib Bytes ByteFile Bits List

/-- A descriptor of a row of whole rings. -/
def ringDescriptor (d off : Nat) : Nat := d &&& 0x00ffff0700000000 ||| off

theorem ringDescriptor_eq (d off : Nat) : ringDescriptor d off = compactDescriptor d off 0 := by
  rw [compactDescriptor, show TQTensor.scatterSeed 0 = 0 from rfl, Nat.or_zero]
  rfl

section Descriptor

variable {d off : Nat} (hoff : off < 2 ^ 31)

include hoff

theorem bitsOf_ringDescriptor : bitsOf (ringDescriptor d off) = bitsOf d := by
  rw [ringDescriptor_eq, bitsOf_compactDescriptor hoff]

theorem anchorOf_ringDescriptor : anchorOf (ringDescriptor d off) = anchorOf d := by
  rw [ringDescriptor_eq, anchorOf_compactDescriptor hoff]

omit hoff in
theorem testBit_ringDescriptor (i : Nat) : (ringDescriptor d off).testBit i
    = (((decide (32 ≤ i ∧ i < 35) || decide (40 ≤ i ∧ i < 56)) && d.testBit i) || off.testBit i) := by
  rw [ringDescriptor, Nat.testBit_or, Nat.testBit_and, testBit_kept, Bool.and_comm]

theorem offset_ringDescriptor : ringDescriptor d off &&& 0xffffffff = off := by
  apply Nat.eq_of_testBit_eq
  intro i
  rw [Nat.testBit_and, testBit_ringDescriptor,
    show (0xffffffff : Nat) = 2 ^ 32 - 1 from rfl, Nat.testBit_two_pow_sub_one]
  by_cases hi : i < 32
  · simp [hi, show ¬32 ≤ i by omega, show ¬40 ≤ i by omega]
  · have hpow : 2 ^ 31 ≤ 2 ^ i := Nat.pow_le_pow_right (by omega) (by omega)
    have hclear : off.testBit i = false := Nat.testBit_lt_two_pow (by omega)
    simp [hi, hclear]

theorem reserved_ringDescriptor : ringDescriptor d off &&& complement 0x00ffff07ffffffff = 0 := by
  have hparts : (0x00ffff07ffffffff : Nat) = (2 ^ 32 - 1) ||| 0x00ffff0700000000 := by decide
  apply Nat.eq_of_testBit_eq
  intro i
  rw [Nat.testBit_and, testBit_ringDescriptor, testBit_complement, hparts, Nat.testBit_or,
    Nat.testBit_two_pow_sub_one, testBit_kept, Nat.zero_testBit]
  by_cases hi : i < 32
  · simp [hi, show i < 64 by omega]
  · have hpow : 2 ^ 31 ≤ 2 ^ i := Nat.pow_le_pow_right (by omega) (by omega)
    have hclear : off.testBit i = false := Nat.testBit_lt_two_pow (by omega)
    by_cases hkept : (decide (32 ≤ i ∧ i < 35) || decide (40 ≤ i ∧ i < 56)) = true
    · have hi' : i < 64 := by
        simp only [Bool.or_eq_true, decide_eq_true_eq] at hkept
        omega
      simp only [hkept, hclear, hi, decide_eq_true hi']
      simp
    · rw [Bool.eq_false_of_not_eq_true hkept, hclear]
      simp

theorem ringDescriptor_lt (hd : d < 2 ^ 64) : ringDescriptor d off < 2 ^ 64 :=
  Nat.or_lt_two_pow (lt_of_le_of_lt Nat.and_le_left hd) (by omega)

end Descriptor

/-! ### Subgroups that are split -/

/-- The size of the subgroups of a slice. -/
def sliceGs (gs : Nat) : Nat := min gs 256

theorem group_slice {gs begin_ col : Nat} (hge : 16 ≤ gs) (hpow : gs &&& (gs - 1) = 0)
    (hbegin : begin_ % 256 = 0) :
    (begin_ + col / sliceGs gs * sliceGs gs) / gs = (begin_ + col) / gs := by
  obtain ⟨q, rfl⟩ : ∃ q, begin_ = 256 * q := ⟨begin_ / 256, by omega⟩
  obtain ⟨k, rfl⟩ := (Nat.and_sub_one_eq_zero_iff_isPowerOfTwo (by omega)).mp hpow
  unfold sliceGs
  by_cases hk : k ≤ 8
  · -- Whole subgroups make up a ring.
    have hle : 2 ^ k ≤ 256 := Nat.pow_le_pow_right (n := 2) (by omega) hk
    have hdvd : 2 ^ k ∣ 256 * q := Nat.dvd_mul_right_of_dvd (Nat.pow_dvd_pow 2 hk) q
    rw [Nat.min_eq_left hle, Nat.add_div_of_dvd_right hdvd, Nat.add_div_of_dvd_right hdvd,
      Nat.mul_div_cancel _ (by omega)]
  · -- Whole rings make up a subgroup.
    obtain ⟨m, rfl⟩ : ∃ m, k = 8 + m := ⟨k - 8, by omega⟩
    have hpos : 0 < 2 ^ m := Nat.two_pow_pos m
    have hgs : 2 ^ (8 + m) = 256 * 2 ^ m := Nat.pow_add 2 8 m
    rw [hgs, Nat.min_eq_right (by omega), ← Nat.div_div_eq_div_mul, ← Nat.div_div_eq_div_mul]
    congr 1
    omega

theorem sliceGs_pow {gs : Nat} (hge : 16 ≤ gs) (hpow : gs &&& (gs - 1) = 0) :
    16 ≤ sliceGs gs ∧ sliceGs gs ≤ 256 ∧ sliceGs gs &&& (sliceGs gs - 1) = 0 := by
  unfold sliceGs
  rcases Nat.le_total gs 256 with hle | hle
  · rw [Nat.min_eq_left hle]
    exact ⟨hge, hle, hpow⟩
  · rw [Nat.min_eq_right hle]
    exact ⟨by omega, le_rfl, by decide⟩

/-- The subgroups of a row of a slice. -/
def sliceGroups (w gs : Nat) : Nat := (w + sliceGs gs - 1) / sliceGs gs

namespace TQTensor

variable {t : TQTensor} {begin_ w : Nat}

/-- The selector of a subgroup of a slice. -/
def sliceSelector (t : TQTensor) (scales : List UInt8) (begin_ w i : Nat) : Nat :=
  selectorAt scales (i / sliceGroups w t.gs.toNat * t.groups
    + (begin_ + i % sliceGroups w t.gs.toNat * sliceGs t.gs.toNat) / t.gs.toNat)

/-- The bytes of some columns of a row. -/
def columnSlice (t : TQTensor) (begin_ w row : Nat) : List UInt8 :=
  (t.packed.drop (t.start row * 4 + begin_ * t.bits row / 8)).take (w * t.bits row / 8)

/-- The tensor of `w` columns from `begin_` on. -/
def sliceColumns (t : TQTensor) (begin_ w : Nat) : Components where
  rows := t.rows
  width := w
  gs := if t.columns then t.gs else sliceGs t.gs.toNat
  scales :=
    match t.scales with
    | .columns scales => .columns ((scales.drop begin_).take w)
    | .selectors scales => .selectors (packSelectors
        ((List.range (t.rows * sliceGroups w t.gs.toNat)).map (t.sliceSelector scales begin_ w)))
  descriptors := (List.range t.rows).map fun row =>
    UInt64.ofNat (ringDescriptor (t.descriptor row).toNat (t.keptStart w row))
  packed := (List.range t.rows).flatMap (t.columnSlice begin_ w)

/-- Some whole rings of a tensor. -/
structure Rings (t : TQTensor) (begin_ w : Nat) : Prop where
  pos : 0 < w
  le : begin_ + w ≤ t.width
  first : begin_ % 256 = 0
  whole : w % 256 = 0

section Sound

variable (h : t.Rings begin_ w)

include h

theorem keptWords_le (row : Nat) : t.keptWords w row ≤ t.words (t.descriptor row) := by
  have hle := h.le
  exact Nat.div_le_div_right (Nat.mul_le_mul_right _ (by omega))

theorem keptSum_le : ((List.range t.rows).map (t.keptWords w)).sum ≤ t.lengths.sum := by
  rw [Components.lengths, t.sound.map_descriptors]
  exact sum_le_sum fun row _ => keptWords_le h row

theorem column_fits (row : Nat) : begin_ * t.bits row / 8 + w * t.bits row / 8
    ≤ t.words (t.descriptor row) * 4 := by
  obtain ⟨q, hq⟩ : ∃ q, begin_ = 8 * q := ⟨begin_ / 8, by have := h.first; omega⟩
  have hbytes := t.sound.row_bytes (t.descriptor row)
  have hle : (begin_ + w) * t.bits row ≤ t.width * t.bits row := Nat.mul_le_mul_right _ h.le
  have hmul : begin_ * t.bits row = 8 * (q * t.bits row) := by rw [hq, Nat.mul_assoc]
  rw [Nat.add_mul] at hle
  rw [← hbytes]
  change _ ≤ t.width * t.bits row / 8
  omega

theorem length_columnSlice {row : Nat} (hrow : row < t.rows) :
    (t.columnSlice begin_ w row).length = t.keptWords w row * 4 := by
  have hfits := t.sound.row_fits hrow
  have hcolumns := column_fits h row
  have hkept := kept_bytes (t := t) (w := w) (by have := h.whole; omega) row
  rw [columnSlice, length_take, length_drop]
  omega

theorem sum_lengths_columnSlice (n : Nat) (hn : n ≤ t.rows) :
    ((List.range n).flatMap (t.columnSlice begin_ w)).length
      = ((List.range n).map (t.keptWords w)).sum * 4 := by
  induction n with
  | zero => rfl
  | succ n ih =>
    rw [range_succ, flatMap_append, length_append, ih (by omega),
      flatMap_singleton, length_columnSlice h (by omega), map_append, sum_append]
    simp
    ring

variable (hfits : t.Fits)

include hfits

theorem keptStart_lt (row : Nat) : t.keptStart w row < 2 ^ 30 := by
  have hle : t.keptStart w row ≤ ((List.range t.rows).map (t.keptWords w)).sum :=
    sum_take_le_sum _ row
  have hsum := keptSum_le h
  have htotal := t.sound.total
  have hpacked := hfits.packed
  omega

theorem toNat_ringDescriptor (row : Nat) :
    (UInt64.ofNat (ringDescriptor (t.descriptor row).toNat (t.keptStart w row))).toNat
      = ringDescriptor (t.descriptor row).toNat (t.keptStart w row) := by
  have hlt := keptStart_lt h hfits row
  exact UInt64.toNat_ofNat_of_lt' (ringDescriptor_lt (by omega) (t.descriptor row).toNat_lt)

theorem bitsOf_slice (row : Nat) :
    bitsOf (UInt64.ofNat (ringDescriptor (t.descriptor row).toNat (t.keptStart w row))).toNat
      = t.bits row := by
  have hlt := keptStart_lt h hfits row
  rw [toNat_ringDescriptor h hfits, bitsOf_ringDescriptor (by omega)]
  rfl

theorem lengths_sliceColumns :
    (t.sliceColumns begin_ w).lengths = (List.range t.rows).map (t.keptWords w) := by
  rw [Components.lengths, sliceColumns, map_map]
  apply map_congr_left
  intro row _
  rw [Function.comp_apply, Components.words, bitsOf_slice h hfits]
  rfl

theorem mem_sliceColumns {d : UInt64} (hd : d ∈ (t.sliceColumns begin_ w).descriptors) :
    ∃ row < t.rows, d.toNat = ringDescriptor (t.descriptor row).toNat (t.keptStart w row) := by
  obtain ⟨row, hrow, rfl⟩ := mem_map.mp hd
  exact ⟨row, mem_range.mp hrow, toNat_ringDescriptor h hfits row⟩

omit h hfits in
theorem columns_sliceColumns : (t.sliceColumns begin_ w).columns = t.columns := by
  unfold Components.columns sliceColumns
  cases t.scales with
  | columns scales => rfl
  | selectors scales => rfl

omit hfits in
theorem compact_sliceColumns : (t.sliceColumns begin_ w).compact = false := by
  have hwhole := h.whole
  unfold Components.compact
  exact decide_eq_false (not_not_intro hwhole)

omit h hfits in
theorem gs_sliceColumns (hcolumns : t.columns = false) :
    (t.sliceColumns begin_ w).gs = sliceGs t.gs.toNat := by
  unfold sliceColumns
  rw [hcolumns]
  rfl

omit h hfits in
theorem groups_sliceColumns (hcolumns : t.columns = false) :
    (t.sliceColumns begin_ w).groups = sliceGroups w t.gs.toNat := by
  unfold Components.groups
  rw [columns_sliceColumns, hcolumns, gs_sliceColumns hcolumns]
  rfl

/-- **Some whole rings of a tensor make a tensor.** -/
theorem sound_sliceColumns : (t.sliceColumns begin_ w).Sound := by
  have hlengths := lengths_sliceColumns h hfits
  have hcompact := compact_sliceColumns h
  have hwhole := h.whole
  have hsum := keptSum_le h
  have hcapacity := t.sound.capacity
  refine
    { rows_pos := t.sound.rows_pos
      width_pos := h.pos
      width_mod := show w % 32 = 0 by omega
      short := fun hshort => absurd hshort (by rw [hcompact]; exact Bool.false_ne_true)
      grouped := ?_
      count := by simp [sliceColumns]
      reserved := ?_
      offsets := ?_
      total := ?_
      capacity := by rw [hlengths]; omega
      even := fun hshort => absurd hshort (by rw [hcompact]; exact Bool.false_ne_true)
      capacity_compact := fun hshort => absurd hshort (by rw [hcompact]; exact Bool.false_ne_true)
      seeds := fun hshort => absurd hshort (by rw [hcompact]; exact Bool.false_ne_true)
      scaleCount := ?_
      anchors := ?_
      positive := ?_ }
  · intro hcolumns
    rw [columns_sliceColumns] at hcolumns
    obtain ⟨hge, hle, hpow⟩ := t.sound.grouped hcolumns
    obtain ⟨hge', hle', hpow'⟩ := sliceGs_pow (by omega) hpow
    rw [gs_sliceColumns hcolumns]
    exact ⟨by omega, by omega, hpow'⟩
  · intro _ d hd
    obtain ⟨row, -, hdescriptor⟩ := mem_sliceColumns h hfits hd
    have hlt := keptStart_lt h hfits row
    rw [hdescriptor, reserved_ringDescriptor (by omega)]
  · rw [hlengths]
    apply ext_getElem
    · simp [sliceColumns, length_cumulative]
    · intro row hrow hrow'
      have hlt := keptStart_lt h hfits row
      have hrow'' : row < t.rows := by simpa [length_cumulative] using hrow'
      have hstart := getD_keptStart (w := w) hrow''
      rw [getD_eq_getElem _ _ hrow'] at hstart
      rw [hstart, getElem_map]
      simp only [sliceColumns, getElem_map, getElem_range]
      unfold Components.offset
      change _ &&& (if (t.sliceColumns begin_ w).compact = true then _ else _) = _
      rw [hcompact, toNat_ringDescriptor h hfits]
      exact offset_ringDescriptor (by omega)
  · rw [hlengths, ← sum_lengths_columnSlice h t.rows le_rfl]
    rfl
  · rw [columns_sliceColumns]
    have hle := h.le
    cases hscales : t.scales with
    | columns scales =>
      have hwidth := t.sound.columnCount hscales
      rw [Components.columns_eq_true hscales]
      simp only [sliceColumns, hscales, Scales.length, if_true, length_take, length_drop]
      omega
    | selectors scales =>
      have hcolumns := Components.columns_eq_false hscales
      rw [groups_sliceColumns hcolumns, hcolumns]
      simp only [sliceColumns, hscales, Scales.length, Components.length_packSelectors,
        length_map, List.length_range]
      rfl
  · intro d hd
    obtain ⟨row, hrow, hdescriptor⟩ := mem_sliceColumns h hfits hd
    have hlt := keptStart_lt h hfits row
    rw [hdescriptor, anchorOf_ringDescriptor (by omega)]
    exact t.sound.anchors _ (t.sound.descriptor_mem hrow)
  · intro scales hscales s hs
    cases hscales' : t.scales with
    | columns scales' =>
      simp only [sliceColumns, hscales', Scales.columns.injEq] at hscales
      rw [← hscales] at hs
      exact t.sound.positive scales' hscales' s (mem_of_mem_drop (mem_of_mem_take hs))
    | selectors scales' =>
      simp only [sliceColumns, hscales'] at hscales
      cases hscales

end Sound

end TQTensor

end TyloQuant.Tq
