import TyloQuant.Tq.RoundTrip
import TyloQuant.Tq.Selection

/-!
# Ranges of rows

The reader of a tensor's bytes gives, for a range of its rows, the selection of these rows.
-/

namespace TyloQuant.Tq

open Lib Bytes ByteFile List

namespace TQTensor

variable (t : TQTensor)

/-- The reader of a tensor's bytes. -/
def reader : TQRows where
  source := t.payload
  rows := t.rows
  width := t.width
  gs := t.gs.toNat
  columns := t.columns
  compact := t.compact
  packedBytes := t.packed.length

theorem groups_reader : t.reader.groups = t.groups := rfl

theorem scaleBytes_reader : t.reader.scaleBytes = t.scaleBytes.length := by
  rw [length_scaleBytes]
  unfold TQRows.scaleBytes TQRows.groups reader
  cases t.columns with
  | true => rfl
  | false => rfl

theorem packedOffset_reader : t.reader.packedOffset = 64 + t.rows * 8 + t.scaleBytes.length := by
  rw [TQRows.packedOffset, scaleBytes_reader]
  rfl

theorem drop_scaleOffset : t.payload.drop (64 + t.rows * 8) = t.scaleBytes ++ t.packed := by
  rw [payload, List.append_assoc, drop_left' t.length_front]

theorem drop_packedOffset : t.payload.drop (64 + t.rows * 8 + t.scaleBytes.length) = t.packed := by
  rw [← drop_drop, drop_scaleOffset, drop_left]

variable {count offset : Nat}

theorem integer_header (h : offset + count ≤ 64) :
    integer (t.payload.take 64) offset count = integer t.payload offset count := by
  rw [integer, integer, drop_take, take_take, Nat.min_eq_left (by omega)]

theorem header_take (hfits : t.Fits) :
    integer (t.payload.take 64) 8 4 = (if t.compact then 6 else 5) ∧
      integer (t.payload.take 64) 12 4 = t.rows ∧ integer (t.payload.take 64) 16 4 = t.width ∧
      integer (t.payload.take 64) 20 4 = t.columns.toNat ∧
      integer (t.payload.take 64) 24 4 = t.gs.toNat ∧
      integer (t.payload.take 64) 28 4 = t.packed.length := by
  rw [integer_header _ (by omega), integer_header _ (by omega), integer_header _ (by omega),
    integer_header _ (by omega), integer_header _ (by omega), integer_header _ (by omega)]
  exact t.header_payload hfits

theorem take_magic : (t.payload.take 64).take 8 = t.magic := by
  rw [take_take, Nat.min_eq_left (by omega), t.take_payload]

theorem reserved_take : ((t.payload.take 64).drop 32).take 32 = List.replicate 32 0 := by
  rw [drop_take, take_take, Nat.min_eq_left (by omega), t.reserved_payload]

theorem magic_old (h : t.compact = false) :
    t.magic = magic05 ∧ (if t.compact then 6 else 5) = 5 := by
  unfold magic
  simp [h]

theorem geometry_payload : ¬(t.rows = 0 ∨ t.width = 0 ∨ t.width % 32 ≠ 0) ∧
    (t.compact = true → t.columns = true ∧ t.width % 256 ≠ 0) ∧
    (t.compact = false → t.width % 256 = 0) ∧
    (t.columns = false →
      16 ≤ t.gs.toNat ∧ t.gs.toNat ≤ 2 ^ 20 ∧ t.gs.toNat &&& (t.gs.toNat - 1) = 0) := by
  have hrows := t.sound.rows_pos
  have hwidth := t.sound.width_pos
  have hmod := t.sound.width_mod
  refine ⟨by omega, fun h => ⟨t.sound.short h, t.compact_iff.mp h⟩, fun h => ?_, fun h => ?_⟩
  · by_contra hne
    rw [t.compact_iff.mpr hne] at h
    cases h
  · obtain ⟨hge, hle, hpow⟩ := t.sound.grouped h
    exact ⟨by omega, by omega, hpow⟩

theorem make_reader (hfits : t.Fits) : TQRows.make t.payload = .ok t.reader := by
  have hlength := t.length_payload
  obtain ⟨hversion, hrows, hwidth, hcolumns, hgs, hpacked⟩ := t.header_take hfits
  obtain ⟨hpos, hcompact, hwhole, hgroups⟩ := t.geometry_payload
  have hheader : TQRows.range t.payload 0 64 = .ok (t.payload.take 64) := by
    unfold TQRows.range
    rw [if_neg (by omega), drop_zero]
  unfold TQRows.make
  rw [hheader]
  change (if _ then _ else _) = _
  simp only [hversion, hrows, hwidth, hcolumns, hgs, hpacked, t.take_magic, t.reserved_take,
    t.decide_columns, t.decide_magic]
  rw [guard_eq_ok, guard_eq_ok, guard_eq_ok, guard_eq_ok]
  have hcolumns01 : t.columns.toNat ≤ 1 := Bool.toNat_le _
  refine ⟨?_, ?_, ?_, ?_, rfl⟩
  · rintro (hmagic | h)
    · apply hmagic
      by_cases hc : t.compact = true
      · exact Or.inl hc
      · exact Or.inr (t.magic_old (Bool.eq_false_of_not_eq_true hc))
    · omega
  · rintro (h | h | h | h | ⟨hc, h⟩ | ⟨hc, h⟩)
    · exact hpos (Or.inl h)
    · exact hpos (Or.inr (Or.inl h))
    · exact hpos (Or.inr (Or.inr h))
    · simp at h
    · obtain ⟨hshort, hne⟩ := hcompact hc
      rcases h with h | h
      · exact h hshort
      · exact hne h
    · exact h (hwhole (Bool.eq_false_of_not_eq_true hc))
  · rintro ⟨hc, h⟩
    obtain ⟨hge, hle, hpow⟩ := hgroups (Bool.eq_false_of_not_eq_true hc)
    rcases h with h | h
    · exact h ⟨hge, hle⟩
    · exact h hpow
  · change ¬t.reader.packedOffset + t.packed.length ≠ t.payload.length
    rw [packedOffset_reader]
    omega

/-! ### The parts of a range of rows -/

variable {t} {begin_ n : Nat}

theorem range_lt (hend : begin_ + n ≤ t.rows) : ∀ id ∈ List.range' begin_ n, id < t.rows := by
  intro id hid
  rw [mem_range'_1] at hid
  omega

variable {i : Nat}

theorem sum_rowWords_range (hend : begin_ + n ≤ t.rows) (hi : i ≤ n) :
    ((t.rowWords (List.range' begin_ n)).take i).sum = t.start (begin_ + i) - t.start begin_ := by
  induction i with
  | zero => simp
  | succ i ih =>
    have hlt : i < (t.rowWords (List.range' begin_ n)).length := by
      simp [Components.rowWords]
      omega
    have hsucc := t.sound.start_succ (show begin_ + i < t.rows by omega)
    have hmono : t.start begin_ ≤ t.start (begin_ + i) := Components.start_mono (by omega)
    rw [sum_take_succ _ hlt, ih (by omega),
      Components.getD_rowWords (by simpa [Components.rowWords] using hlt),
      getD_eq_getElem _ _ (by simp; omega), getElem_range', Nat.one_mul,
      ← Nat.add_assoc begin_, hsucc]
    omega

theorem packed_range (hend : begin_ + n ≤ t.rows) :
    (List.range' begin_ n).flatMap t.rowSlice
      = (t.packed.drop (t.start begin_ * 4)).take ((t.start (begin_ + n) - t.start begin_) * 4) := by
  induction n with
  | zero => simp
  | succ n ih =>
    have hrow : begin_ + n < t.rows := by omega
    have hsucc := t.sound.start_succ hrow
    have hmono : t.start begin_ ≤ t.start (begin_ + n) := Components.start_mono (by omega)
    rw [range'_1_concat, flatMap_append, ih (by omega), flatMap_singleton,
      Components.rowSlice]
    have hsplit : (t.start (begin_ + (n + 1)) - t.start begin_) * 4
        = (t.start (begin_ + n) - t.start begin_) * 4
          + t.words (t.descriptor (begin_ + n)) * 4 := by
      rw [← Nat.add_assoc, hsucc]
      omega
    have hdrop : t.start (begin_ + n) * 4
        = t.start begin_ * 4 + (t.start (begin_ + n) - t.start begin_) * 4 := by omega
    rw [hsplit, take_add, drop_drop, ← hdrop]

theorem selectors_range {scales : List UInt8} (hscales : t.scales = .selectors scales) :
    (List.range' begin_ n).flatMap t.rowSelectors
      = (List.range (n * t.groups)).map fun i => selectorAt scales (begin_ * t.groups + i) := by
  have hrow (row : Nat) : t.rowSelectors row
      = (List.range t.groups).map fun g => selectorAt scales (row * t.groups + g) := by
    rw [Components.rowSelectors, hscales]
  have hflat := flatMap_range_map (fun row g => selectorAt scales ((begin_ + row) * t.groups + g)) n
    t.groups
  rw [range'_eq_map_range, flatMap_map]
  simp only [hrow]
  rw [hflat]
  apply map_congr_left
  intro i _
  have hmod := Nat.div_add_mod i t.groups
  have hplace : (begin_ + i / t.groups) * t.groups + i % t.groups = begin_ * t.groups + i := by
    rw [Nat.add_mul, Nat.add_assoc, Nat.mul_comm (i / t.groups), hmod]
  rw [hplace]

variable {first : Nat}

theorem selectorAt_slice (scales : List UInt8) (hi : i < count) :
    selectorAt ((scales.drop (first / 2)).take ((first + count + 1) / 2 - first / 2))
        (i + (first &&& 1)) = selectorAt scales (first + i) := by
  rw [selectorAt, selectorAt, byte_take, if_pos (by rw [Nat.and_one_is_mod]; omega), byte_drop,
    Nat.and_one_is_mod, Nat.and_one_is_mod, Nat.and_one_is_mod,
    show first / 2 + (i + first % 2) / 2 = (first + i) / 2 by omega,
    show (i + first % 2) % 2 = (first + i) % 2 by omega]

theorem slice_scales (t : TQTensor) (h : first + count ≤ t.scaleBytes.length) :
    (t.payload.drop (64 + t.rows * 8 + first)).take count = (t.scaleBytes.drop first).take count := by
  rw [← drop_drop, drop_scaleOffset, drop_append_of_le_length (by omega),
    take_append_of_le_length (by rw [length_drop]; omega)]

theorem slice_packed (t : TQTensor) (first count : Nat) :
    (t.payload.drop (64 + t.rows * 8 + t.scaleBytes.length + first)).take count
      = (t.packed.drop first).take count := by
  rw [← drop_drop, drop_packedOffset]

theorem scaleBytes_columns {scales : List UInt16} (hscales : t.scales = .columns scales)
    (hi : i < scales.length) : integer t.scaleBytes (2 * i) 2 = (scales.getD i 0).toNat := by
  have hread := @integer_flatMap 2 i (scales.map UInt16.toNat) [] []
    (by simpa using hi) (by
      intro x hx
      obtain ⟨s, -, rfl⟩ := mem_map.mp hx
      exact s.toNat_lt)
  rw [List.nil_append, List.append_nil, length_nil, Nat.zero_add, flatMap_map] at hread
  rw [getD_eq_getElem _ _ hi, scaleBytes, hscales]
  refine hread.trans ?_
  rw [getD_eq_getElem _ _ (by simpa using hi), getElem_map]

theorem range_ok {source : List UInt8} (h : offset + count ≤ source.length) :
    TQRows.range source offset count = .ok ((source.drop offset).take count) := by
  unfold TQRows.range
  rw [if_neg (by omega)]

theorem readScales_reader (hend : begin_ + n ≤ t.rows) :
    t.reader.readScales begin_ n = .ok (t.select (List.range' begin_ n)).scales := by
  have hlength := t.length_payload
  unfold TQRows.readScales
  cases hscales : t.scales with
  | columns scales =>
    have hcolumns := Components.columns_eq_true hscales
    have hwidth := t.sound.columnCount hscales
    rw [if_pos (show t.reader.columns = true from hcolumns), scaleBytes_reader,
      Components.scales_select_columns hscales]
    change (TQRows.range t.payload (64 + t.rows * 8) _ >>= _) = _
    rw [range_ok (by omega), t.scales_payload]
    refine congrArg (fun l => Except.ok (Scales.columns l)) ?_
    apply ext_getElem
    · simp [reader, hwidth]
    · intro i hi hi'
      rw [getElem_map, getElem_range, scaleBytes_columns hscales hi',
        UInt16.ofNat_toNat, getD_eq_getElem _ _ hi']
  | selectors scales =>
    have hcolumns := Components.columns_eq_false hscales
    have hbytes : t.scaleBytes = scales := by rw [scaleBytes, hscales]
    have hcount := t.sound.selectorCount hscales
    have hmul : (begin_ + n) * t.groups ≤ t.rows * t.groups := Nat.mul_le_mul_right _ hend
    rw [Nat.add_mul] at hmul
    rw [if_neg (by simp [reader, hcolumns]), Components.scales_select_selectors hscales,
      selectors_range hscales]
    dsimp only
    rw [groups_reader]
    change (TQRows.range t.payload (64 + t.rows * 8 + _) _ >>= _) = _
    rw [range_ok (by rw [hlength, hbytes]; omega), t.slice_scales (by rw [hbytes]; omega), hbytes]
    refine congrArg (fun l => Except.ok (Scales.selectors (packSelectors l))) ?_
    exact map_congr_left fun i hi => selectorAt_slice scales (mem_range.mp hi)

/-! ### A range of rows -/

theorem descriptors_range (t : TQTensor) (hend : begin_ + n ≤ t.rows) :
    (List.range n).map (fun i => UInt64.ofNat (integer
      ((t.payload.drop (64 + begin_ * 8)).take (n * 8)) (8 * i) 8))
      = (List.range n).map fun i => t.descriptor (begin_ + i) := by
  apply map_congr_left
  intro i hi
  have hlt := mem_range.mp hi
  rw [integer_slice _ (by omega), show 64 + begin_ * 8 + 8 * i = 64 + 8 * (begin_ + i) by omega,
    t.descriptor_payload (by omega), UInt64.ofNat_toNat]

theorem and_offsetMask {row : Nat} (hrow : row < t.rows) :
    t.descriptor row &&& t.offsetMask = UInt64.ofNat (t.start row) := by
  have hoffset := t.sound.offset_eq hrow
  rw [Components.offset_eq_and, ← UInt64.toNat_and] at hoffset
  rw [← hoffset, UInt64.ofNat_toNat]

theorem getD_map_range {α : Type} (f : Nat → α) (a : α) {n : Nat} (h : i < n) :
    ((List.range n).map f).getD i a = f i := by
  rw [getD_eq_getElem _ _ (by simpa using h), getElem_map, getElem_range]

/-- The descriptors of a range: each offset moves by that of the first row. -/
theorem descriptors_select_range (hend : begin_ + n ≤ t.rows) :
    (t.select (List.range' begin_ n)).descriptors = (List.range' begin_ n).map fun row =>
      t.place (t.descriptor row) (t.start row - t.start begin_) := by
  apply ext_getElem
  · simp [Components.select, length_cumulative, Components.rowWords]
  · intro i hi hi'
    have hi'' : i < n := by simpa using hi'
    have hcumulative := getD_cumulative 0 (show i < (t.rowWords (List.range' begin_ n)).length by
      simpa [Components.rowWords] using hi'')
    rw [sum_rowWords_range hend (by omega), Nat.zero_add,
      getD_eq_getElem _ _ (by simpa [length_cumulative, Components.rowWords] using hi'')]
      at hcumulative
    simp only [Components.select, getElem_map, getElem_zipWith, getElem_range',
      Nat.one_mul, hcumulative]

/-- **`slice_rows` makes the selection of a range of rows.** -/
theorem sliceRows_reader (hfits : t.Fits) (hpos : 0 < n) (hend : begin_ + n ≤ t.rows) :
    t.reader.sliceRows begin_ (begin_ + n) = make (t.select (List.range' begin_ n)) := by
  have hlength := t.length_payload
  have hfirst := and_offsetMask (show begin_ < t.rows by omega)
  have hlast := and_offsetMask (show begin_ + (n - 1) < t.rows by omega)
  have hsucc := t.sound.start_succ (show begin_ + (n - 1) < t.rows by omega)
  have hle : t.start begin_ ≤ t.start (begin_ + (n - 1)) := Components.start_mono (by omega)
  have hend_fits := t.sound.row_fits (show begin_ + (n - 1) < t.rows by omega)
  rw [show begin_ + (n - 1) + 1 = begin_ + n by omega] at hsucc
  have hsmall (row : Nat) (hrow : row < t.rows) : t.start row < 2 ^ 64 := by
    have hlt := (UInt64.toNat_lt (t.descriptor row))
    have hoffset := t.sound.offset_eq hrow
    rw [Components.offset_eq_and] at hoffset
    exact lt_of_le_of_lt (hoffset ▸ Nat.and_le_left) hlt
  unfold TQRows.sliceRows
  rw [if_neg (by simp only [reader]; omega), Nat.add_sub_cancel_left]
  change (TQRows.range t.payload _ _ >>= _) = _
  rw [range_ok (by omega)]
  change (if _ then _ else _) = _
  have h0 : (((List.range n).map fun i => t.descriptor (begin_ + i)).map
      (· &&& t.reader.offsetMask)).getD 0 0 = UInt64.ofNat (t.start begin_) := by
    rw [map_map, getD_map_range _ _ hpos]
    exact hfirst
  have hn : (((List.range n).map fun i => t.descriptor (begin_ + i)).map
      (· &&& t.reader.offsetMask)).getD (n - 1) 0 = UInt64.ofNat (t.start (begin_ + (n - 1))) := by
    rw [map_map, getD_map_range _ _ (by omega)]
    exact hlast
  have hd : ((List.range n).map fun i => t.descriptor (begin_ + i)).getD (n - 1) 0
      = t.descriptor (begin_ + (n - 1)) := getD_map_range _ _ (by omega)
  have hbytes : t.reader.width * bitsOf (t.descriptor (begin_ + (n - 1))).toNat / 8
      = t.words (t.descriptor (begin_ + (n - 1))) * 4 := t.sound.row_bytes _
  simp only [t.descriptors_range hend, h0, hn, hd, hbytes,
    UInt64.toNat_ofNat_of_lt' (hsmall _ (show begin_ < t.rows by omega)),
    UInt64.toNat_ofNat_of_lt' (hsmall _ (show begin_ + (n - 1) < t.rows by omega))]
  have hfinish : t.start (begin_ + (n - 1)) * 4 + t.words (t.descriptor (begin_ + (n - 1))) * 4
      - t.start begin_ * 4 = (t.start (begin_ + n) - t.start begin_) * 4 := by omega
  rw [if_neg (by simp only [reader]; omega), packedOffset_reader, hfinish]
  change (TQRows.range t.payload _ _ >>= _) = _
  rw [range_ok (by omega), t.slice_packed, ← packed_range hend]
  change (t.reader.readScales begin_ n >>= _) = _
  rw [readScales_reader hend]
  change make _ = make _
  have hdescriptors : ((List.range n).map fun i => t.descriptor (begin_ + i)).map (fun d =>
      (d &&& ~~~t.reader.offsetMask) ||| ((d &&& t.reader.offsetMask) - UInt64.ofNat (t.start begin_)))
      = (t.select (List.range' begin_ n)).descriptors := by
    rw [descriptors_select_range hend, range'_eq_map_range, map_map, map_map]
    apply map_congr_left
    intro i hi
    have hlt := mem_range.mp hi
    have hmono : t.start begin_ ≤ t.start (begin_ + i) := Components.start_mono (by omega)
    have hmask : t.reader.offsetMask = t.offsetMask := rfl
    rw [Function.comp_apply, Function.comp_apply, hmask,
      and_offsetMask (show begin_ + i < t.rows by omega), ← UInt64.ofNat_sub hmono]
    rfl
  have hrows : (List.range' begin_ n).length = n := length_range'
  refine congrArg make ?_
  have hgs : ((t.reader.gs : Nat) : Int) = t.gs := Int.toNat_of_nonneg hfits.gs.1
  rw [hdescriptors, hgs]
  exact congrArg (fun rows => ({ rows, width := t.width, gs := t.gs
                                 scales := (t.select (List.range' begin_ n)).scales
                                 descriptors := (t.select (List.range' begin_ n)).descriptors
                                 packed := (List.range' begin_ n).flatMap t.rowSlice } : Components))
    hrows.symm

theorem room_range (hend : begin_ + n ≤ t.rows) : t.Room (List.range' begin_ n) := by
  have hlength : (t.rowWords (List.range' begin_ n)).length = n := by simp [Components.rowWords]
  have hsum := sum_rowWords_range hend (le_refl n)
  have hle : t.start (begin_ + n) ≤ t.start t.rows := Components.start_mono hend
  rw [t.sound.start_rows] at hle
  rw [take_of_length_le (by omega)] at hsum
  unfold Components.Room
  by_cases hcompact : t.compact = true
  · have hlt := t.sound.capacity_compact hcompact
    rw [if_pos hcompact]
    omega
  · have hcapacity := t.sound.capacity
    rw [if_neg hcompact]
    omega

/-- The rows of a range are read as they are. -/
theorem sliceRows_sameRow (hfits : t.Fits) (hpos : 0 < n) (hend : begin_ + n ≤ t.rows) :
    ∃ t', t.reader.sliceRows begin_ (begin_ + n) = .ok t' ∧ t'.rows = n ∧ t'.width = t.width ∧
      t'.toComponents = t.select (List.range' begin_ n) ∧
      ∀ i < n, SameRow t (begin_ + i) t' i 0 := by
  have hids : List.range' begin_ n ≠ [] := by
    rw [ne_eq, range'_eq_nil_iff]
    omega
  obtain ⟨t', hmake, hselect⟩ := exists_make
    (Components.sound_select t.sound (range_lt hend) (room_range hend) hids)
  refine ⟨t', (sliceRows_reader hfits hpos hend).trans hmake, ?_, ?_, hselect, fun i hi => ?_⟩
  · rw [hselect]
    exact length_range'
  · rw [hselect]
    rfl
  · have hsame := sameRow_select hselect (range_lt hend) (room_range hend)
      (show i < (List.range' begin_ n).length by simpa using hi)
    rwa [getD_eq_getElem _ _ (by simpa using hi), getElem_range', Nat.one_mul] at hsame

end TQTensor

end TyloQuant.Tq
