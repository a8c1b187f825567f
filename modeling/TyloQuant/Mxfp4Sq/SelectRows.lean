import TyloQuant.Mxfp4Sq.Loop

/-!
# Selected rows

The payload that `select_rows` writes is accepted, and each of its rows is the row that was
selected.
-/

namespace TyloQuant.Mxfp4Sq

open Lib Bytes ByteFile Bits List

namespace Choice

variable (x : Choice)

/-- The new payload. -/
def result : List UInt8 :=
  (List.range x.dst.bytes).map (x.ids.zipIdx.foldl x.selecting.step
    { result := put (fun _ => 0) 0 24 (byte (header x.src.base x.ids.length x.dst.width))
      symbol := x.dst.symbols, sqRow := 0, nativeRow := 0 }).result

theorem length_result : x.result.length = x.dst.bytes := by simp [result]

theorem plane_le (p : Plane) : x.planes.start p + x.planes.bytes p ≤ x.dst.bytes := by
  have hsymbols := x.laid.symbols
  have hselectors := x.laid.selectors
  have hscales := x.laid.scales
  have hpalettes := x.laid.palettes
  have hnativeScales := x.laid.nativeScales
  have hbytes := x.laid.bytes
  cases p <;> (simp only [planes]; omega)

theorem holds_result : x.planes.Holds (byte x.result) (x.count x.ids.length) x.value := by
  refine (copied_all (x := x)).holds.congr fun p k hk => ?_
  have hle := x.plane_le p
  rw [result, byte, getD_eq_getElem _ _ (by simp; omega), getElem_map, getElem_range]

/-! ### The header -/

theorem length_header (base outputs width : Nat) : (header base outputs width).length = 24 := by
  simp [header]

theorem take_result : x.result.take 24 = header x.src.base x.ids.length x.dst.width := by
  have hle := x.plane_le .header
  change 0 + 24 ≤ x.dst.bytes at hle
  apply ByteFile.ext
  · rw [length_take, length_result, length_header]
    omega
  · intro k
    rw [byte_take]
    split
    · rename_i hk
      have hbyte := x.holds_result.byte_eq (p := Plane.header) rfl hk (show 24 ≤ 24 by omega) rfl
      rw [← hbyte]
      exact congrArg _ (Nat.zero_add k).symm
    · rw [byte_of_le (by rw [length_header]; omega)]

theorem byte_header {k : Nat} (hk : k < 24) :
    byte x.result k = byte (header x.src.base x.ids.length x.dst.width) k := by
  rw [← take_result, byte_take, if_pos hk]

theorem readU64_result {offset n : Nat} (hoffset : offset + 8 ≤ 24) (hn : n < 256 ^ 8)
    (h : ((header x.src.base x.ids.length x.dst.width).drop offset).take 8 = littleEndian 8 n) :
    readU64 x.result offset = n := by
  rw [← take_result, drop_take, take_take, Nat.min_eq_left (by omega)] at h
  rw [readU64, h, ofLittleEndian_littleEndian hn]

/-! ### The rows -/

variable {x} {i : Nat}

theorem rowQ_result (hi : i < x.ids.length) : rowQ x.result x.dst i = x.q i := by
  have hq := x.q_range i
  have hroom := x.room le_rfl .qSelectors
  have hfield := x.holds_result.field_eq (p := Plane.qSelectors) hi hroom
    (show x.q i - 1 < 2 ^ 2 by omega)
  rw [rowQ, if_neg (by rw [x.laid.version]; omega), readPackedQ_eq, x.laid.qSelectors, field_add]
  change 1 + field (byte x.result) (8 * 24 + 2 * i) 2 = x.q i
  have hvalue : field (byte x.result) (8 * 24 + 2 * i) 2 = x.q i - 1 := hfield
  omega

theorem symbolOffset_result (hi : i ≤ x.ids.length) :
    symbolOffset x.result x.dst i = x.symbolStart i := by
  refine congrArg List.sum (map_congr_left fun r hr => ?_)
  have hr' := mem_range.mp hr
  rw [rowQ_result (by omega)]

theorem sqCount_result (hi : i ≤ x.ids.length) :
    sqCount (rowQ x.result x.dst) i = sqCount x.q i := by
  refine countP_congr fun r hr => ?_
  have hr' := mem_range.mp hr
  rw [rowQ_result (by omega)]

theorem nativeCount_result (hi : i ≤ x.ids.length) :
    nativeCount (rowQ x.result x.dst) i = nativeCount x.q i := by
  refine countP_congr fun r hr => ?_
  have hr' := mem_range.mp hr
  rw [rowQ_result (by omega)]

theorem auxiliaryRow_result (hi : i < x.ids.length) : auxiliaryRow x.result x.dst i
    = if x.q i = 4 then nativeCount x.q i else sqCount x.q i := by
  rw [auxiliaryRow_eq, rowQ_result hi, nativeCount_result hi.le, sqCount_result hi.le]

/-! ### The parser -/

theorem byte_padding {k j : Nat} (hk : k < selectorBytes x.ids.length) (hj : j < 8)
    (hrest : 2 * x.ids.length ≤ 8 * k + j) : (byte x.result (24 + k)).toNat.testBit j = false := by
  have hbit := x.holds_result.rest_eq (p := Plane.qSelectors) (i := 8 * k + j) hrest
    (show 8 * k + j < 8 * selectorBytes x.ids.length by omega)
  unfold bit at hbit
  change (byte x.result ((8 * 24 + (8 * k + j)) / 8)).toNat.testBit ((8 * 24 + (8 * k + j)) % 8)
    = false at hbit
  rwa [show (8 * 24 + (8 * k + j)) / 8 = 24 + k by omega,
    show (8 * 24 + (8 * k + j)) % 8 = j by omega] at hbit

theorem masked_padding (hused : x.ids.length * 2 % 8 ≠ 0) :
    (byte x.result (24 + usedSelectorBytes x.ids.length - 1)).toNat
      &&& (255 - (1 <<< (x.ids.length * 2 % 8) - 1)) = 0 := by
  have hbytes : usedSelectorBytes x.ids.length = x.ids.length * 2 / 8 + 1 := by
    unfold usedSelectorBytes
    omega
  have hselector : usedSelectorBytes x.ids.length ≤ selectorBytes x.ids.length := by
    unfold selectorBytes
    omega
  have hmask : ∃ m, 255 - (1 <<< (x.ids.length * 2 % 8) - 1) = 2 ^ (x.ids.length * 2 % 8) * m := by
    obtain h | h | h : x.ids.length * 2 % 8 = 2 ∨ x.ids.length * 2 % 8 = 4 ∨
        x.ids.length * 2 % 8 = 6 := by omega
    · exact ⟨63, by rw [h]; rfl⟩
    · exact ⟨15, by rw [h]; rfl⟩
    · exact ⟨3, by rw [h]; rfl⟩
  obtain ⟨m, hm⟩ := hmask
  rw [hm, hbytes, show 24 + (x.ids.length * 2 / 8 + 1) - 1 = 24 + x.ids.length * 2 / 8 by omega]
  apply Nat.eq_of_testBit_eq
  intro j
  rw [Nat.testBit_and, Nat.testBit_two_pow_mul, Nat.zero_testBit, testBit_toNat]
  by_cases hj : j < 8
  · by_cases hlow : x.ids.length * 2 % 8 ≤ j
    · rw [byte_padding (by omega) hj (by omega)]
      simp
    · simp [hlow]
  · simp [hj]

theorem align_padding {k : Nat} (hle : usedSelectorBytes x.ids.length ≤ k)
    (hk : k < selectorBytes x.ids.length) : byte x.result (24 + k) = 0 := by
  apply toNat_eq_of_bits
  intro j hj
  unfold usedSelectorBytes at hle
  rw [byte_padding hk hj (by omega)]
  exact (Nat.zero_testBit j).symm

/-- No native scale is a NaN: none of the source is. -/
theorem native_ne {k : Nat} (hle : x.dst.nativeScales ≤ k) (hk : k < x.dst.bytes) :
    byte x.result k ≠ 255 := by
  have hbytes := x.laid.bytes
  obtain ⟨m, rfl⟩ := Nat.exists_eq_add_of_le hle
  have hm : m < x.dst.sq4Rows * x.blocks := by omega
  have hcount : x.count x.ids.length .nativeScales = x.dst.sq4Rows * x.blocks := by
    rw [Choice.count, x.laid.sq4Rows]
  have hbyte : byte x.result (x.dst.nativeScales + m) = byte x.source
      (x.src.nativeScales + auxiliaryRow x.source x.src (x.nativeId (m / x.blocks))
        * (x.src.width / 32) + (x.columnBegin / 32 + m % x.blocks)) :=
    x.holds_result.byte_eq (p := Plane.nativeScales) rfl (by rw [hcount]; exact hm)
      (by rw [hcount]; exact le_rfl) rfl
  have hblocks : 0 < x.blocks := Nat.pos_of_ne_zero fun h => by rw [h] at hm; omega
  have hplace : m / x.blocks < x.nativePlaces.length := by
    rw [nativePlaces, ← countP_eq_length_filter]
    change m / x.blocks < nativeCount x.q x.ids.length
    rw [← x.laid.sq4Rows]
    exact Nat.div_lt_of_lt_mul (by rw [Nat.mul_comm]; exact hm)
  obtain ⟨hlt, hfour⟩ : x.nativePlaces.getD (m / x.blocks) 0 < x.ids.length ∧
      x.q (x.nativePlaces.getD (m / x.blocks) 0) = 4 := by
    rw [getD_eq_getElem _ _ hplace]
    obtain ⟨hmem, hfour⟩ := mem_filter.mp (getElem_mem hplace)
    exact ⟨mem_range.mp hmem, of_decide_eq_true hfour⟩
  have hrow : x.nativeId (m / x.blocks) < x.src.outputs := id_lt hlt
  have hrank : nativeCount (rowQ x.source x.src) (x.nativeId (m / x.blocks)) < x.src.sq4Rows := by
    have hmono : nativeCount (rowQ x.source x.src) (x.nativeId (m / x.blocks) + 1)
        ≤ nativeCount (rowQ x.source x.src) x.src.outputs := nativeCount_mono hrow
    have hq : rowQ x.source x.src (x.nativeId (m / x.blocks)) = 4 := hfour
    rw [nativeCount_succ, if_pos hq, ← x.accepted.sq4Rows_eq] at hmono
    omega
  have hauxiliary : auxiliaryRow x.source x.src (x.nativeId (m / x.blocks))
      = nativeCount (rowQ x.source x.src) (x.nativeId (m / x.blocks)) := by
    rw [auxiliaryRow_eq, if_pos (show rowQ x.source x.src (x.nativeId (m / x.blocks)) = 4 from hfour)]
  have hmul : (nativeCount (rowQ x.source x.src) (x.nativeId (m / x.blocks)) + 1)
      * (x.src.width / 32) ≤ x.src.sq4Rows * (x.src.width / 32) := Nat.mul_le_mul_right _ hrank
  have hblock : x.columnBegin / 32 + m % x.blocks < x.src.width / 32 := by
    have hmod := Nat.mod_lt m hblocks
    have hcolumns := x.columns
    have hcolumns' := x.columns_mod
    have hwidth : x.blocks = x.dst.width / 32 := rfl
    have hwidth' := x.laid.width_mod
    omega
  have hsource := x.accepted.bytes_eq
  rw [Nat.succ_mul] at hmul
  rw [hbyte, hauxiliary]
  exact x.accepted.native_ne _ (by omega) (by omega)

theorem parseAdaptive_result (x : Choice) :
    parseAdaptive x.result x.ids.length x.dst.width = .ok x.dst := by
  have hlength := x.length_result
  have hle : 24 + selectorBytes x.ids.length ≤ x.dst.bytes := x.plane_le .qSelectors
  have hqs : (List.range x.ids.length).map (readPackedQ fun k => byte x.result (24 + k))
      = x.ids.map (rowQ x.source x.src) := by
    rw [getD_qs]
    apply map_congr_left
    intro i hi
    have hrow := rowQ_result (mem_range.mp hi)
    rwa [rowQ, if_neg (by rw [x.laid.version]; omega), x.laid.qSelectors] at hrow
  have hbase : (byte x.result 5).toNat = x.src.base := by
    have hsmall := x.accepted.base_le
    rw [x.byte_header (by omega)]
    exact UInt8.toNat_ofNat_of_lt' (lt_of_le_of_lt hsmall (by decide))
  have hgeometry := (adaptiveLayout_eq_ok.mp x.layout_eq).1
  unfold parseAdaptive
  refine (bind_of_ok (checkedWeights_eq_ok.mpr ⟨hgeometry, rfl⟩) _).trans ?_
  rw [hqs, hbase, guard_eq_ok]
  refine ⟨by omega, ?_⟩
  dsimp only
  rw [guard_eq_ok, guard_eq_ok]
  refine ⟨fun h => h.2 (masked_padding h.1), ?_, ?_⟩
  · intro h
    obtain ⟨k, hk, hne⟩ := any_eq_true.mp h
    rw [mem_range'_1] at hk
    exact of_decide_eq_true hne (align_padding hk.1 (by omega))
  · refine (bind_of_ok x.layout_eq _).trans ?_
    rw [guard_eq_ok, guard_eq_ok]
    refine ⟨by omega, ?_, rfl⟩
    intro h
    obtain ⟨k, hk, hne⟩ := any_eq_true.mp h
    rw [mem_range'_1] at hk
    exact native_ne hk.1 (by omega) (of_decide_eq_true hne)

/-- **The parser accepts the new payload.** -/
theorem parse_result (x : Choice) : parse x.result = .ok x.dst := by
  have hlength := x.length_result
  have hle : 24 + selectorBytes x.ids.length ≤ x.dst.bytes := x.plane_le .qSelectors
  have hoffset := @readU64_result x 8 x.ids.length (by omega)
    (lt_of_le_of_lt x.laid.length_le (by decide)) (by simp [header])
  have hoffset' := @readU64_result x 16 x.dst.width (by omega)
    (lt_of_le_of_lt x.laid.width_le (by decide)) (by simp [header])
  have hbytes : byte x.result 0 = 83 ∧ byte x.result 1 = 81 ∧ byte x.result 2 = 86 ∧
      byte x.result 3 = 50 ∧ byte x.result 4 = 2 ∧ byte x.result 6 = 0 ∧ byte x.result 7 = 0 := by
    refine ⟨?_, ?_, ?_, ?_, ?_, ?_, ?_⟩ <;> (rw [x.byte_header (by omega)]; rfl)
  obtain ⟨h0, h1, h2, h3, h4, h6, h7⟩ := hbytes
  have hadaptive : adaptiveMagic x.result = true := by simp [adaptiveMagic, h0, h1, h2, h3]
  have hsq2 : sq2Magic x.result = false := by simp [sq2Magic, h2]
  have hsq3 : sq3Magic x.result = false := by simp [sq3Magic, h2]
  have hcount := x.laid.length_le
  have hwidth := x.laid.width_le
  unfold parse
  rw [guard_eq_ok, guard_eq_ok, guard_eq_ok, hoffset, hoffset', hadaptive, hsq2, hsq3]
  refine ⟨by omega, by simp [h4, h6, h7], by omega, ?_⟩
  exact parseAdaptive_result x

end Choice

end TyloQuant.Mxfp4Sq
