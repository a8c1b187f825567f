import TyloQuant.Mxfp4Sq.SelectRows

/-!
# The data of selected rows

What a kernel reads of a row, its codes and the scales and palettes of its blocks, is in the new
payload what it was in the source, over the selected columns.
-/

namespace TyloQuant.Mxfp4Sq

open Lib Bytes ByteFile Bits List

/-- A row of a payload is some columns of a row of another one. -/
structure SameRow (source : List UInt8) (src : Layout) (row : Nat) (result : List UInt8) (dst : Layout)
    (row' columnBegin : Nat) : Prop where
  q : rowQ result dst row' = rowQ source src row
  codes : ∀ column < dst.width,
    code result dst row' column = code source src row (columnBegin + column)
  blockScales : ∀ block < dst.width / 32,
    blockScale result dst row' block = blockScale source src row (columnBegin / 32 + block)
  blockPalettes : rowQ source src row ≠ 4 → ∀ block < dst.width / 32,
    blockPalette result dst row' block = blockPalette source src row (columnBegin / 32 + block)
  blockSelectors : rowQ source src row ≠ 4 → ∀ block < dst.width / 32,
    blockSelector result dst row' block = blockSelector source src row (columnBegin / 32 + block)
  states : rowQ source src row ≠ 4 → ∀ state < 8,
    stateScale result dst row' state = stateScale source src row state ∧
      statePalette result dst row' state = statePalette source src row state

/-! ### Block states -/

variable {symbols symbols' : Nat → UInt8}

theorem word32_congr {offset offset' : Nat}
    (h : ∀ k < 4, symbols' (offset' + k) = symbols (offset + k)) :
    word32 symbols' offset' = word32 symbols offset :=
  congrArg _ (map_congr_left fun k hk => h k (mem_range.mp hk))

variable {block : Nat}

theorem blockTag_congr {block' bits : Nat} (selector : Nat) (hbits : 1 ≤ bits ∧ bits ≤ 3)
    (h : ∀ k < bits * 4, symbols' (block' * (bits * 4) + k) = symbols (block * (bits * 4) + k)) :
    blockTag symbols' block' selector bits = blockTag symbols block selector bits := by
  have hword (i : Nat) (hi : i < bits) : word32 symbols' (block' * (bits * 4) + 4 * i)
      = word32 symbols (block * (bits * 4) + 4 * i) := by
    refine word32_congr fun k hk => ?_
    rw [Nat.add_assoc, Nat.add_assoc]
    exact h _ (by omega)
  unfold blockTag
  dsimp only
  rw [hword 0 (by omega)]
  by_cases h1 : bits = 1
  · rw [if_pos h1, if_pos h1]
  · rw [hword 1 (by omega)]
    by_cases h2 : bits = 2
    · rw [if_neg h1, if_neg h1, if_pos h2, if_pos h2]
    · rw [hword 2 (by omega)]

theorem blockTag_lt (symbols : Nat → UInt8) (block : Nat) {selector : Nat} (bits : Nat)
    (hselector : selector < 2) : blockTag symbols block selector bits < 8 := by
  have htwo (a b : Nat) : (a &&& 1 ||| (b &&& 1) <<< 1) < 2 ^ 3 := by
    have ha : a &&& 1 ≤ 1 := Nat.and_le_right
    have hb : b &&& 1 ≤ 1 := Nat.and_le_right
    rw [Nat.shiftLeft_eq]
    exact Nat.or_lt_two_pow (by omega) (by omega)
  unfold blockTag
  dsimp only
  refine Nat.or_lt_two_pow (n := 3) ?_ (by rw [Nat.shiftLeft_eq]; omega)
  split
  · exact htwo _ _
  · split
    · exact lt_of_le_of_lt Nat.and_le_right (by omega)
    · exact htwo _ _

theorem blockState_lt (data : List UInt8) (layout : Layout) (row block : Nat) :
    blockState data layout row block < 8 :=
  blockTag_lt _ _ _ (readPackedBits_lt _ _ _ (by omega))

namespace Choice

variable {x : Choice} {i : Nat}

theorem column_bytes (x : Choice) (q : Nat) :
    x.columnBegin * q / 8 = x.columnBegin / 32 * (q * 4) := by
  rw [symbol_bytes x.columns_mod, Nat.mul_comm q]

theorem rowSymbols_result (hi : i < x.ids.length) {k : Nat} (hk : k < x.dst.width * x.q i / 8) :
    rowSymbols x.result x.dst i k
      = rowSymbols x.source x.src (x.id i) (x.columnBegin * x.q i / 8 + k) := by
  have hsucc := x.symbolStart_succ i
  have hmono := x.symbolStart_mono (show i + 1 ≤ x.ids.length from hi)
  rw [rowSymbols, symbolOffset_result hi.le, Nat.add_assoc]
  exact x.holds_result.byte_eq (p := Plane.symbols) rfl
    (show x.symbolStart i + k < x.symbolStart x.ids.length by omega)
    (show x.symbolStart x.ids.length ≤ x.symbolStart x.ids.length by omega) (value_symbols hi hk)

theorem code_result (hi : i < x.ids.length) {column : Nat} (hcolumn : column < x.dst.width) :
    code x.result x.dst i column = code x.source x.src (x.id i) (x.columnBegin + column) := by
  have hq := x.q_range i
  have hq' : rowQ x.source x.src (x.id i) = x.q i := rfl
  have hwhole : x.columnBegin * x.q i = 8 * (x.columnBegin * x.q i / 8) := by
    obtain ⟨m, hm⟩ : ∃ m, x.columnBegin = 8 * m :=
      ⟨x.columnBegin / 8, by have := x.columns_mod; omega⟩
    rw [hm, Nat.mul_assoc]
    omega
  have hend : column * x.q i + x.q i ≤ x.dst.width * x.q i := by
    rw [← Nat.succ_mul]
    exact Nat.mul_le_mul_right _ hcolumn
  have hbytes : x.dst.width * x.q i = 8 * (x.dst.width * x.q i / 8) := by
    obtain ⟨m, hm⟩ : ∃ m, x.dst.width = 8 * m :=
      ⟨x.dst.width / 8, by have := x.laid.width_mod; omega⟩
    rw [hm, Nat.mul_assoc]
    omega
  rw [code, code, rowQ_result hi, hq', readPackedBits_eq _ _ _ (by omega),
    readPackedBits_eq _ _ _ (by omega), Nat.add_mul, Nat.mul_zero, Nat.zero_add, Nat.zero_add, hwhole,
    ← field_add]
  apply field_congr
  intro k _ hk
  exact rowSymbols_result hi (by omega)

section Scalar

variable (hi : i < x.ids.length) (hq : x.q i ≠ 4)

include hi hq

theorem auxiliary_scalar : auxiliaryRow x.result x.dst i = sqCount x.q i := by
  rw [auxiliaryRow_result hi, if_neg hq]

theorem sqCount_lt : sqCount x.q i + 1 ≤ sqCount x.q x.ids.length := by
  have hmono : sqCount x.q (i + 1) ≤ sqCount x.q x.ids.length := sqCount_mono hi
  rwa [sqCount_succ, if_neg hq] at hmono

omit hi hq in
theorem readPackedBits_result {p : Plane} {n v : Nat} (hwidth : x.planes.width p ≤ 8)
    (hn : n < x.count x.ids.length p) (hvalue : x.value p n = v) (hv : v < 2 ^ x.planes.width p) :
    readPackedBits (byte x.result) (x.planes.start p) n (x.planes.width p) = v := by
  rw [readPackedBits_eq _ _ _ hwidth, Nat.mul_comm n]
  subst hvalue
  exact x.holds_result.field_eq hn (x.room le_rfl p) hv

theorem blockSelector_result (hblock : block < x.blocks) :
    blockSelector x.result x.dst i block
      = blockSelector x.source x.src (x.id i) (x.columnBegin / 32 + block) := by
  have hlt : (sqCount x.q i + 1) * x.blocks ≤ sqCount x.q x.ids.length * x.blocks :=
    Nat.mul_le_mul_right _ (sqCount_lt hi hq)
  rw [Nat.succ_mul] at hlt
  rw [blockSelector, auxiliary_scalar hi hq]
  refine readPackedBits_result (p := .selectors) (show 1 ≤ 8 by omega)
    (show sqCount x.q i * x.blocks + block < sqCount x.q x.ids.length * x.blocks by omega) ?_
    (readPackedBits_lt _ _ _ (by omega))
  change x.value .selectors (sqCount x.q i * x.blocks + block) = _
  rw [value, (place_div_mod hblock).1, (place_div_mod hblock).2, sqId_eq hi hq]

variable {state : Nat}

theorem stateScale_result (hstate : state < 8) :
    stateScale x.result x.dst i state = stateScale x.source x.src (x.id i) state := by
  have hlt := sqCount_lt hi hq
  rw [stateScale, auxiliary_scalar hi hq]
  refine readPackedBits_result (p := .scales) (show 2 ≤ 8 by omega)
    (show sqCount x.q i * 8 + state < sqCount x.q x.ids.length * 8 by omega) ?_
    (readPackedBits_lt _ _ _ (by omega))
  rw [value, (place_div_mod hstate).1, (place_div_mod hstate).2, sqId_eq hi hq]

theorem statePalette_result (hstate : state < 8) :
    statePalette x.result x.dst i state = statePalette x.source x.src (x.id i) state := by
  have hlt := sqCount_lt hi hq
  rw [statePalette, auxiliary_scalar hi hq]
  refine readPackedBits_result (p := .palettes) (show 5 ≤ 8 by omega)
    (show sqCount x.q i * 8 + state < sqCount x.q x.ids.length * 8 by omega) ?_
    (readPackedBits_lt _ _ _ (by omega))
  rw [value, (place_div_mod hstate).1, (place_div_mod hstate).2, sqId_eq hi hq]

theorem blockState_result (hblock : block < x.blocks) :
    blockState x.result x.dst i block
      = blockState x.source x.src (x.id i) (x.columnBegin / 32 + block) := by
  have hrange := x.q_range i
  have hq' : rowQ x.source x.src (x.id i) = x.q i := rfl
  rw [blockState, blockState, blockSelector_result hi hq hblock, rowQ_result hi, hq']
  refine blockTag_congr _ (by omega) fun k hk => ?_
  have hbytes : (block + 1) * (x.q i * 4) ≤ x.dst.width * x.q i / 8 := by
    rw [symbol_bytes x.laid.width_mod, Nat.mul_comm (x.q i)]
    exact Nat.mul_le_mul_right _ hblock
  rw [Nat.succ_mul] at hbytes
  rw [rowSymbols_result hi (by omega), column_bytes, Nat.add_mul, Nat.add_assoc]

end Scalar

theorem nativeScale_result (hi : i < x.ids.length) (hq : x.q i = 4) (hblock : block < x.blocks) :
    nativeScale x.result x.dst i block
      = nativeScale x.source x.src (x.id i) (x.columnBegin / 32 + block) := by
  have hroom := x.room le_rfl .nativeScales
  have hmono : nativeCount x.q (i + 1) ≤ nativeCount x.q x.ids.length := nativeCount_mono hi
  have hlt := Nat.mul_le_mul_right x.blocks hmono
  rw [nativeCount_succ, if_pos hq, Nat.succ_mul] at hlt
  have hvalue : x.value .nativeScales (nativeCount x.q i * x.blocks + block)
      = nativeScale x.source x.src (x.id i) (x.columnBegin / 32 + block) := by
    rw [value, (place_div_mod hblock).1, (place_div_mod hblock).2, nativeId_eq hi hq]
  have hbyte := x.holds_result.byte_eq (p := Plane.nativeScales) rfl
    (show nativeCount x.q i * x.blocks + block < nativeCount x.q x.ids.length * x.blocks by omega)
    (Nat.le_of_mul_le_mul_left hroom (show 0 < 8 by omega)) hvalue
  rw [nativeScale, nativeScale, auxiliaryRow_result hi, if_pos hq, Nat.add_assoc]
  exact congrArg UInt8.toNat hbyte

/-- **Each row of the new payload is the row that was selected.** -/
theorem sameRow_result (hi : i < x.ids.length) :
    SameRow x.source x.src (x.id i) x.result x.dst i x.columnBegin where
  q := rowQ_result hi
  codes := fun _ hcolumn => code_result hi hcolumn
  blockScales := fun block hblock => by
    have hq' : rowQ x.source x.src (x.id i) = x.q i := rfl
    rw [blockScale, blockScale, rowQ_result hi, hq']
    by_cases hq : x.q i = 4
    · rw [if_pos hq, if_pos hq, nativeScale_result hi hq hblock]
    · rw [if_neg hq, if_neg hq, blockState_result hi hq hblock,
        stateScale_result hi hq (blockState_lt _ _ _ _), x.laid.base]
  blockPalettes := fun hq block hblock => by
    rw [blockPalette, blockPalette, blockState_result hi hq hblock,
      statePalette_result hi hq (blockState_lt _ _ _ _)]
  blockSelectors := fun hq _ hblock => blockSelector_result hi hq hblock
  states := fun hq _ hstate =>
    ⟨stateScale_result hi hq hstate, statePalette_result hi hq hstate⟩

end Choice

/-! ### `select_rows` -/

theorem sum_bounds {qs : List Nat} (h : ∀ q ∈ qs, 1 ≤ q ∧ q ≤ 4) :
    qs.length ≤ qs.sum ∧ qs.sum ≤ qs.length * 4 := by
  induction qs with
  | nil => simp
  | cons q qs ih =>
    have hq := h q (by simp)
    have hqs := ih fun q' hq' => h q' (mem_cons_of_mem q hq')
    rw [length_cons, sum_cons]
    omega

/-- The layout of the new payload is always one that is accepted. -/
theorem exists_layout {source : List UInt8} {src : Layout} (h : Accepted source src) {ids : List Nat}
    (hids : 0 < ids.length ∧ ids.length ≤ intMax) {w : Nat}
    (hw : 0 < w ∧ w ≤ src.width ∧ w % 32 = 0) :
    ∃ dst, adaptiveLayout ids.length w src.base (ids.map (rowQ source src)).sum
      ((ids.map (rowQ source src)).countP (· = 4)) = .ok dst := by
  have hwidth := h.width_le
  have hrange : ∀ q ∈ ids.map (rowQ source src), 1 ≤ q ∧ q ≤ 4 := by
    intro q hq
    obtain ⟨row, -, rfl⟩ := mem_map.mp hq
    exact h.q_range row
  have hsum := sum_bounds hrange
  have hfour := countP_le_length (p := fun q => decide (q = 4)) (l := ids.map (rowQ source src))
  rw [length_map] at hsum hfour
  refine ⟨_, adaptiveLayout_eq_ok.mpr ⟨?_, ?_, rfl⟩⟩
  · omega
  · exact ⟨h.base_le, hfour, hsum.1, hsum.2⟩

theorem selectRows_eq (x : Choice) {rows : List Int} {columnEnd : Int}
    (hparse : parse x.source = .ok x.src)
    (hoffsets : ∀ row < x.src.outputs, symbolOffset x.source x.src row < 2 ^ 32)
    (hrows : rows.map Int.toNat = x.ids) (hnonneg : ∀ row ∈ rows, 0 ≤ row)
    (hend : ((x.columnBegin + x.dst.width : Nat) : Int)
      = if columnEnd = -1 then (x.src.width : Int) else columnEnd) :
    selectRows x.source rows x.columnBegin columnEnd = .ok x.result := by
  have hlength : rows.length = x.ids.length := by rw [← hrows, length_map]
  have hmetadata := (rowMetadata_eq_ok x.accepted).mpr ⟨hoffsets, rfl⟩
  have hqs : x.ids.map (fun row => (metadataOf x.source x.src x.src.outputs).q.getD row 0)
      = x.ids.map (rowQ x.source x.src) := by
    apply map_congr_left
    intro row hrow
    rw [metadataOf, getD_eq_getElem _ _ (by simpa using x.ids_lt row hrow), getElem_map,
      getElem_range]
  have hcopied := Choice.copied_all (x := x)
  have hpos := x.laid.width_pos
  have hmod := x.laid.width_mod
  have hmod' := x.columns_mod
  have hcolumns := x.columns
  have hcount := x.laid.length_pos
  have hcount' := x.laid.length_le
  unfold selectRows
  refine (bind_of_ok hparse _).trans ?_
  dsimp only
  rw [← hend, guard_eq_ok, guard_eq_ok]
  refine ⟨by omega, ?_, (bind_of_ok hmetadata _).trans ?_⟩
  · rintro (rfl | hlarge)
    · simp at hlength
      omega
    · omega
  · rw [guard_eq_ok, hrows, hqs,
      show (((x.columnBegin + x.dst.width : Nat) : Int) - x.columnBegin).toNat = x.dst.width by omega]
    refine ⟨?_, (bind_of_ok x.layout_eq _).trans ?_⟩
    · intro h
      obtain ⟨row, hrow, hout⟩ := any_eq_true.mp h
      have hlow := hnonneg row hrow
      have hhigh := x.ids_lt row.toNat (hrows ▸ mem_map_of_mem hrow)
      simp only [Bool.or_eq_true, decide_eq_true_eq] at hout
      omega
    · rw [Int.toNat_natCast, guard_eq_ok]
      refine ⟨?_, rfl⟩
      have hsymbol := hcopied.symbol
      have hsqRow := hcopied.sqRow
      have hnativeRow := hcopied.nativeRow
      rw [← x.laid.selectors] at hsymbol
      rw [← x.laid.sqRows] at hsqRow
      rw [← x.laid.sq4Rows] at hnativeRow
      rintro (h | h | h)
      · exact h hsymbol
      · exact h hsqRow
      · exact h hnativeRow

/-- **`select_rows` keeps the rows that are selected.** -/
theorem selectRows_keeps_rows (source : List UInt8) (src : Layout) (ids : List Int)
    (columnBegin columnEnd end_ : Int) (hparse : parse source = .ok src)
    (hoffsets : ∀ row < src.outputs, symbolOffset source src row < 2 ^ 32) (hne : ids ≠ [])
    (hlength : ids.length ≤ intMax) (hids : ∀ id ∈ ids, 0 ≤ id ∧ id < src.outputs)
    (hend : end_ = if columnEnd = -1 then (src.width : Int) else columnEnd)
    (hcolumns : 0 ≤ columnBegin ∧ columnBegin < end_ ∧ end_ ≤ src.width)
    (haligned : columnBegin % 32 = 0 ∧ end_ % 32 = 0) :
    ∃ result dst, selectRows source ids columnBegin columnEnd = .ok result ∧
      parse result = .ok dst ∧ dst.version = 2 ∧ dst.outputs = ids.length ∧
      (dst.width : Int) = end_ - columnBegin ∧ dst.base = src.base ∧
      (∀ i < ids.length, SameRow source src (ids.getD i 0).toNat result dst i columnBegin.toNat) ∧
      ((∀ i < ids.length, symbolOffset result dst i < 2 ^ 32) →
        ∃ m, rowMetadata result dst = .ok m ∧
          m.q = ids.map fun id => rowQ source src id.toNat) := by
  have haccepted := parse_accepted hparse
  have hpos := length_pos_iff.mpr hne
  obtain ⟨dst, hdst⟩ := @exists_layout _ _ haccepted (ids.map Int.toNat)
    (by rw [length_map]; omega) (end_ - columnBegin).toNat (by omega)
  have hwidth : dst.width = (end_ - columnBegin).toNat := by rw [(adaptiveLayout_eq_ok.mp hdst).2.2]
  obtain ⟨x, rfl, rfl, rfl, hrows, hbegin⟩ : ∃ x : Choice, x.source = source ∧ x.src = src ∧
      x.dst = dst ∧ x.ids = ids.map Int.toNat ∧ x.columnBegin = columnBegin.toNat :=
    ⟨{ source, src, dst
       ids := ids.map Int.toNat
       columnBegin := columnBegin.toNat
       accepted := haccepted
       ids_lt := fun id hid => by
        obtain ⟨row, hrow, rfl⟩ := mem_map.mp hid
        have hbounds := hids row hrow
        omega
       columns := by omega
       columns_mod := by omega
       layout_eq := by rw [hwidth]; exact hdst }, rfl, rfl, rfl, rfl, rfl⟩
  have hcount : x.ids.length = ids.length := by rw [hrows, length_map]
  have hid (i : Nat) (hi : i < ids.length) : x.id i = (ids.getD i 0).toNat := by
    rw [Choice.id, getD_eq_getElem _ _ (by omega), getD_eq_getElem _ _ hi]
    simp [hrows]
  have hselect : selectRows x.source ids x.columnBegin columnEnd = .ok x.result :=
    selectRows_eq x hparse hoffsets hrows.symm (fun row hrow => (hids row hrow).1) (by omega)
  rw [hbegin, Int.toNat_of_nonneg hcolumns.1] at hselect
  refine ⟨x.result, x.dst, hselect, x.parse_result, x.laid.version, x.laid.outputs.trans hcount,
    by omega, x.laid.base, fun i hi => ?_, fun hsmall => ?_⟩
  · rw [← hid i hi, ← hbegin]
    exact Choice.sameRow_result (by omega)
  · have haccepted' := parse_accepted x.parse_result
    have houtputs := x.laid.outputs.trans hcount
    refine ⟨_, (rowMetadata_eq_ok haccepted').mpr ⟨fun i hi => hsmall i (by omega), rfl⟩, ?_⟩
    rw [metadataOf, houtputs]
    apply ext_getElem
    · simp
    · intro i hi hi'
      have hlt : i < ids.length := by simpa using hi'
      have hq := Choice.rowQ_result (x := x) (i := i) (by omega)
      rw [getElem_map, getElem_map, getElem_range, hq, Choice.q, hid i hlt,
        getD_eq_getElem _ _ hlt]

/-- One row at one bit and one native row, of two blocks. -/
def twoRows : List UInt8 :=
  [83, 81, 86, 50, 2, 100, 0, 0] ++ littleEndian 8 2 ++ littleEndian 8 64 ++ [0x0c, 0, 0, 0]
    ++ List.replicate 8 0xa5 ++ List.replicate 32 0x3c ++ [0x02] ++ [0x1b, 0xe4]
    ++ [0x21, 0x43, 0x65, 0x87, 0x09] ++ [120, 121]

def twoRowsLayout : Layout where
  version := 2
  bits := 0
  outputs := 2
  width := 64
  base := 100
  sqRows := 1
  sq4Rows := 1
  qSelectors := 24
  symbols := 28
  selectors := 68
  scales := 69
  palettes := 71
  nativeScales := 76
  bytes := 78

theorem selectRows_keeps_rows_sample : ∃ result dst,
    selectRows twoRows [1, 0, 1] 32 (-1) = .ok result ∧ parse result = .ok dst ∧
    ∀ i < 3, SameRow twoRows twoRowsLayout
      (([1, 0, 1] : List Int).getD i 0).toNat result dst i 32 := by
  obtain ⟨result, dst, hselect, hparse, -, -, -, -, hsame, -⟩ :=
    selectRows_keeps_rows twoRows twoRowsLayout [1, 0, 1] 32 (-1) 64 (by decide +kernel)
      (by decide +kernel) (by decide) (by decide) (by decide) (by decide) (by decide) (by decide)
  exact ⟨result, dst, hselect, hparse, hsame⟩

theorem selectRows_empty : parse twoRows = .ok twoRowsLayout ∧ selectRows twoRows [] 0 64
      = .error (.runtimeError "MXFP4-SQ row selection must be non-empty and fit int32") := by
  refine ⟨?_, ?_⟩
  · decide +kernel
  · decide +kernel

end TyloQuant.Mxfp4Sq
