import TyloQuant.Tq.Layout

/-!
# One row of a tensor, read in two ways

`slice_rows` multiplies a word offset by four in 32 bits, `slice_row_into` in 64.  They agree on
every row but those whose offset is 2^30 or more and whose low 30 bits happen to fit.
-/

namespace TyloQuant.Tq

open Lib Bytes ByteFile

/-! ### Headers -/

/-- What the constructor of a layout leaves. -/
structure TqLayout.Sane (m : TqLayout) : Prop where
  rows_pos : 0 < m.rows
  rows_lt : m.rows < 2 ^ 32
  width_pos : 0 < m.width
  width_lt : m.width < 2 ^ 32
  width_mod : m.width % 32 = 0
  packed_lt : m.packedBytes < 2 ^ 32
  gs_lt : m.gs < 2 ^ 32
  whole : m.compact = false → m.width % 256 = 0
  short : m.compact = true → m.columns = true ∧ m.width % 256 ≠ 0
  grouped : m.columns = false → 16 ≤ m.gs ∧ m.gs ≤ 2 ^ 20 ∧ m.gs &&& (m.gs - 1) = 0

variable {m : TqLayout}

theorem parseLayout_ok {p : List UInt8} {size : Nat} (h : parseLayout p size = .ok m) :
    m.Sane ∧ size = m.bytes := by
  unfold parseLayout at h
  rw [guard_eq_ok] at h
  dsimp only at h
  rw [guard_eq_ok, guard_eq_ok, guard_eq_ok, guard_eq_ok] at h
  obtain ⟨-, -, hgeometry, -, hsize, hm⟩ := h
  have hrows := integer_lt p 12 4
  have hwidth := integer_lt p 16 4
  have hgs := integer_lt p 24 4
  have hpacked := integer_lt p 28 4
  cases hm
  rw [not_or, not_or, not_or, not_or] at hgeometry
  obtain ⟨hrows', hwidth', hmod, hring, hgroups⟩ := hgeometry
  have hpow : (1 <<< 20 : Nat) = 2 ^ 20 := rfl
  rw [hpow] at hgroups
  refine ⟨⟨Nat.pos_of_ne_zero hrows', hrows, Nat.pos_of_ne_zero hwidth', hwidth,
    by simpa using hmod, hpacked, hgs, fun hcompact => ?_, fun hcompact => ?_, fun hcolumns => ?_⟩,
    by simpa using hsize⟩
  · dsimp only at hcompact
    simpa [hcompact] using hring
  · dsimp only at hcompact
    simpa [hcompact] using hring
  · dsimp only at hcolumns
    have hnot := not_and.mp hgroups (by simp [hcolumns])
    rw [not_or, not_or, not_not] at hnot
    exact ⟨Nat.le_of_not_lt hnot.1, Nat.le_of_not_lt hnot.2.1, hnot.2.2⟩

theorem make_ok {source : List UInt8} {t : TqRows} (h : TqRows.make source = .ok t) :
    t.source = source ∧ t.header = source.take 64 ∧ t.layout.Sane ∧
      source.length = t.layout.bytes := by
  unfold TqRows.make at h
  rw [guard_eq_ok] at h
  obtain ⟨hlength, h⟩ := h
  obtain ⟨header, hheader, h⟩ := bind_eq_ok.mp h
  obtain ⟨layout, hlayout, h⟩ := bind_eq_ok.mp h
  obtain ⟨hsane, hsize⟩ := parseLayout_ok hlayout
  rw [← pure_eq_ok.mp h]
  unfold readRange at hheader
  rw [if_neg (by omega)] at hheader
  cases hheader
  exact ⟨rfl, by simp, hsane, hsize⟩

/-! ### Offsets -/

/-- The words of a row. -/
def TqLayout.wordsOf (m : TqLayout) (d : Nat) : Nat := m.width * bitsOf d / 32

theorem TqLayout.Sane.words (h : m.Sane) (d : Nat) :
    m.width * bitsOf d / 8 = 4 * m.wordsOf d ∧ m.wordsOf d < 2 ^ 30 ∧ 0 < m.wordsOf d := by
  obtain ⟨k, hk⟩ : ∃ k, m.width = 32 * k := ⟨m.width / 32, by have := h.width_mod; omega⟩
  have hbits := bitsOf_le d
  have hlt := h.width_lt
  have hpos := h.width_pos
  have hmul : m.width * bitsOf d = 32 * (k * bitsOf d) := by rw [hk, Nat.mul_assoc]
  have hle : k * bitsOf d ≤ k * 8 := Nat.mul_le_mul_left k hbits.2
  have hge : k * 1 ≤ k * bitsOf d := Nat.mul_le_mul_left k hbits.1
  unfold TqLayout.wordsOf
  rw [hmul]
  omega

theorem TqLayout.offset_lt (m : TqLayout) (d : Nat) : m.offset d < 2 ^ 32 := by
  unfold TqLayout.offset
  exact lt_of_le_of_lt Nat.and_le_left (Nat.mod_lt _ (Nat.two_pow_pos 32))

theorem TqLayout.rebase_zero (m : TqLayout) (d : Nat) :
    m.rebase d 0 = .ok (d &&& complement m.offsetMask) := by
  unfold TqLayout.rebase
  rw [Nat.zero_and, if_neg (not_not_intro rfl), Nat.or_zero]

theorem sub32_self (a : Nat) (h : a < 2 ^ 32) : sub32 a a = 0 := by
  unfold sub32
  omega

theorem sub32_add {a n : Nat} (ha : a < 2 ^ 32) (hn : n < 2 ^ 32) :
    sub32 ((a + n) % 2 ^ 32) a = n := by
  unfold sub32
  omega

theorem rebaseRows_one {d : Nat} {rows : List Nat × Nat} :
    rebaseRows m (m.offset d) (m.offset d) [d] = .ok rows ↔ m.validDescriptor d = true ∧
        ([d &&& complement m.offsetMask], (m.offset d + m.wordsOf d) % 2 ^ 32) = rows := by
  rw [rebaseRows, guard_eq_ok, sub32_self _ (m.offset_lt d), TqLayout.rebase_zero, rebaseRows,
    not_or, not_not]
  change (_ ∧ _) ∧ Except.ok _ = _ ↔ _
  rw [Except.ok.injEq]
  exact and_congr_left fun _ => ⟨fun h => h.1, fun h => ⟨h, fun hne => hne rfl⟩⟩

/-! ### The selectors of a row -/

section Row

variable {t : TqRows} {row : Nat}

/-- The scales of one row. -/
def TqRows.rowScales (t : TqRows) (row : Nat) : List UInt8 :=
  if t.layout.columns then (t.source.drop t.layout.scales).take t.layout.scaleBytes
  else repackSelectors
    ((t.source.drop (t.layout.scales + row * t.layout.groups / 2)).take
      ((row * t.layout.groups + t.layout.groups + 1) / 2 - row * t.layout.groups / 2))
    (row * t.layout.groups) t.layout.groups

theorem repackSelectors_one (source : List UInt8) (first : Nat) :
    repackSelectors source first 1
      = [UInt8.ofNat ((byte source 0).toNat >>> ((first &&& 1) * 4) &&& 15)] := by
  simp [repackSelectors, selectorAt, Bits.orByte]

/-- The descriptor of a row. -/
def TqRows.descriptor (t : TqRows) (row : Nat) : Nat := integer t.source (64 + row * 8) 8

/-- The tensor of one row whose words begin at some byte. -/
def TqRows.rowBlob (t : TqRows) (row start : Nat) : List UInt8 :=
  t.headerFor 1 (4 * t.layout.wordsOf (t.descriptor row))
    ++ littleEndian 8 (t.descriptor row &&& complement t.layout.offsetMask)
    ++ t.rowScales row
    ++ (t.source.drop (t.layout.packed + start)).take (4 * t.layout.wordsOf (t.descriptor row))

section Ranges

variable (hlength : t.source.length = t.layout.bytes) (hrow : row < t.layout.rows)

include hlength hrow

theorem row_ranges : 64 + row * 8 + 8 ≤ t.layout.scales ∧
    t.layout.scales + t.layout.scaleBytes = t.layout.packed ∧
    t.layout.packed + t.layout.packedBytes = t.source.length ∧
    (t.layout.columns = false →
      (row * t.layout.groups + t.layout.groups + 1) / 2 ≤ t.layout.scaleBytes) := by
  refine ⟨?_, rfl, hlength.symm, fun hcolumns => ?_⟩
  · unfold TqLayout.scales
    omega
  · have hmul : (row + 1) * t.layout.groups ≤ t.layout.rows * t.layout.groups :=
      Nat.mul_le_mul_right _ hrow
    rw [Nat.succ_mul] at hmul
    unfold TqLayout.scaleBytes
    rw [hcolumns]
    change _ ≤ (t.layout.rows * t.layout.groups + 1) / 2
    omega

theorem readRecord_ok :
    readRange t.source (64 + row * 8) 8 = .ok ((t.source.drop (64 + row * 8)).take 8) := by
  obtain ⟨hrecord, hscales, hpacked, -⟩ := row_ranges hlength hrow
  exact readRange_ok (by omega)

theorem readSelectors_ok (hcolumns : t.layout.columns = false) :
    (do
      let selectors ← readRange t.source (t.layout.scales + row * t.layout.groups / 2)
        ((row * t.layout.groups + t.layout.groups + 1) / 2 - row * t.layout.groups / 2)
      pure (repackSelectors selectors (row * t.layout.groups) t.layout.groups))
      = .ok (t.rowScales row) := by
  obtain ⟨-, hscales, hpacked, hgroups⟩ := row_ranges hlength hrow
  have hend := hgroups hcolumns
  rw [readRange_ok (by omega), TqRows.rowScales, if_neg (by simp [hcolumns])]
  rfl

theorem readScales_ok : t.readScales row 1 = .ok (t.rowScales row) := by
  obtain ⟨-, hscales, hpacked, -⟩ := row_ranges hlength hrow
  unfold TqRows.readScales
  dsimp only
  by_cases hcolumns : t.layout.columns = true
  · rw [if_pos hcolumns, TqRows.rowScales, if_pos hcolumns]
    exact readRange_ok (by omega)
  · rw [if_neg hcolumns, Nat.one_mul]
    exact readSelectors_ok hlength hrow (Bool.eq_false_of_not_eq_true hcolumns)

/-- The path for one group reads the same selector. -/
theorem readRowScales_ok : t.readRowScales row = .ok (t.rowScales row) := by
  rw [← readScales_ok hlength hrow]
  unfold TqRows.readRowScales TqRows.readScales
  dsimp only
  by_cases hcolumns : t.layout.columns = true
  · rw [if_pos hcolumns, if_pos hcolumns]
  · rw [if_neg hcolumns, if_neg hcolumns, Nat.one_mul]
    by_cases hgroups : t.layout.groups = 1
    · have hsize : (row + 1 + 1) / 2 - row / 2 = 1 := by omega
      rw [if_pos hgroups, hgroups, Nat.mul_one, hsize]
      simp only [repackSelectors_one]
    · rw [if_neg hgroups]

end Ranges

/-- What both readers check of a row whose words begin at some byte. -/
structure TqRows.Readable (t : TqRows) (row start : Nat) : Prop where
  valid : t.layout.validDescriptor (t.descriptor row) = true
  fits : start + 4 * t.layout.wordsOf (t.descriptor row) ≤ t.layout.packedBytes
  front : row = 0 → t.layout.offset (t.descriptor row) = 0
  back : row + 1 = t.layout.rows →
    start + 4 * t.layout.wordsOf (t.descriptor row) = t.layout.packedBytes

variable (hsane : t.layout.Sane) (hlength : t.source.length = t.layout.bytes)
  (hrow : row < t.layout.rows)

include hsane hlength hrow

variable {blob : List UInt8}

theorem sliceRowInto_ok {capacity : Nat} (hcapacity : t.rowBytes (t.descriptor row) ≤ capacity) :
    t.sliceRowInto row capacity = .ok blob ↔
      t.Readable row (t.layout.offset (t.descriptor row) * 4) ∧
        t.rowBlob row (t.layout.offset (t.descriptor row) * 4) = blob := by
  have hdescriptor : integer ((t.source.drop (64 + row * 8)).take 8) 0 8 = t.descriptor row :=
    integer_slice _ (by omega)
  obtain ⟨-, -, hpacked, -⟩ := row_ranges hlength hrow
  obtain ⟨hbytes, -, -⟩ := hsane.words (t.descriptor row)
  unfold TqRows.sliceRowInto
  dsimp only
  rw [guard_eq_ok, readRecord_ok hlength hrow]
  change _ ∧ (if _ then _ else if _ then _ else _) = _ ↔ _
  rw [guard_eq_ok, guard_eq_ok, hdescriptor, TqLayout.rebase_zero, readRowScales_ok hlength hrow,
    hbytes]
  change _ ∧ _ ∧ _ ∧ (readRange _ _ _ >>= fun words => pure (_ ++ words)) = _ ↔ _
  simp only [bind_eq_ok, pure_eq_ok, readRange_eq_ok]
  rw [not_or, not_or, not_or, not_not]
  constructor
  · rintro ⟨-, ⟨hvalid, hfits, hfront, hback⟩, -, words, ⟨-, rfl⟩, rfl⟩
    exact ⟨⟨hvalid, by omega, fun h => by_contra fun hne => hfront ⟨h, hne⟩,
      fun h => by_contra fun hne => hback ⟨h, hne⟩⟩, rfl⟩
  · rintro ⟨⟨hvalid, hfits, hfront, hback⟩, rfl⟩
    exact ⟨by omega, ⟨hvalid, by omega, fun h => h.2 (hfront h.1), fun h => h.2 (hback h.1)⟩,
      by omega, _, ⟨by omega, rfl⟩, rfl⟩

theorem sliceRows_one_ok :
    t.sliceRows row (row + 1) = .ok blob ↔
      t.Readable row (t.layout.offset (t.descriptor row) * 4 % 2 ^ 32) ∧
        t.rowBlob row (t.layout.offset (t.descriptor row) * 4 % 2 ^ 32) = blob := by
  have hdescriptor : integer ((t.source.drop (64 + row * 8)).take 8) 0 8 = t.descriptor row :=
    integer_slice _ (by omega)
  obtain ⟨-, -, hpacked, -⟩ := row_ranges hlength hrow
  obtain ⟨hbytes, hwords, -⟩ := hsane.words (t.descriptor row)
  have hoffset := t.layout.offset_lt (t.descriptor row)
  have hlt := hsane.packed_lt
  have hfour := Nat.mul_comm 4 (t.layout.wordsOf (t.descriptor row))
  have hsub := sub32_add hoffset (n := t.layout.wordsOf (t.descriptor row)) (by omega)
  unfold TqRows.sliceRows
  dsimp only
  rw [guard_eq_ok, Nat.add_sub_cancel_left, Nat.one_mul, readRecord_ok hlength hrow]
  change _ ∧ (rebaseRows _ _ _ [integer _ (0 * 8) 8] >>= _) = _ ↔ _
  rw [Nat.zero_mul, hdescriptor]
  simp only [bind_eq_ok, rebaseRows_one]
  constructor
  · rintro ⟨-, _, ⟨hvalid, rfl⟩, h⟩
    rw [guard_eq_ok, hsub] at h
    obtain ⟨hrange, h⟩ := h
    obtain ⟨scales, hscales, h⟩ := bind_eq_ok.mp h
    obtain ⟨words, hwords', h⟩ := bind_eq_ok.mp h
    obtain rfl := Except.ok.inj ((readScales_ok hlength hrow).symm.trans hscales)
    obtain ⟨hfits, rfl⟩ := readRange_eq_ok.mp hwords'
    rw [not_or, not_or, not_or] at hrange
    obtain ⟨hfirst, hlast, hfront, hback⟩ := hrange
    refine ⟨⟨hvalid, by omega, fun h => by_contra fun hne => hfront ⟨h, hne⟩, fun h => ?_⟩, ?_⟩
    · have hend := not_and.mp hback h
      omega
    · rw [← pure_eq_ok.mp h, TqRows.rowBlob, hfour, List.flatMap_singleton]
  · rintro ⟨⟨hvalid, hfits, hfront, hback⟩, rfl⟩
    refine ⟨by omega, _, ⟨hvalid, rfl⟩, ?_⟩
    rw [guard_eq_ok, hsub]
    refine ⟨?_, bind_eq_ok.mpr ⟨_, readScales_ok hlength hrow, ?_⟩⟩
    · rintro (hfirst | hlast | ⟨h, hne⟩ | ⟨h, hne⟩)
      · omega
      · omega
      · exact hne (hfront h)
      · have hend := hback h
        omega
    · refine bind_eq_ok.mpr ⟨_, readRange_ok (by omega), ?_⟩
      rw [TqRows.rowBlob, hfour, List.flatMap_singleton]
      rfl

end Row

/-! ### The two readers -/

/-- A row that only `slice_rows` reads: its words lie past the first 2^30 words of the payload, and
their place modulo 2^32 bytes is inside of it. -/
structure TqRows.Wraps (t : TqRows) (row : Nat) : Prop where
  within : row < t.layout.rows
  far : 2 ^ 30 ≤ t.layout.offset (t.descriptor row)
  readable : t.Readable row (t.layout.offset (t.descriptor row) * 4 % 2 ^ 32)

/-- The readers of one row agree on it exactly when its offset does not wrap into the payload. -/
theorem sliceRows_agrees_iff {source : List UInt8} {t : TqRows} (ht : TqRows.make source = .ok t)
    (row capacity : Nat) (hcapacity : t.rowBytes (t.descriptor row) ≤ capacity) :
    (∀ blob, t.sliceRows row (row + 1) = .ok blob ↔ t.sliceRowInto row capacity = .ok blob) ↔
      ¬t.Wraps row := by
  obtain ⟨rfl, -, hsane, hlength⟩ := make_ok ht
  by_cases hrow : row < t.layout.rows
  · have hpacked := hsane.packed_lt
    constructor
    · rintro hagree ⟨-, hfar, hreadable⟩
      have hread := (hagree _).mp ((sliceRows_one_ok hsane hlength hrow).mpr ⟨hreadable, rfl⟩)
      have hfits := ((sliceRowInto_ok hsane hlength hrow hcapacity).mp hread).1.fits
      omega
    · intro hwraps blob
      rw [sliceRows_one_ok hsane hlength hrow, sliceRowInto_ok hsane hlength hrow hcapacity]
      by_cases hfar : t.layout.offset (t.descriptor row) < 2 ^ 30
      · rw [Nat.mod_eq_of_lt (by omega)]
      · constructor
        · rintro ⟨hreadable, -⟩
          exact absurd ⟨hrow, Nat.le_of_not_lt hfar, hreadable⟩ hwraps
        · rintro ⟨hreadable, -⟩
          have hfits := hreadable.fits
          omega
  · constructor
    · intro _ hwraps
      exact hrow hwraps.within
    · intro _ blob
      have hone : t.sliceRows row (row + 1) ≠ .ok blob := by
        unfold TqRows.sliceRows
        dsimp only
        rw [if_pos (Or.inr (by omega))]
        exact nofun
      have hinto : t.sliceRowInto row capacity ≠ .ok blob := by
        unfold TqRows.sliceRowInto
        dsimp only
        rw [if_pos (by omega)]
        exact nofun
      exact iff_of_false hone hinto

/-- Two rows of 256 columns at one bit; the second one has its words 2^30 words too far. -/
def wrappedTensor : List UInt8 :=
  magic05 ++ [5, 2, 256, 0, 256, 64].flatMap (littleEndian 4) ++ List.replicate 32 0
    ++ [0, 2 ^ 30 + 8].flatMap (littleEndian 8) ++ [0x21] ++ List.replicate 64 0xa5

/-- Its reader. -/
def wrappedRows : TqRows where
  source := wrappedTensor
  header := wrappedTensor.take 64
  layout := { rows := 2, width := 256, gs := 256, packedBytes := 64, columns := false,
              compact := false }

theorem sliceRows_agrees_iff_sample : TqRows.make wrappedTensor = .ok wrappedRows ∧
    ((∀ blob, wrappedRows.sliceRows 0 1 = .ok blob ↔ wrappedRows.sliceRowInto 0 200 = .ok blob) ↔
      ¬wrappedRows.Wraps 0) :=
  have hmake : TqRows.make wrappedTensor = .ok wrappedRows := by decide +kernel
  ⟨hmake, sliceRows_agrees_iff hmake 0 200 (by decide +kernel)⟩

theorem sliceRows_reads_wrapped_row : TqRows.make wrappedTensor = .ok wrappedRows ∧
    wrappedRows.rowBytes (wrappedRows.descriptor 1) ≤ 200 ∧
    (∃ blob, wrappedRows.sliceRows 1 2 = .ok blob) ∧
    wrappedRows.sliceRowInto 1 200
      = .error (.invalidArgument "invalid TQ row descriptor or payload range") := by
  refine ⟨by decide +kernel, by decide +kernel, ⟨wrappedRows.rowBlob 1 32, ?_⟩, by decide +kernel⟩
  decide +kernel

end TyloQuant.Tq
