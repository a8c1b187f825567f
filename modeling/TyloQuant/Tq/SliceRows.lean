import TyloQuant.Tq.ReadRows
import TyloQuant.Tq.SingleRow

/-!
# Ranges of rows in the runtime

The runtime's `slice_rows` writes the bytes of the tensor that the other reader makes, when it
accepts the descriptors: it refuses a negative zero as an anchor.
-/

namespace TyloQuant.Tq

open Lib Bytes ByteFile Bits List

theorem overwrite_part (a b c b' : List UInt8) (h : b'.length = b.length) {pos : Nat}
    (hpos : a.length = pos) : overwrite (a ++ b ++ c) pos b' = a ++ b' ++ c := by
  subst hpos
  have htruncate : truncate (a ++ b ++ c) a.length = a := by
    rw [truncate, List.append_assoc, take_left, length_append, length_append,
      show a.length - (a.length + (b.length + c.length)) = 0 by omega, replicate_zero,
      List.append_nil]
  have hdrop : (a ++ b ++ c).drop (a.length + b'.length) = c := by
    rw [h, ← length_append, drop_left]
  rw [overwrite, htruncate, hdrop]

theorem overwrite_field (a c : List UInt8) (old : Nat) {x pos : Nat} (hpos : a.length = pos) :
    overwrite (a ++ (littleEndian 4 old ++ c)) pos (littleEndian 4 x) =
      a ++ (littleEndian 4 x ++ c) := by
  have hpart := overwrite_part a (littleEndian 4 old) c (littleEndian 4 x) (by simp) hpos
  simpa only [List.append_assoc] using hpart

/-- A header. -/
def headOf (magic : List UInt8) (version rows width columns gs packed : Nat) : List UInt8 :=
  magic ++ (littleEndian 4 version ++ (littleEndian 4 rows ++ (littleEndian 4 width
    ++ (littleEndian 4 columns ++ (littleEndian 4 gs ++ (littleEndian 4 packed
    ++ List.replicate 32 0))))))

section Header

variable {magic magic' : List UInt8} (hmagic : magic.length = 8)
  (version rows width columns gs packed x : Nat)

include hmagic

theorem overwrite_magic (hmagic' : magic'.length = 8) :
    overwrite (headOf magic version rows width columns gs packed) 0 magic'
      = headOf magic' version rows width columns gs packed :=
  overwrite_part [] magic _ magic' (hmagic'.trans hmagic.symm) rfl

theorem overwrite_version : overwrite (headOf magic version rows width columns gs packed) 8
    (littleEndian 4 x) = headOf magic x rows width columns gs packed := by
  rw [headOf, overwrite_field _ _ _ hmagic, headOf]

theorem overwrite_rows : overwrite (headOf magic version rows width columns gs packed) 12
    (littleEndian 4 x) = headOf magic version x width columns gs packed := by
  rw [headOf, headOf, ← List.append_assoc, overwrite_field _ _ _ (by simp [hmagic])]
  simp only [List.append_assoc]

theorem overwrite_width : overwrite (headOf magic version rows width columns gs packed) 16
    (littleEndian 4 x) = headOf magic version rows x columns gs packed := by
  rw [headOf, headOf, ← List.append_assoc, ← List.append_assoc,
    overwrite_field _ _ _ (by simp [hmagic])]
  simp only [List.append_assoc]

theorem overwrite_gs : overwrite (headOf magic version rows width columns gs packed) 24
    (littleEndian 4 x) = headOf magic version rows width columns x packed := by
  rw [headOf, headOf, ← List.append_assoc, ← List.append_assoc, ← List.append_assoc,
    ← List.append_assoc, overwrite_field _ _ _ (by simp [hmagic])]
  simp only [List.append_assoc]

theorem overwrite_packed : overwrite (headOf magic version rows width columns gs packed) 28
    (littleEndian 4 x) = headOf magic version rows width columns gs x := by
  rw [headOf, headOf, ← List.append_assoc, ← List.append_assoc, ← List.append_assoc,
    ← List.append_assoc, ← List.append_assoc, overwrite_field _ _ _ (by simp [hmagic])]
  simp only [List.append_assoc]

end Header

variable {value : Nat → Nat}

theorem filled_selectors (hvalue : ∀ i, value i < 16) {bytes n : Nat} (hn : n ≤ bytes * 2) :
    Filled (fun _ => 0) ((List.range n).foldl (fun scales i =>
      orByte scales (i / 2) (UInt8.ofNat (value i <<< ((i &&& 1) * 4)))) fun _ => 0) bytes 4 n value := by
  induction n with
  | zero =>
    have hzeros := filled_zeros (fun _ => 0) bytes 4 value
    have hput : put (fun _ => 0) 0 bytes (fun _ => 0) = fun _ => 0 := by
      funext i
      unfold put
      split <;> rfl
    rwa [hput] at hzeros
  | succ n ih =>
    rw [range_succ, foldl_append]
    refine (ih (by omega)).set (by omega) (hvalue n) fun i => ?_
    have hfield := bit_orByte_field ((List.range n).foldl (fun scales i =>
      orByte scales (i / 2) (UInt8.ofNat (value i <<< ((i &&& 1) * 4)))) fun _ => 0)
      (p := 4 * n) (w := 4) (by omega) (hvalue n) i
    rw [show 4 * n / 8 = n / 2 by omega, show 4 * n % 8 = n % 2 * 4 by omega] at hfield
    rw [← hfield, ← Nat.and_one_is_mod]
    rfl

theorem testBit_packed {a b : Nat} (ha : a < 16) {high : Prop} [Decidable high]
    {j : Nat} (hj : j < 8) :
    (UInt8.ofNat a ||| if high then UInt8.ofNat (b <<< 4) else 0).toNat.testBit j
      = if j < 4 then a.testBit j else decide high && b.testBit (j - 4) := by
  have hclear (x : Nat) (hx : x < 16) (hj4 : 4 ≤ j) : x.testBit j = false := by
    have hpow : 2 ^ 4 ≤ 2 ^ j := Nat.pow_le_pow_right (by omega) hj4
    exact Nat.testBit_lt_two_pow (by omega)
  rw [UInt8.toNat_or, Nat.testBit_or, testBit_ofNat]
  by_cases hhigh : high
  · rw [if_pos hhigh, testBit_ofNat, Nat.testBit_shiftLeft]
    by_cases hlow : j < 4
    · simp [hj, hlow, show ¬4 ≤ j by omega]
    · simp [hj, hlow, hhigh, hclear a ha (by omega), show 4 ≤ j by omega]
  · rw [if_neg hhigh]
    by_cases hlow : j < 4
    · simp [hj, hlow]
    · simp [hj, hlow, hhigh, hclear a ha (by omega)]

theorem filled_packSelectors (hvalue : ∀ i, value i < 16) (count : Nat) :
    (List.range ((count + 1) / 2)).map ((List.range count).foldl (fun scales i =>
        orByte scales (i / 2) (UInt8.ofNat (value i <<< ((i &&& 1) * 4)))) fun _ => 0)
      = packSelectors ((List.range count).map value) := by
  have hfilled := filled_selectors hvalue (show count ≤ (count + 1) / 2 * 2 by omega)
  unfold packSelectors
  rw [length_map, List.length_range]
  apply map_congr_left
  intro m hm
  have hm' := mem_range.mp hm
  apply toNat_eq_of_bits
  intro j hj
  have hbit := hfilled.bits (8 * m + j) (by omega)
  unfold bit at hbit
  rw [show (8 * m + j) / 8 = m by omega, show (8 * m + j) % 8 = j by omega] at hbit
  have hlow : ((List.range count).map value).getD (2 * m) 0 = value (2 * m) :=
    TQTensor.getD_map_range _ _ (by omega)
  rw [hbit, hlow, testBit_packed (hvalue _) hj]
  by_cases hj4 : j < 4
  · rw [if_pos hj4, show (8 * m + j) / 4 = 2 * m by omega, show (8 * m + j) % 4 = j by omega,
      decide_eq_true (show 8 * m + j < 4 * count by omega), Bool.true_and]
  · rw [if_neg hj4, show (8 * m + j) / 4 = 2 * m + 1 by omega,
      show (8 * m + j) % 4 = j - 4 by omega]
    by_cases hhigh : m < count / 2
    · have hget : ((List.range count).map value).getD (2 * m + 1) 0 = value (2 * m + 1) :=
        TQTensor.getD_map_range _ _ (by omega)
      rw [hget, decide_eq_true (show 8 * m + j < 4 * count by omega), decide_eq_true hhigh]
    · rw [decide_eq_false (show ¬8 * m + j < 4 * count by omega), decide_eq_false hhigh,
        Bool.false_and, Bool.false_and]

/-- Selectors that are repacked are the packed selectors. -/
theorem repackSelectors_eq (source : List UInt8) (first count : Nat) :
    repackSelectors source first count = packSelectors ((List.range count).map fun i =>
      selectorAt source (i + (first &&& 1))) :=
  filled_packSelectors (fun _ => selectorAt_lt _ _) count

namespace TQTensor

variable (t : TQTensor)

/-- What the runtime reads of the header. -/
def layout : TqLayout where
  rows := t.rows
  width := t.width
  gs := t.gs.toNat
  packedBytes := t.packed.length
  columns := t.columns
  compact := t.compact

def runtimeRows : TqRows where
  source := t.payload
  header := t.head
  layout := t.layout

@[simp] theorem source_runtimeRows : t.runtimeRows.source = t.payload := rfl

@[simp] theorem layout_runtimeRows : t.runtimeRows.layout = t.layout := rfl

@[simp] theorem rows_layout : t.layout.rows = t.rows := rfl

@[simp] theorem packedBytes_layout : t.layout.packedBytes = t.packed.length := rfl

theorem packed_layout : t.layout.packed = 64 + t.rows * 8 + t.scaleBytes.length :=
  t.packedOffset_reader

theorem take_head : t.payload.take 64 = t.head := by
  rw [payload, front, List.append_assoc, List.append_assoc]
  exact take_left' t.length_head

theorem groups_layout : t.layout.groups = t.groups := rfl

theorem scaleBytes_layout : t.layout.scaleBytes = t.scaleBytes.length := t.scaleBytes_reader

theorem bytes_layout : t.layout.bytes = t.payload.length := by
  rw [TqLayout.bytes, TqLayout.packed, scaleBytes_layout, t.length_payload]
  rfl

theorem make_runtimeRows (hfits : t.Fits) : TqRows.make t.payload = .ok t.runtimeRows := by
  have hlength := t.length_payload
  obtain ⟨hversion, hrows, hwidth, hcolumns, hgs, hpacked⟩ := t.header_take hfits
  obtain ⟨hpos, hcompact, hwhole, hgroups⟩ := t.geometry_payload
  have hmagic := t.take_magic
  have hreserved := t.reserved_take
  have hcolumns01 : t.columns.toNat ≤ 1 := Bool.toNat_le _
  have hparse : parseLayout t.head t.payload.length = .ok t.layout := by
    rw [take_head] at hversion hrows hwidth hcolumns hgs hpacked hmagic hreserved
    unfold parseLayout
    simp only [hversion, hrows, hwidth, hcolumns, hgs, hpacked, hmagic, hreserved,
      t.decide_columns, t.decide_magic]
    rw [guard_eq_ok, guard_eq_ok, guard_eq_ok, guard_eq_ok, guard_eq_ok]
    refine ⟨by omega, ?_, ?_, by simp, ?_, rfl⟩
    · rw [t.magic_iff]
      rintro (⟨hc, hmagic | hversion⟩ | h)
      · exact hmagic (t.magic_old (Bool.eq_false_of_not_eq_true hc)).1
      · exact hversion (t.magic_old (Bool.eq_false_of_not_eq_true hc)).2
      · omega
    · rintro (h | h | h | h | ⟨hc, h⟩)
      · exact hpos (Or.inl h)
      · exact hpos (Or.inr (Or.inl h))
      · exact hpos (Or.inr (Or.inr h))
      · by_cases hc : t.compact = true
        · rw [if_pos hc] at h
          obtain ⟨hshort, hne⟩ := hcompact hc
          rcases h with h | h
          · exact h hshort
          · exact hne h
        · rw [if_neg hc] at h
          exact h (hwhole (Bool.eq_false_of_not_eq_true hc))
      · obtain ⟨hge, hle, hpow⟩ := hgroups (Bool.eq_false_of_not_eq_true hc)
        rw [show 1 <<< 20 = 2 ^ 20 from rfl] at h
        rcases h with h | h | h
        · omega
        · omega
        · exact h hpow
    · have hbytes := t.bytes_layout
      exact fun hne => hne hbytes.symm
  unfold TqRows.make
  rw [if_neg (by omega)]
  refine (bind_of_ok (readRange_ok (by omega)) _).trans ?_
  rw [drop_zero, take_head]
  refine (bind_of_ok hparse _).trans ?_
  rfl

/-! ### Descriptors -/

variable {t}

theorem offset_layout (t : TQTensor) (d : UInt64) : t.layout.offset d.toNat = t.offset d := by
  unfold TqLayout.offset TqLayout.offsetMask Components.offset
  have hmask : (if t.compact = true then 0x7ffffffe else 0xffffffff) < 2 ^ 32 := by
    split <;> omega
  change d.toNat % 2 ^ 32 &&& (if t.compact = true then 0x7ffffffe else 0xffffffff) = _
  apply Nat.eq_of_testBit_eq
  intro i
  rw [Nat.testBit_and, Nat.testBit_and, Nat.testBit_mod_two_pow]
  by_cases hi : i < 32
  · simp [hi]
  · have hpow : 2 ^ 32 ≤ 2 ^ i := Nat.pow_le_pow_right (by omega) (by omega)
    have hclear : (if t.compact = true then 0x7ffffffe else 0xffffffff).testBit i = false :=
      Nat.testBit_lt_two_pow (by omega)
    simp [hclear]

theorem offsetMask_layout (t : TQTensor) : t.layout.offsetMask = t.offsetMask.toNat := by
  unfold TqLayout.offsetMask Components.offsetMask layout
  dsimp only
  split <;> rfl

/-- The runtime refuses an anchor that is a negative zero; it accepts all other anchors. -/
theorem validDescriptor_layout {d : UInt64} (hd : d ∈ t.descriptors)
    (hzero : anchorOf d.toNat ≠ 0x8000) : t.layout.validDescriptor d.toNat = true := by
  obtain ⟨hfinite, hnegative⟩ := t.sound.anchors d hd
  have hanchor : d.toNat >>> 40 &&& 0xffff = anchorOf d.toNat := Nat.and_two_pow_sub_one_eq_mod _ 16
  have hlt : anchorOf d.toNat < 2 ^ 16 := Nat.mod_lt _ (by omega)
  have hexponent : anchorOf d.toNat >>> 10 &&& 31 = anchorOf d.toNat / 1024 % 32 := by
    rw [Nat.shiftRight_eq_div_pow]
    exact Nat.and_two_pow_sub_one_eq_mod _ 5
  have hfinite' : anchorOf d.toNat / 1024 % 32 ≠ 31 := by
    rw [← hexponent]
    exact of_decide_eq_true hfinite
  have hnegative' : ¬0x8000 < anchorOf d.toNat := of_decide_eq_false hnegative
  unfold TqLayout.validDescriptor
  rw [hanchor, if_neg (by omega)]
  by_cases hcompact : t.compact = true
  · have heven := t.sound.even hcompact d hd
    have hseed := t.sound.seeds hcompact d hd
    rw [if_neg (by simp [layout, hcompact]), Bool.and_eq_true, decide_eq_true_iff,
      decide_eq_true_iff, Nat.and_one_is_mod]
    exact ⟨heven, hseed⟩
  · have hreserved := t.sound.reserved (Bool.eq_false_of_not_eq_true hcompact) d hd
    rw [if_pos (by simp [layout, hcompact]), decide_eq_true_iff]
    exact hreserved

theorem rebase_layout {off : Nat} (h : t.Places off) (d : UInt64) :
    t.layout.rebase d.toNat off = .ok (t.place d off).toNat := by
  have hinside : off &&& complement t.layout.offsetMask = 0 := by
    apply Nat.eq_of_testBit_eq
    intro i
    rw [offsetMask_layout, Nat.testBit_and, testBit_complement, Components.testBit_offsetMask,
      Nat.zero_testBit]
    by_cases hbit : off.testBit i = true
    · have hoffset := h.offsetBit hbit
      have hi : i < 64 := by
        unfold Components.OffsetBit at hoffset
        split at hoffset <;> omega
      simp [hoffset, hi]
    · simp [hbit]
  unfold TqLayout.rebase
  rw [if_neg (not_not_intro hinside), Components.place, UInt64.toNat_or, UInt64.toNat_and,
    Components.toNat_not_offsetMask, UInt64.toNat_ofNat_of_lt' h.lt, offsetMask_layout]

section Range

variable {begin_ n : Nat} (hfits : t.Fits)
  (hzero : ∀ row, begin_ ≤ row → row < begin_ + n → anchorOf (t.descriptor row).toNat ≠ 0x8000)

variable {i : Nat}

theorem places_range (hend : begin_ + n ≤ t.rows) (hi : i < n) :
    t.Places (t.start (begin_ + i) - t.start begin_) := by
  have hlength : (t.rowWords (List.range' begin_ n)).length = n := by simp [Components.rowWords]
  have hcumulative := getD_cumulative 0
    (hlength.symm ▸ hi : i < (t.rowWords (List.range' begin_ n)).length)
  rw [Nat.zero_add, sum_rowWords_range hend (by omega)] at hcumulative
  rw [← hcumulative]
  apply Components.places_select t.sound (range_lt hend) (room_range hend)
  rw [getD_eq_getElem _ _ (by rw [length_cumulative, hlength]; exact hi)]
  exact getElem_mem _

include hfits

theorem start_lt {row : Nat} (hrow : row ≤ t.rows) : t.start row < 2 ^ 30 := by
  have hle : t.start row ≤ t.start t.rows := Components.start_mono hrow
  have htotal := t.sound.total
  have hpacked := hfits.packed
  rw [t.sound.start_rows] at hle
  omega

include hzero

theorem rebaseRows_range (hend : begin_ + n ≤ t.rows) {k : Nat} (hk : i + k = n) :
    rebaseRows t.layout (t.start begin_) (t.start (begin_ + i))
        ((List.range' (begin_ + i) k).map fun row => (t.descriptor row).toNat)
      = .ok ((List.range' (begin_ + i) k).map (fun row =>
          (t.place (t.descriptor row) (t.start row - t.start begin_)).toNat),
        t.start (begin_ + n)) := by
  induction k generalizing i with
  | zero =>
    rw [show i = n by omega]
    rfl
  | succ k ih =>
    have hrow : begin_ + i < t.rows := by omega
    have hmem := t.sound.descriptor_mem hrow
    have hvalid := validDescriptor_layout hmem (hzero _ (by omega) (by omega))
    have hoffset := t.sound.offset_eq hrow
    have hsucc := t.sound.start_succ hrow
    have hnext := start_lt hfits (show begin_ + i + 1 ≤ t.rows by omega)
    have hmono : t.start begin_ ≤ t.start (begin_ + i) := Components.start_mono (by omega)
    have hsub : sub32 (t.start (begin_ + i)) (t.start begin_)
        = t.start (begin_ + i) - t.start begin_ := by
      unfold sub32
      omega
    have hwords : (t.start (begin_ + i) +
        t.layout.width * bitsOf (t.descriptor (begin_ + i)).toNat / 32)
        % 2 ^ 32 = t.start (begin_ + (i + 1)) := by
      change (t.start (begin_ + i) + t.words (t.descriptor (begin_ + i))) % 2 ^ 32 = _
      rw [← hsucc, Nat.mod_eq_of_lt (by omega)]
      rfl
    rw [range'_succ, map_cons, map_cons, rebaseRows, offset_layout, hoffset,
      if_neg (by simp [hvalid]), hsub, hwords,
      bind_of_ok (rebase_layout (places_range hend (show i < n by omega)) _)]
    refine (bind_of_ok (ih (by omega)) _).trans ?_
    rfl

omit hfits hzero

theorem head_eq (t : TQTensor) : t.head = headOf t.magic (if t.compact then 6 else 5) t.rows t.width
    t.columns.toNat t.gs.toNat t.packed.length := by
  simp [head, fields, headOf]

theorem headerFor_runtime (t : TQTensor) (rows packed : Nat) : t.runtimeRows.headerFor rows packed
    = headOf t.magic (if t.compact then 6 else 5) rows t.width t.columns.toNat t.gs.toNat packed := by
  unfold TqRows.headerFor runtimeRows
  dsimp only
  rw [head_eq, overwrite_rows t.length_magic, overwrite_packed t.length_magic]

variable {u : TQTensor}

theorem headerFor_select {ids : List Nat} (hu : u.toComponents = t.select ids) :
    t.runtimeRows.headerFor u.rows u.packed.length = u.head := by
  have hwidth : u.width = t.width := by
    rw [hu]
    rfl
  have hgs : u.gs = t.gs := by
    rw [hu]
    rfl
  have hcolumns : u.columns = t.columns := by rw [hu, Components.columns_select]
  have hcompact : u.compact = t.compact := by rw [Components.compact, Components.compact, hwidth]
  have hmagic : u.magic = t.magic := by rw [magic, magic, hcompact]
  rw [headerFor_runtime, head_eq, hwidth, hgs, hcolumns, hcompact, hmagic]

theorem readScales_runtime (hend : begin_ + n ≤ t.rows)
    (hu : u.toComponents = t.select (List.range' begin_ n)) :
    t.runtimeRows.readScales begin_ n = .ok u.scaleBytes := by
  have hlength := t.length_payload
  have hplace : t.layout.scales = 64 + t.rows * 8 := rfl
  unfold TqRows.readScales
  dsimp only
  cases hscales : t.scales with
  | columns scales =>
    have hcolumns := Components.columns_eq_true hscales
    have hu' : u.scaleBytes = t.scaleBytes := by
      rw [scaleBytes, scaleBytes, hu, Components.scales_select_columns hscales, hscales]
    rw [if_pos (show t.runtimeRows.layout.columns = true from hcolumns), hu']
    change readRange t.payload t.layout.scales t.layout.scaleBytes = _
    rw [hplace, scaleBytes_layout, readRange_ok (by omega), t.scales_payload]
  | selectors scales =>
    have hcolumns := Components.columns_eq_false hscales
    have hbytes : t.scaleBytes = scales := by rw [scaleBytes, hscales]
    have hcount := t.sound.selectorCount hscales
    have hmul : (begin_ + n) * t.groups ≤ t.rows * t.groups := Nat.mul_le_mul_right _ hend
    rw [Nat.add_mul] at hmul
    have hu' : u.scaleBytes = packSelectors ((List.range (n * t.groups)).map fun i =>
        selectorAt scales (begin_ * t.groups + i)) := by
      rw [scaleBytes, hu, Components.scales_select_selectors hscales, selectors_range hscales]
    rw [if_neg (by simp [runtimeRows, layout, hcolumns]), hu']
    change (readRange t.payload (t.layout.scales + begin_ * t.groups / 2)
      ((begin_ * t.groups + n * t.groups + 1) / 2 - begin_ * t.groups / 2) >>= fun source =>
        pure (repackSelectors source (begin_ * t.groups) (n * t.groups))) = _
    rw [hplace, bind_of_ok (readRange_ok (by rw [hlength, hbytes]; omega)),
      t.slice_scales (by rw [hbytes]; omega), hbytes, repackSelectors_eq]
    refine congrArg (fun l => Except.ok (packSelectors l)) ?_
    exact map_congr_left fun i hi => selectorAt_slice scales (mem_range.mp hi)

include hfits hzero

/-- **The runtime's `slice_rows` writes the bytes of the selection of a range of rows.** -/
theorem sliceRows_runtime (hpos : 0 < n) (hend : begin_ + n ≤ t.rows)
    (hu : u.toComponents = t.select (List.range' begin_ n)) :
    t.runtimeRows.sliceRows begin_ (begin_ + n) = .ok u.payload := by
  have hlength := t.length_payload
  have hfirst := start_lt hfits (show begin_ ≤ t.rows by omega)
  have hlast := start_lt hfits (show begin_ + n ≤ t.rows by omega)
  have hmono : t.start begin_ ≤ t.start (begin_ + n) := Components.start_mono (by omega)
  have htotal : t.start (begin_ + n) * 4 ≤ t.packed.length := by
    have hle : t.start (begin_ + n) ≤ t.start t.rows := Components.start_mono hend
    have hsum := t.sound.total
    rw [t.sound.start_rows] at hle
    omega
  have hrecords : (List.range n).map (fun row => integer
      ((t.payload.drop (64 + begin_ * 8)).take (n * 8)) (row * 8) 8)
      = (List.range' begin_ n).map fun row => (t.descriptor row).toNat := by
    rw [range'_eq_map_range, map_map]
    apply map_congr_left
    intro i hi
    have hlt := mem_range.mp hi
    rw [integer_slice _ (by omega), show 64 + begin_ * 8 + i * 8 = 64 + 8 * (begin_ + i) by omega,
      t.descriptor_payload (by omega)]
    rfl
  have hoffset : t.layout.offset (integer ((t.payload.drop (64 + begin_ * 8)).take (n * 8)) 0 8)
      = t.start begin_ := by
    rw [integer_slice _ (by omega), show 64 + begin_ * 8 + 0 = 64 + 8 * begin_ by omega,
      t.descriptor_payload (by omega), offset_layout, t.sound.offset_eq (by omega)]
  have hrebase := rebaseRows_range hfits hzero hend (show 0 + n = n by omega)
  rw [Nat.add_zero] at hrebase
  have hsub : sub32 (t.start (begin_ + n)) (t.start begin_)
      = t.start (begin_ + n) - t.start begin_ := by
    unfold sub32
    omega
  have hpacked : u.packed = (t.packed.drop (t.start begin_ * 4)).take
      ((t.start (begin_ + n) - t.start begin_) * 4) := by
    rw [hu, ← packed_range hend]
    rfl
  have hpacked_length : u.packed.length = (t.start (begin_ + n) - t.start begin_) * 4 := by
    rw [hpacked, length_take, length_drop]
    omega
  have hrows : u.rows = n := by
    rw [hu]
    exact length_range'
  have hheader : t.runtimeRows.headerFor n ((t.start (begin_ + n) - t.start begin_) * 4) = u.head := by
    rw [← headerFor_select hu, hrows, hpacked_length]
  unfold TqRows.sliceRows
  dsimp only
  simp only [source_runtimeRows, layout_runtimeRows, rows_layout, packedBytes_layout,
    Nat.add_sub_cancel_left]
  rw [if_neg (by omega), bind_of_ok (readRange_ok (by omega)), hoffset, hrecords,
    bind_of_ok hrebase]
  dsimp only
  rw [if_neg ?_, bind_of_ok (readScales_runtime hend hu), hsub, Nat.mod_eq_of_lt (by omega),
    packed_layout, bind_of_ok (readRange_ok (by omega)), t.slice_packed, hheader, ← hpacked]
  · have hdescriptors : u.descriptors.flatMap (fun d => littleEndian 8 d.toNat)
        = ((List.range' begin_ n).map fun row =>
          (t.place (t.descriptor row) (t.start row - t.start begin_)).toNat).flatMap
            (littleEndian 8) := by
      rw [hu, descriptors_select_range hend, flatMap_map, flatMap_map]
    rw [payload, front, hdescriptors]
    rfl
  · rintro (h | h | ⟨h, hne⟩ | ⟨h, hne⟩)
    · omega
    · omega
    · subst h
      exact hne rfl
    · apply hne
      have hsum := t.sound.total
      rw [h, t.sound.start_rows, hsum]
      exact Nat.mod_eq_of_lt hfits.packed

end Range

end TQTensor

end TyloQuant.Tq
