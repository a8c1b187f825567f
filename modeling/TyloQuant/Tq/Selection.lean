import Mathlib.Algebra.BigOperators.Ring.List
import TyloQuant.Tq.Descriptors
import TyloQuant.Tq.Reader
import TyloQuant.Tq.States

/-!
# Selected rows of a tensor

What a reader of rows is for: the tensor whose rows are some rows of another one, in any order and
any number of times.  It passes the checks when its words have room, and each of its rows is the
row that it was taken from.
-/

namespace TyloQuant.Tq

open Lib Bytes ByteFile Bits List

/-! ### Parts of one list after the other -/

variable {i n : Nat}

theorem getD_flatMap_const {α β : Type} {f : α → List β} (hf : ∀ a, (f a).length = n)
    (xs : List α) (a : α) (b : β) {j : Nat} (hi : i < xs.length) (hj : j < n) :
    (xs.flatMap f).getD (i * n + j) b = (f (xs.getD i a)).getD j b := by
  induction xs generalizing i with
  | nil => simp at hi
  | cons x xs ih =>
    rw [flatMap_cons]
    cases i with
    | zero =>
      rw [Nat.zero_mul, Nat.zero_add, getD_append _ _ _ _ (by rw [hf]; exact hj)]
      rfl
    | succ i =>
      have hplace : (i + 1) * n + j - n = i * n + j := by
        rw [Nat.succ_mul]
        omega
      rw [getD_append_right _ _ _ _ (by rw [hf, Nat.succ_mul]; omega), hf, hplace,
        ih (by simpa using hi), getD_cons_succ]

theorem drop_flatMap_const {α β : Type} {f : α → List β} (hf : ∀ a, (f a).length = n)
    (xs : List α) (k : Nat) : (xs.flatMap f).drop (k * n) = (xs.drop k).flatMap f := by
  induction k generalizing xs with
  | zero => rw [Nat.zero_mul, drop_zero, drop_zero]
  | succ k ih =>
    cases xs with
    | nil => simp
    | cons x xs =>
      rw [flatMap_cons, drop_succ_cons, ← ih xs, Nat.succ_mul, Nat.add_comm,
        ← drop_drop, drop_left' (hf x)]

theorem take_flatMap_const {α β : Type} {f : α → List β} (hf : ∀ a, (f a).length = n)
    (xs : List α) (k : Nat) : (xs.flatMap f).take (k * n) = (xs.take k).flatMap f := by
  induction k generalizing xs with
  | zero => rw [Nat.zero_mul, take_zero, take_zero, flatMap_nil]
  | succ k ih =>
    cases xs with
    | nil => simp
    | cons x xs =>
      rw [flatMap_cons, take_succ_cons, flatMap_cons, ← ih xs, Nat.succ_mul,
        Nat.add_comm, ← hf x, take_length_add_append]

theorem mem_cumulative {start off : Nat} {ls : List Nat} (h : off ∈ cumulative start ls) :
    ∃ i < ls.length, off = start + (ls.take i).sum := by
  obtain ⟨i, hi, rfl⟩ := getElem_of_mem h
  rw [length_cumulative] at hi
  refine ⟨i, hi, ?_⟩
  rw [← getD_cumulative start hi, getD_eq_getElem]

/-! ### Selectors -/

theorem selectorAt_lt (source : List UInt8) (i : Nat) : selectorAt source i < 16 :=
  lt_of_le_of_lt Nat.and_le_right (by omega)

theorem toNat_selectors {a b : Nat} (ha : a < 16) (hb : b < 16) :
    (UInt8.ofNat a ||| UInt8.ofNat (b <<< 4)).toNat = b * 16 + a := by
  have hshift : b <<< 4 = b * 16 := Nat.shiftLeft_eq b 4
  have ha' : a < UInt8.size := lt_of_lt_of_le ha (by decide)
  have hb' : b <<< 4 < UInt8.size := by
    rw [hshift]
    exact lt_of_lt_of_le (Nat.mul_lt_mul_of_pos_right hb (by omega)) (by decide)
  rw [UInt8.toNat_or, UInt8.toNat_ofNat_of_lt' ha', UInt8.toNat_ofNat_of_lt' hb', Nat.or_comm,
    ← Nat.shiftLeft_add_eq_or_of_lt ha, hshift]

theorem selectorAt_packSelectors {selectors : List Nat} (h : ∀ s ∈ selectors, s < 16)
    (hi : i < selectors.length) : selectorAt (packSelectors selectors) i = selectors.getD i 0 := by
  have hlt (j : Nat) : selectors.getD j 0 < 16 := by
    by_cases hj : j < selectors.length
    · rw [getD_eq_getElem _ _ hj]
      exact h _ (getElem_mem hj)
    · rw [getD_eq_default _ _ (by omega)]
      omega
  have hlow := hlt (2 * (i / 2))
  have hhigh := hlt (2 * (i / 2) + 1)
  have hbyte : byte (packSelectors selectors) (i / 2) = UInt8.ofNat (selectors.getD (2 * (i / 2)) 0)
      ||| if i / 2 < selectors.length / 2 then
        UInt8.ofNat (selectors.getD (2 * (i / 2) + 1) 0 <<< 4) else 0 := by
    rw [packSelectors, byte, getD_eq_getElem _ _ (by simp; omega), getElem_map,
      getElem_range]
  have hmask (x : Nat) : x &&& 15 = x % 16 := Nat.and_two_pow_sub_one_eq_mod x 4
  rw [selectorAt, hbyte, hmask, Nat.and_one_is_mod]
  rcases Nat.mod_two_eq_zero_or_one i with heven | hodd
  · have hplace : 2 * (i / 2) = i := by omega
    rw [heven, hplace, Nat.zero_mul, Nat.shiftRight_zero]
    rw [hplace] at hlow
    split
    · rw [toNat_selectors hlow (hplace ▸ hhigh)]
      omega
    · have hzero : (0 : UInt8) = UInt8.ofNat (0 <<< 4) := rfl
      rw [hzero, toNat_selectors hlow (by omega)]
      omega
  · have hplace : 2 * (i / 2) + 1 = i := by omega
    rw [hodd, if_pos (by omega), Nat.one_mul, toNat_selectors hlow hhigh, Nat.shiftRight_eq_div_pow,
      hplace]
    rw [hplace] at hhigh
    omega

/-! ### Rows -/

namespace Components

variable (t : Components)

/-- The packed bytes of a row. -/
def rowSlice (row : Nat) : List UInt8 :=
  (t.packed.drop (t.start row * 4)).take (t.words (t.descriptor row) * 4)

/-- The selectors of a row. -/
def rowSelectors (row : Nat) : List Nat :=
  match t.scales with
  | .columns _ => []
  | .selectors scales => (List.range t.groups).map fun g => selectorAt scales (row * t.groups + g)

def rowWords (ids : List Nat) : List Nat := ids.map fun id => t.words (t.descriptor id)

/-- The tensor of some rows. -/
def select (ids : List Nat) : Components where
  rows := ids.length
  width := t.width
  gs := t.gs
  scales :=
    match t.scales with
    | .columns scales => .columns scales
    | .selectors _ => .selectors (packSelectors (ids.flatMap t.rowSelectors))
  descriptors :=
    List.zipWith (fun id off => t.place (t.descriptor id) off) ids (cumulative 0 (t.rowWords ids))
  packed := ids.flatMap t.rowSlice

/-- The words of some rows are not too many for a tensor. -/
def Room (ids : List Nat) : Prop :=
  if t.compact then (t.rowWords ids).sum < 2 ^ 31 else (t.rowWords ids).sum ≤ 2 ^ 32

instance (ids : List Nat) : Decidable (t.Room ids) :=
  inferInstanceAs (Decidable (if t.compact then (t.rowWords ids).sum < 2 ^ 31
    else (t.rowWords ids).sum ≤ 2 ^ 32))

/-- The scale of a column: itself, or the selector of its subgroup. -/
def scaleAt (row col : Nat) : Nat :=
  match t.scales with
  | .columns scales => (scales.getD col 0).toNat
  | .selectors scales => selectorAt scales (row * t.groups + col / t.gs.toNat)

variable {t} {ids : List Nat}

theorem Sound.words_pos (h : t.Sound) (d : UInt64) : 0 < t.words d := by
  have hbits := bitsOf_le d.toNat
  have hpos := h.width_pos
  have hmod := h.width_mod
  have hle : t.width * 1 ≤ t.width * bitsOf d.toNat := Nat.mul_le_mul_left _ hbits.1
  unfold words
  omega

theorem length_rowSlice (h : t.Sound) {row : Nat} (hrow : row < t.rows) :
    (t.rowSlice row).length = t.words (t.descriptor row) * 4 := by
  have hfits := h.row_fits hrow
  rw [rowSlice, length_take, length_drop]
  omega

theorem columns_select (ids : List Nat) : (t.select ids).columns = t.columns := by
  unfold columns select
  cases t.scales with
  | columns scales => rfl
  | selectors scales => rfl

theorem groups_select (ids : List Nat) : (t.select ids).groups = t.groups := by
  unfold groups
  rw [columns_select]
  rfl

theorem scales_select_columns {scales : List UInt16} (hscales : t.scales = .columns scales)
    (ids : List Nat) : (t.select ids).scales = .columns scales := by
  unfold select
  rw [hscales]

variable {scales : List UInt8}

theorem scales_select_selectors (hscales : t.scales = .selectors scales) (ids : List Nat) :
    (t.select ids).scales = .selectors (packSelectors (ids.flatMap t.rowSelectors)) := by
  unfold select
  rw [hscales]

theorem getD_rowWords (hi : i < ids.length) :
    (t.rowWords ids).getD i 0 = t.words (t.descriptor (ids.getD i 0)) := by
  unfold rowWords
  rw [getD_eq_getElem _ _ (by simpa using hi), getElem_map, getD_eq_getElem _ _ hi]

section Sound

variable (h : t.Sound) (hrange : ∀ id ∈ ids, id < t.rows) (hroom : t.Room ids)

include h hrange hroom

theorem places_select {off : Nat} (hoff : off ∈ cumulative 0 (t.rowWords ids)) : t.Places off := by
  obtain ⟨i, hi, rfl⟩ := mem_cumulative hoff
  have hsucc := sum_take_succ (t.rowWords ids) hi
  have hle := sum_take_le_sum (t.rowWords ids) (i + 1)
  have hpos : 0 < (t.rowWords ids).getD i 0 := by
    rw [getD_rowWords (by simpa [rowWords] using hi)]
    exact h.words_pos _
  rw [Nat.zero_add]
  unfold Room at hroom
  unfold Places
  by_cases hcompact : t.compact = true
  · rw [if_pos hcompact] at hroom ⊢
    refine ⟨by omega, sum_even fun l hl => ?_⟩
    obtain ⟨id, hid, rfl⟩ := mem_map.mp (mem_of_mem_take hl)
    exact h.even hcompact _ (h.descriptor_mem (hrange id hid))
  · rw [if_neg hcompact] at hroom ⊢
    omega

theorem map_select {α : Type} {f g : UInt64 → α}
    (hf : ∀ d off, t.Places off → f (t.place d off) = g d) :
    (t.select ids).descriptors.map f = ids.map fun id => g (t.descriptor id) := by
  apply ext_getElem
  · simp [select, length_cumulative, rowWords]
  · intro i hi hi'
    have hi'' : i < ids.length := by simpa using hi'
    have hlength : i < (cumulative 0 (t.rowWords ids)).length := by
      simpa [length_cumulative, rowWords]
    have hoff : (cumulative 0 (t.rowWords ids))[i] ∈ cumulative 0 (t.rowWords ids) :=
      getElem_mem hlength
    simp only [select, getElem_map, getElem_zipWith]
    exact hf _ _ (places_select h hrange hroom hoff)

theorem lengths_select : (t.select ids).lengths = t.rowWords ids := by
  refine map_select h hrange hroom fun d off hplaces => ?_
  unfold words
  rw [show bitsOf (t.place d off).toNat = bitsOf d.toNat from bitsOf_place hplaces]
  rfl

theorem offsets_select :
    (t.select ids).descriptors.map (t.select ids).offset = cumulative 0 (t.rowWords ids) := by
  apply ext_getElem
  · simp [select, length_cumulative, rowWords]
  · intro i hi hi'
    have hoff := getElem_mem hi'
    simp only [select, getElem_map, getElem_zipWith]
    exact offset_place (places_select h hrange hroom hoff)

theorem mem_select {d : UInt64} (hd : d ∈ (t.select ids).descriptors) :
    ∃ id off, id ∈ ids ∧ t.Places off ∧ d = t.place (t.descriptor id) off := by
  obtain ⟨i, hi, rfl⟩ := getElem_of_mem hd
  simp only [select, length_zipWith] at hi
  simp only [select, getElem_zipWith]
  exact ⟨_, _, getElem_mem _, places_select h hrange hroom (getElem_mem _), rfl⟩

omit hroom in
theorem length_packed_select : (t.select ids).packed.length = (t.rowWords ids).sum * 4 := by
  change (ids.flatMap t.rowSlice).length = _
  induction ids with
  | nil => rfl
  | cons id ids ih =>
    rw [flatMap_cons, length_append, ih fun i hi => hrange i (mem_cons_of_mem _ hi),
      length_rowSlice h (hrange id (by simp)), rowWords, rowWords, map_cons, sum_cons]
    ring

omit h hrange hroom in
theorem length_rowSelectors (hscales : t.scales = .selectors scales) (row : Nat) :
    (t.rowSelectors row).length = t.groups := by
  rw [rowSelectors, hscales]
  simp

omit h hrange hroom in
theorem length_packSelectors (selectors : List Nat) :
    (packSelectors selectors).length = (selectors.length + 1) / 2 := by
  simp [packSelectors]

omit h hrange hroom in
theorem selectorAt_select (hscales : t.scales = .selectors scales) {g : Nat} (hi : i < ids.length)
    (hg : g < t.groups) :
    selectorAt (packSelectors (ids.flatMap t.rowSelectors)) (i * t.groups + g)
      = selectorAt scales (ids.getD i 0 * t.groups + g) := by
  have hlength := length_rowSelectors hscales
  have hplace : i * t.groups + g < (ids.flatMap t.rowSelectors).length := by
    have hsum : (ids.flatMap t.rowSelectors).length = ids.length * t.groups := by
      rw [length_flatMap]
      simp [hlength]
    have hmul : (i + 1) * t.groups ≤ ids.length * t.groups := Nat.mul_le_mul_right _ hi
    rw [Nat.succ_mul] at hmul
    omega
  have hlt : ∀ s ∈ ids.flatMap t.rowSelectors, s < 16 := by
    intro s hs
    obtain ⟨id, -, hs⟩ := mem_flatMap.mp hs
    rw [rowSelectors, hscales] at hs
    obtain ⟨g, -, rfl⟩ := mem_map.mp hs
    exact selectorAt_lt _ _
  rw [selectorAt_packSelectors hlt hplace, getD_flatMap_const hlength ids 0 0 hi hg, rowSelectors,
    hscales]
  dsimp only
  rw [getD_eq_getElem _ _ (by simpa using hg), getElem_map, getElem_range]

/-- **Selected rows with room make a tensor.** -/
theorem sound_select (hids : ids ≠ []) : (t.select ids).Sound := by
  have hlengths := lengths_select h hrange hroom
  have hpacked := length_packed_select h hrange
  refine
    { rows_pos := length_pos_iff.mpr hids
      width_pos := h.width_pos
      width_mod := h.width_mod
      short := ?_
      grouped := ?_
      count := by simp [select, length_cumulative, rowWords]
      reserved := ?_
      offsets := by rw [hlengths]; exact offsets_select h hrange hroom
      total := by rw [hlengths, hpacked]
      capacity := ?_
      even := ?_
      capacity_compact := ?_
      seeds := ?_
      scaleCount := ?_
      anchors := ?_
      positive := ?_ }
  · intro hcompact
    rw [columns_select]
    exact h.short hcompact
  · intro hcolumns
    rw [columns_select] at hcolumns
    exact h.grouped hcolumns
  · intro hcompact d hd
    have hcompact' : t.compact = false := hcompact
    obtain ⟨id, off, hid, hplaces, rfl⟩ := mem_select h hrange hroom hd
    have hreserved := h.reserved hcompact' _ (h.descriptor_mem (hrange id hid))
    apply Nat.eq_of_testBit_eq
    intro i
    have hbit := congrArg (·.testBit i) hreserved
    simp only [Nat.testBit_and, testBit_complement, Nat.zero_testBit] at hbit ⊢
    by_cases hlow : i < 32
    · have hset : (0x00ffff07ffffffff : Nat).testBit i = true := by
        have hparts : (0x00ffff07ffffffff : Nat) = (2 ^ 32 - 1) ||| 0x00ffff07 <<< 32 := by decide
        rw [hparts, Nat.testBit_or, Nat.testBit_two_pow_sub_one]
        simp [hlow]
      simp [hset, show i < 64 by omega]
    · rw [testBit_place_of_ge hplaces (by omega)]
      exact hbit
  · rw [hlengths]
    unfold Room at hroom
    split at hroom <;> omega
  · intro hcompact d hd
    obtain ⟨id, off, hid, hplaces, rfl⟩ := mem_select h hrange hroom hd
    have heven := h.even hcompact _ (h.descriptor_mem (hrange id hid))
    unfold words at heven ⊢
    rw [bitsOf_place hplaces]
    exact heven
  · intro hcompact
    have hcompact' : t.compact = true := hcompact
    rw [hlengths]
    rwa [Room, if_pos hcompact'] at hroom
  · intro hcompact d hd
    obtain ⟨id, off, hid, hplaces, rfl⟩ := mem_select h hrange hroom hd
    rw [bitsOf_place hplaces, tailSeed_place hplaces hcompact]
    exact h.seeds hcompact _ (h.descriptor_mem (hrange id hid))
  · rw [columns_select, groups_select]
    have hcount := h.scaleCount
    unfold columns at hcount ⊢
    cases hscales : t.scales with
    | columns scales =>
      rw [hscales] at hcount
      rw [scales_select_columns hscales]
      exact hcount
    | selectors scales =>
      have hlength : (ids.flatMap t.rowSelectors).length = ids.length * t.groups := by
        rw [length_flatMap]
        simp [length_rowSelectors hscales]
      rw [scales_select_selectors hscales]
      change (packSelectors _).length = (ids.length * t.groups + 1) / 2
      rw [length_packSelectors, hlength]
  · intro d hd
    obtain ⟨id, off, hid, hplaces, rfl⟩ := mem_select h hrange hroom hd
    rw [anchorOf_place hplaces]
    exact h.anchors _ (h.descriptor_mem (hrange id hid))
  · intro scales hscales
    cases hscales' : t.scales with
    | columns scales' =>
      obtain rfl := Scales.columns.inj ((scales_select_columns hscales' ids).symm.trans hscales)
      exact h.positive _ hscales'
    | selectors scales' =>
      rw [scales_select_selectors hscales'] at hscales
      cases hscales

end Sound

end Components

/-! ### The rows of a selection -/

/-- A row of a tensor is some columns, from `first` on, of a row of another tensor. -/
structure SameRow (t : TQTensor) (row : Nat) (t' : TQTensor) (row' first : Nat) : Prop where
  bits : t'.bits row' = t.bits row
  anchor : anchorOf (t'.descriptor row').toNat = anchorOf (t.descriptor row).toNat
  columns : t'.columns = t.columns
  scale : ∀ col < t'.width, t'.scaleAt row' col = t.scaleAt row (first + col)
  states : ∃ states, t.states row = .ok states ∧
    t'.states row' = .ok ((states.drop first).take t'.width)

/-- A whole ring does not read the boundary state. -/
theorem stateAt_whole {width k seed seed' : Nat} {raw : Nat → UInt8} (hwhole : width % 256 = 0)
    (hi : i < width) : stateAt width k seed raw i = stateAt width k seed' raw i := by
  rw [stateAt, stateAt, if_pos (by omega), if_pos (by omega)]

section Selected

variable {t t' : TQTensor} {ids : List Nat} (h : t'.toComponents = t.select ids)
  (hrange : ∀ id ∈ ids, id < t.rows) (hroom : t.Room ids)

include h hrange hroom

theorem lengths_eq_rowWords : t'.lengths = t.rowWords ids := by
  rw [h]
  exact Components.lengths_select t.sound hrange hroom

theorem descriptor_select (hi : i < ids.length) :
    ∃ off, t.Places off ∧ t'.descriptor i = t.place (t.descriptor (ids.getD i 0)) off := by
  have hcount : i < (cumulative 0 (t.rowWords ids)).length := by
    simpa [length_cumulative, Components.rowWords] using hi
  refine ⟨(cumulative 0 (t.rowWords ids))[i], Components.places_select t.sound hrange hroom
    (getElem_mem hcount), ?_⟩
  rw [h, Components.descriptor, Components.select, getD_eq_getElem _ _ (by simp; omega),
    getElem_zipWith, getD_eq_getElem _ _ hi]

omit hroom h in
theorem slice_lengths : (ids.map fun id => (t.rowSlice id).length) = (t.rowWords ids).map (· * 4) := by
  rw [Components.rowWords, map_map]
  exact map_congr_left fun id hid => Components.length_rowSlice t.sound (hrange id hid)

theorem rowByte_select {j : Nat} (hi : i < ids.length)
    (hj : j < t.words (t.descriptor (ids.getD i 0)) * 4) :
    t'.rowByte i j = t.rowByte (ids.getD i 0) j := by
  have hrow : ids.getD i 0 < t.rows := by
    rw [getD_eq_getElem _ _ hi]
    exact hrange _ (getElem_mem hi)
  have hstart : t'.start i * 4 = ((ids.map fun id => (t.rowSlice id).length).take i).sum := by
    rw [slice_lengths hrange, ← map_take, sum_map_mul_right, map_id', Components.start,
      lengths_eq_rowWords h hrange hroom]
  have hpacked : t'.packed = ids.flatMap t.rowSlice := by
    rw [h]
    rfl
  rw [TQTensor.rowByte, hstart, hpacked,
    byte_flatMap ids 0 hi (by rw [Components.length_rowSlice t.sound hrow]; exact hj),
    Components.rowSlice, byte_take, if_pos hj, byte_drop]
  rfl

theorem rowSlice_select (hi : i < ids.length) : t'.rowSlice i = t.rowSlice (ids.getD i 0) := by
  have hrow : ids.getD i 0 < t.rows := by
    rw [getD_eq_getElem _ _ hi]
    exact hrange _ (getElem_mem hi)
  have hrow' : i < t'.rows := by
    rw [h]
    exact hi
  have hwords : t'.words (t'.descriptor i) = t.words (t.descriptor (ids.getD i 0)) := by
    obtain ⟨off, hplaces, hdescriptor⟩ := descriptor_select h hrange hroom hi
    have hwidth : t'.width = t.width := by
      rw [h]
      rfl
    rw [hdescriptor, Components.words, Components.words, hwidth, Components.bitsOf_place hplaces]
  have hlength := Components.length_rowSlice t'.sound hrow'
  rw [hwords] at hlength
  apply ByteFile.ext
  · rw [hlength, Components.length_rowSlice t.sound hrow]
  · intro j
    by_cases hj : j < t.words (t.descriptor (ids.getD i 0)) * 4
    · have hbyte := rowByte_select h hrange hroom hi hj
      rw [Components.rowSlice, Components.rowSlice, hwords, byte_take, byte_take, if_pos hj,
        if_pos hj, byte_drop, byte_drop]
      exact hbyte
    · rw [byte_of_le (by omega), byte_of_le]
      rw [Components.length_rowSlice t.sound hrow]
      omega

omit hrange hroom in
theorem scaleAt_select {col : Nat} (hi : i < ids.length) (hcol : col < t.width) :
    t'.scaleAt i col = t.scaleAt (ids.getD i 0) col := by
  have hgroups := Components.groups_select (t := t.toComponents) ids
  rw [h, Components.scaleAt, Components.scaleAt]
  cases hscales : t.scales with
  | columns scales => rw [Components.scales_select_columns hscales]
  | selectors scales =>
    have hgroup := t.sound.group_lt (Components.columns_eq_false hscales) hcol
    rw [Components.scales_select_selectors hscales]
    change selectorAt _ (i * (t.select ids).groups + col / t.gs.toNat) = _
    rw [hgroups]
    exact Components.selectorAt_select hscales hi hgroup

/-- **Each selected row is the row it was taken from.** -/
theorem sameRow_select (hi : i < ids.length) : SameRow t (ids.getD i 0) t' i 0 := by
  have hrow : ids.getD i 0 < t.rows := by
    rw [getD_eq_getElem _ _ hi]
    exact hrange _ (getElem_mem hi)
  have hrow' : i < t'.rows := by
    rw [h]
    exact hi
  have hwidth : t'.width = t.width := by
    rw [h]
    rfl
  obtain ⟨off, hplaces, hdescriptor⟩ := descriptor_select h hrange hroom hi
  have hbits : t'.bits i = t.bits (ids.getD i 0) := by
    rw [TQTensor.bits, hdescriptor, Components.bitsOf_place hplaces]
    rfl
  refine ⟨hbits, ?_, ?_, fun col hcol => ?_, _, TQTensor.states_eq hrow, ?_⟩
  · rw [hdescriptor, Components.anchorOf_place hplaces]
  · rw [h, Components.columns_select]
  · rw [Nat.zero_add, scaleAt_select h hi (hwidth ▸ hcol)]
  · rw [TQTensor.states_eq hrow', drop_zero, hwidth, take_of_length_le (by simp), hbits]
    refine congrArg Except.ok (map_congr_left fun col hcol => ?_)
    have hbytes (j : Nat) (hj : j < t.width * t.bits (ids.getD i 0) / 8) :
        t'.rowByte i j = t.rowByte (ids.getD i 0) j := by
      rw [TQTensor.bits, t.sound.row_bytes] at hj
      exact rowByte_select h hrange hroom hi hj
    have hk : 0 < t.bits (ids.getD i 0) := (bitsOf_le _).1
    rw [stateAt_congr hk hbytes]
    by_cases hcompact : t.compact = true
    · rw [TQTensor.seed, hdescriptor, Components.tailSeed_place hplaces hcompact]
      rfl
    · have hwhole : t.width % 256 = 0 := by simpa [Components.compact] using hcompact
      exact stateAt_whole hwhole (mem_range.mp hcol)

end Selected

end TyloQuant.Tq
