import TyloQuant.Tq.Tensor

/-!
# What a tensor keeps

The checks of a tensor's components as one statement, and what follows for each row: its words
start where the words of the rows before it end, and end before the packed words do.
-/

namespace TyloQuant.Tq

open Lib Bytes ByteFile List

/-! ### Runs that follow one another -/

theorem length_cumulative (start : Nat) (ls : List Nat) :
    (cumulative start ls).length = ls.length := by
  induction ls generalizing start with
  | nil => rfl
  | cons l ls ih => simp [cumulative, ih]

variable {ls : List Nat} {i : Nat}

theorem getD_cumulative (start : Nat) (h : i < ls.length) :
    (cumulative start ls).getD i 0 = start + (ls.take i).sum := by
  induction ls generalizing start i with
  | nil => simp at h
  | cons l ls ih =>
    cases i with
    | zero => simp [cumulative]
    | succ i =>
      have hi : i < ls.length := by simpa using h
      rw [cumulative, getD_cons_succ, ih (start + l) hi, take_succ_cons, sum_cons,
        Nat.add_assoc]

theorem sum_take_succ (ls : List Nat) (h : i < ls.length) :
    (ls.take (i + 1)).sum = (ls.take i).sum + ls.getD i 0 := by
  rw [take_succ_eq_append_getElem h, sum_append, getD_eq_getElem _ _ h]
  simp

variable {j : Nat}

theorem sum_take_le (h : i ≤ j) : (ls.take i).sum ≤ (ls.take j).sum := by
  obtain ⟨k, rfl⟩ := Nat.exists_eq_add_of_le h
  rw [take_add, sum_append]
  omega

theorem sum_take_le_sum (ls : List Nat) (i : Nat) : (ls.take i).sum ≤ ls.sum := by
  calc (ls.take i).sum ≤ (ls.take i).sum + (ls.drop i).sum := Nat.le_add_right _ _
    _ = ls.sum := by rw [← sum_append, take_append_drop]

theorem sum_even (h : ∀ l ∈ ls, l % 2 = 0) : ls.sum % 2 = 0 := by
  induction ls with
  | nil => rfl
  | cons l ls ih =>
    have hl := h l (by simp)
    have hls := ih fun m hm => h m (by simp [hm])
    rw [sum_cons]
    omega

/-! ### The checks -/

namespace Components

variable {t : Components}

structure Sound (t : Components) : Prop where
  rows_pos : 0 < t.rows
  width_pos : 0 < t.width
  width_mod : t.width % 32 = 0
  short : t.compact = true → t.columns = true
  grouped : t.columns = false → 16 ≤ t.gs ∧ t.gs ≤ 2 ^ 20 ∧ t.gs.toNat &&& (t.gs.toNat - 1) = 0
  count : t.descriptors.length = t.rows
  reserved : t.compact = false → ∀ d ∈ t.descriptors, d.toNat &&& complement 0x00ffff07ffffffff = 0
  offsets : t.descriptors.map t.offset = cumulative 0 t.lengths
  total : t.lengths.sum * 4 = t.packed.length
  capacity : t.lengths.sum ≤ 2 ^ 32
  even : t.compact = true → ∀ d ∈ t.descriptors, t.words d % 2 = 0
  capacity_compact : t.compact = true → t.lengths.sum < 2 ^ 31
  seeds : t.compact = true → ∀ d ∈ t.descriptors, tailSeed d.toNat < 1 <<< (16 - bitsOf d.toNat)
  scaleCount : t.scales.length = if t.columns then t.width else (t.rows * t.groups + 1) / 2
  anchors : ∀ d ∈ t.descriptors,
    finite16 (anchorOf d.toNat) = true ∧ negative16 (anchorOf d.toNat) = false
  positive : ∀ scales, t.scales = .columns scales →
    ∀ s ∈ scales, finite16 s.toNat = true ∧ nonpositive16 s.toNat = false

theorem columns_eq_true {scales : List UInt16} (h : t.scales = .columns scales) :
    t.columns = true := by
  rw [columns, h]
  rfl

theorem columns_eq_false {scales : List UInt8} (h : t.scales = .selectors scales) :
    t.columns = false := by
  rw [columns, h]
  rfl

theorem Sound.columnCount (hsound : t.Sound) {scales : List UInt16}
    (h : t.scales = .columns scales) : scales.length = t.width := by
  have hcount := hsound.scaleCount
  rwa [columns_eq_true h, h] at hcount

theorem Sound.selectorCount (hsound : t.Sound) {scales : List UInt8}
    (h : t.scales = .selectors scales) : scales.length = (t.rows * t.groups + 1) / 2 := by
  have hcount := hsound.scaleCount
  rwa [columns_eq_false h, h] at hcount

theorem check_eq_ok : t.check = .ok () ↔ t.Sound := by
  unfold check
  simp only [guard_eq_ok]
  constructor
  · rintro ⟨hgeometry, hshort, hgs, hcount, hreserved, hpacked, hcapacity, hcompact, hseeds, hscales,
      hanchors, hpositive⟩
    obtain ⟨hrows, hwidth, hmod⟩ : t.rows ≠ 0 ∧ t.width ≠ 0 ∧ t.width % 32 = 0 := by
      simpa only [not_or, not_not] using hgeometry
    obtain ⟨hoffsets, htotal⟩ : t.descriptors.map t.offset = cumulative 0 t.lengths ∧
        t.lengths.sum * 4 = t.packed.length := by
      simpa only [not_or, not_not] using hpacked
    have hanchors' := not_or.mp hanchors
    refine ⟨by omega, by omega, hmod, by simpa using hshort, fun hcolumns => ?_, by simpa using hcount,
      fun h => by simpa [h] using hreserved, hoffsets, htotal, by omega, fun h => ?_, fun h => ?_,
      fun h => ?_, by simpa using hscales, fun d hd => ?_, fun scales heq => ?_⟩
    · simp only [hcolumns] at hgs
      simpa [and_assoc] using hgs
    · intro d hd
      have hall : ¬∃ l ∈ t.lengths, l % 2 = 1 := by
        simpa [h, not_or, Nat.and_one_is_mod] using fun hex => hcompact ⟨h, Or.inl hex⟩
      have hwords : t.words d ∈ t.lengths := mem_map_of_mem hd
      have hne : t.words d % 2 ≠ 1 := fun hodd => hall ⟨_, hwords, hodd⟩
      omega
    · have hlt := mt (fun hle => ⟨h, Or.inr hle⟩) hcompact
      omega
    · simpa [h] using hseeds
    · have hfinite := mt any_eq_true.mpr hanchors'.1
      have hnegative := mt any_eq_true.mpr hanchors'.2
      push Not at hfinite hnegative
      simpa using And.intro (hfinite d hd) (hnegative d hd)
    · rw [heq] at hpositive
      obtain ⟨hpositive, -⟩ := guard_eq_ok.mp hpositive
      simpa [not_or, forall_and] using hpositive
  · intro h
    refine ⟨?_, by simpa using h.short, ?_, by simpa using h.count, ?_, ?_, by simpa using h.capacity,
      ?_, ?_, by simpa using h.scaleCount, ?_, ?_⟩
    · have hrows := h.rows_pos
      have hwidth := h.width_pos
      have hmod := h.width_mod
      omega
    · rintro ⟨hcolumns, hgs⟩
      obtain ⟨hle, hge, hpow⟩ := h.grouped (Bool.eq_false_of_not_eq_true hcolumns)
      rcases hgs with hgs | hgs | hgs
      · omega
      · omega
      · exact hgs hpow
    · rintro ⟨hcompact, hany⟩
      obtain ⟨d, hd, hne⟩ := any_eq_true.mp hany
      exact (decide_eq_true_iff.mp hne) (h.reserved (Bool.eq_false_of_not_eq_true hcompact) d hd)
    · rw [not_or, not_not, not_not]
      exact ⟨h.offsets, h.total⟩
    · rintro ⟨hcompact, hany | hle⟩
      · obtain ⟨l, hl, hne⟩ := any_eq_true.mp hany
        obtain ⟨d, hd, rfl⟩ := mem_map.mp hl
        have heven := h.even hcompact d hd
        rw [decide_eq_true_iff, Nat.and_one_is_mod] at hne
        exact hne heven
      · have hlt := h.capacity_compact hcompact
        omega
    · rintro ⟨hcompact, hany⟩
      obtain ⟨d, hd, hle⟩ := any_eq_true.mp hany
      have hlt := h.seeds hcompact d hd
      have hle' := decide_eq_true_iff.mp hle
      omega
    · rintro (hany | hany)
      · obtain ⟨d, hd, hfinite⟩ := any_eq_true.mp hany
        simp [(h.anchors d hd).1] at hfinite
      · obtain ⟨d, hd, hnegative⟩ := any_eq_true.mp hany
        simp [(h.anchors d hd).2] at hnegative
    · have hpositive := h.positive
      cases hscales : t.scales with
      | selectors scales => rfl
      | columns scales =>
        rw [hscales] at hpositive
        dsimp only
        rw [guard_eq_ok]
        simpa [not_or, forall_and] using hpositive scales

end Components

/-! ### Tensors -/

namespace TQTensor

theorem sound (t : TQTensor) : t.toComponents.Sound := Components.check_eq_ok.mp t.checked

variable {c : Components}

theorem make_eq_ok {t : TQTensor} : make c = .ok t ↔ t.toComponents = c := by
  constructor
  · intro h
    unfold make at h
    split at h
    · cases h
    · cases h
      rfl
  · rintro rfl
    unfold make
    split
    · rename_i herror
      rw [t.checked] at herror
      cases herror
    · rfl

theorem exists_make (h : c.Sound) : ∃ t, make c = .ok t ∧ t.toComponents = c :=
  ⟨⟨c, Components.check_eq_ok.mpr h⟩, make_eq_ok.mpr rfl, rfl⟩

end TQTensor

/-! ### Rows -/

namespace Components

variable {t : Components} {row : Nat}

/-- The descriptor of a row. -/
def descriptor (t : Components) (row : Nat) : UInt64 := t.descriptors.getD row 0

/-- The words of the rows before a row. -/
def start (t : Components) (row : Nat) : Nat := (t.lengths.take row).sum

theorem Sound.descriptor_mem (h : t.Sound) (hrow : row < t.rows) :
    t.descriptor row ∈ t.descriptors := by
  have hlt : row < t.descriptors.length := by
    rw [h.count]
    exact hrow
  rw [descriptor, getD_eq_getElem _ _ hlt]
  exact getElem_mem hlt

theorem Sound.map_descriptors {α : Type} (h : t.Sound) (f : UInt64 → α) :
    t.descriptors.map f = (List.range t.rows).map fun row => f (t.descriptor row) := by
  apply ext_getElem
  · simp [h.count]
  · intro i hi _
    have hlt : i < t.descriptors.length := by simpa using hi
    rw [getElem_map, getElem_map, getElem_range, descriptor,
      getD_eq_getElem _ _ hlt]

theorem Sound.length_lengths (h : t.Sound) : t.lengths.length = t.rows := by
  rw [lengths, length_map, h.count]

theorem Sound.offset_eq (h : t.Sound) (hrow : row < t.rows) :
    t.offset (t.descriptor row) = t.start row := by
  have hlengths := h.length_lengths
  have hstart := getD_cumulative 0 (hlengths.symm ▸ hrow)
  rw [← h.offsets, Nat.zero_add] at hstart
  rw [start, ← hstart, descriptor]
  have hlt : row < t.descriptors.length := by
    rw [h.count]
    exact hrow
  rw [getD_eq_getElem _ _ hlt, getD_eq_getElem _ _ (by simpa using hlt), getElem_map]

theorem Sound.start_succ (h : t.Sound) (hrow : row < t.rows) :
    t.start (row + 1) = t.start row + t.words (t.descriptor row) := by
  have hlt : row < t.descriptors.length := by
    rw [h.count]
    exact hrow
  rw [start, sum_take_succ _ (by rw [h.length_lengths]; exact hrow), start, descriptor,
    getD_eq_getElem _ _ hlt, lengths, getD_eq_getElem _ _ (by simpa using hlt),
    getElem_map]

theorem start_mono (hij : i ≤ j) : t.start i ≤ t.start j := sum_take_le hij

theorem Sound.start_rows (h : t.Sound) : t.start t.rows = t.lengths.sum := by
  rw [start, ← h.length_lengths, take_length]

theorem Sound.row_fits (h : t.Sound) (hrow : row < t.rows) :
    t.start row * 4 + t.words (t.descriptor row) * 4 ≤ t.packed.length := by
  have hsucc := h.start_succ hrow
  have hle : t.start (row + 1) ≤ t.start t.rows := start_mono hrow
  rw [h.start_rows] at hle
  have htotal := h.total
  omega

theorem Sound.group_lt (h : t.Sound) (hcolumns : t.columns = false) {col : Nat}
    (hcol : col < t.width) : col / t.gs.toNat < t.groups := by
  obtain ⟨hgs, -, -⟩ := h.grouped hcolumns
  have hpos : 0 < t.gs.toNat := by omega
  rw [groups, hcolumns, if_neg Bool.false_ne_true, Nat.div_lt_iff_lt_mul hpos]
  have hmod := Nat.div_add_mod (t.width + t.gs.toNat - 1) t.gs.toNat
  have hlt := Nat.mod_lt (t.width + t.gs.toNat - 1) hpos
  rw [Nat.mul_comm] at hmod
  omega

theorem Sound.row_bytes (h : t.Sound) (d : UInt64) :
    t.width * bitsOf d.toNat / 8 = t.words d * 4 := by
  obtain ⟨k, hk⟩ : ∃ k, t.width = 32 * k := ⟨t.width / 32, by have hmod := h.width_mod; omega⟩
  have hmul : t.width * bitsOf d.toNat = 32 * (k * bitsOf d.toNat) := by rw [hk, Nat.mul_assoc]
  rw [words, hmul]
  omega

end Components

end TyloQuant.Tq
