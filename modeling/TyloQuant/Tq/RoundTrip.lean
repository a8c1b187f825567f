import TyloQuant.Tq.CompactTail

/-!
# Tensors as bytes

A tensor whose numbers fit the header is read back as it was.
-/

namespace TyloQuant.Tq

open Lib Bytes ByteFile List

theorem integer_flatMap {w i : Nat} {xs : List Nat} (pre post : List UInt8) (hi : i < xs.length)
    (hx : ∀ x ∈ xs, x < 256 ^ w) :
    integer (pre ++ xs.flatMap (littleEndian w) ++ post) (pre.length + w * i) w = xs.getD i 0 := by
  induction xs generalizing pre i with
  | nil => simp at hi
  | cons x xs ih =>
    rw [flatMap_cons]
    cases i with
    | zero =>
      have htake : ((pre ++ (littleEndian w x ++ xs.flatMap (littleEndian w)) ++ post).drop
          (pre.length + w * 0)).take w = littleEndian w x := by
        rw [Nat.mul_zero, Nat.add_zero, List.append_assoc, drop_left, List.append_assoc]
        exact take_left' (length_littleEndian w x)
      rw [integer, htake, ofLittleEndian_littleEndian (hx x (by simp))]
      rfl
    | succ i =>
      have hih := ih (pre ++ littleEndian w x) (by simpa using hi)
        fun y hy => hx y (mem_cons_of_mem x hy)
      rw [length_append, length_littleEndian] at hih
      have hplace : pre.length + w * (i + 1) = pre.length + w + w * i := by ring
      rw [getD_cons_succ, ← hih, hplace, ← List.append_assoc pre]

theorem length_flatMap_littleEndian (w : Nat) (xs : List Nat) :
    (xs.flatMap (littleEndian w)).length = w * xs.length := by
  induction xs with
  | nil => simp
  | cons x xs ih =>
    rw [flatMap_cons, length_append, ih, length_littleEndian, length_cons]
    ring

namespace TQTensor

variable {t : TQTensor}

/-- The numbers of the tensor fit its header. -/
structure Fits (t : TQTensor) : Prop where
  rows : t.rows < 2 ^ 32
  width : t.width < 2 ^ 32
  gs : 0 ≤ t.gs ∧ t.gs < 2 ^ 32
  packed : t.packed.length < 2 ^ 32

def magic (t : TQTensor) : List UInt8 := if t.compact then magic06 else magic05

/-- The numbers of the header. -/
def fields (t : TQTensor) : List Nat :=
  [if t.compact then 6 else 5, t.rows, t.width, t.columns.toNat, t.gs.toNat, t.packed.length]

def scaleBytes (t : TQTensor) : List UInt8 :=
  match t.scales with
  | .columns scales => scales.flatMap fun s => littleEndian 2 s.toNat
  | .selectors scales => scales

/-- The header with the reserved bytes. -/
def head (t : TQTensor) : List UInt8 :=
  t.magic ++ t.fields.flatMap (littleEndian 4) ++ List.replicate 32 0

/-- What stands before the scales. -/
def front (t : TQTensor) : List UInt8 :=
  t.head ++ t.descriptors.flatMap fun d => littleEndian 8 d.toNat

/-- The bytes of a tensor. -/
def payload (t : TQTensor) : List UInt8 := t.front ++ t.scaleBytes ++ t.packed

theorem toBytes_ok : t.toBytes = .ok t.payload ↔ t.Fits := by
  unfold toBytes
  rw [guard_eq_ok]
  constructor
  · rintro ⟨hfits, -⟩
    simp only [not_or] at hfits
    exact ⟨by omega, by omega, by omega, by omega⟩
  · intro h
    obtain ⟨hrows, hwidth, hgs, hpacked⟩ := h
    exact ⟨by omega, rfl⟩

theorem toBytes_error (h : ¬t.Fits) : t.toBytes = .error .structError := by
  unfold toBytes
  split
  · rfl
  · rename_i hfits
    simp only [not_or] at hfits
    exact absurd ⟨by omega, by omega, by omega, by omega⟩ h

theorem length_magic (t : TQTensor) : t.magic.length = 8 := by
  unfold magic
  split <;> rfl

theorem length_fields (t : TQTensor) : (t.fields.flatMap (littleEndian 4)).length = 24 :=
  length_flatMap_littleEndian 4 t.fields

theorem length_descriptors (t : TQTensor) :
    (t.descriptors.flatMap fun d => littleEndian 8 d.toNat).length = 8 * t.rows := by
  have hlength := length_flatMap_littleEndian 8 (t.descriptors.map UInt64.toNat)
  rwa [flatMap_map, length_map, t.sound.count] at hlength

theorem length_head (t : TQTensor) : t.head.length = 64 := by
  rw [head, length_append, length_append, t.length_magic, t.length_fields,
    length_replicate]

theorem length_front (t : TQTensor) : t.front.length = 64 + t.rows * 8 := by
  rw [front, length_append, t.length_head, t.length_descriptors, Nat.mul_comm]

theorem length_payload (t : TQTensor) :
    t.payload.length = 64 + t.rows * 8 + t.scaleBytes.length + t.packed.length := by
  rw [payload, length_append, length_append, t.length_front]

/-- What `from_bytes` computes of the header is the size of the scales. -/
theorem length_scaleBytes (t : TQTensor) : t.scaleBytes.length = if t.columns then t.width * 2
    else (t.rows * ((t.width + t.gs.toNat - 1) / t.gs.toNat) + 1) / 2 := by
  have hcount := t.sound.scaleCount
  unfold scaleBytes
  unfold Components.groups Components.columns at hcount
  unfold Components.columns
  cases hscales : t.scales with
  | columns scales =>
    rw [hscales] at hcount
    have hlength := length_flatMap_littleEndian 2 (scales.map UInt16.toNat)
    rw [flatMap_map, length_map] at hlength
    have hwidth : scales.length = t.width := hcount
    rw [hwidth, Nat.mul_comm] at hlength
    exact hlength
  | selectors scales =>
    rw [hscales] at hcount
    exact hcount

section Reading

variable (t : TQTensor)

theorem take_payload : t.payload.take 8 = t.magic := by
  unfold payload front head
  simp only [List.append_assoc]
  exact take_left' t.length_magic

theorem integer_payload (hfits : t.Fits) {i : Nat} (hi : i < 6) :
    integer t.payload (8 + 4 * i) 4 = t.fields.getD i 0 := by
  have hfields : ∀ x ∈ t.fields, x < 256 ^ 4 := by
    have hrows := hfits.rows
    have hwidth := hfits.width
    have hgs := hfits.gs
    have hpacked := hfits.packed
    have hcolumns : t.columns.toNat ≤ 1 := Bool.toNat_le _
    intro x hx
    simp only [fields, mem_cons, not_mem_nil, or_false] at hx
    rcases hx with rfl | rfl | rfl | rfl | rfl | rfl
    · split <;> omega
    · omega
    · omega
    · omega
    · omega
    · omega
  have hread := integer_flatMap t.magic (List.replicate 32 0
    ++ (t.descriptors.flatMap fun d => littleEndian 8 d.toNat) ++ t.scaleBytes ++ t.packed)
    (show i < t.fields.length from hi) hfields
  rw [t.length_magic] at hread
  rw [← hread]
  unfold payload front head
  simp only [List.append_assoc]

theorem header_payload (hfits : t.Fits) :
    integer t.payload 8 4 = (if t.compact then 6 else 5) ∧ integer t.payload 12 4 = t.rows ∧
      integer t.payload 16 4 = t.width ∧ integer t.payload 20 4 = t.columns.toNat ∧
      integer t.payload 24 4 = t.gs.toNat ∧ integer t.payload 28 4 = t.packed.length := by
  have hfield {i : Nat} (hi : i < 6) := t.integer_payload hfits hi
  exact ⟨hfield (i := 0) (by omega), hfield (i := 1) (by omega), hfield (i := 2) (by omega),
    hfield (i := 3) (by omega), hfield (i := 4) (by omega), hfield (i := 5) (by omega)⟩

theorem reserved_payload : (t.payload.drop 32).take 32 = List.replicate 32 0 := by
  have hlength : (t.magic ++ t.fields.flatMap (littleEndian 4)).length = 32 := by
    rw [length_append, t.length_magic, t.length_fields]
  unfold payload front head
  rw [List.append_assoc _ _ t.packed, List.append_assoc _ _ (t.scaleBytes ++ t.packed),
    List.append_assoc _ (List.replicate 32 0), drop_left' hlength]
  exact take_left' (length_replicate)

theorem descriptor_payload {row : Nat} (hrow : row < t.rows) :
    integer t.payload (64 + 8 * row) 8 = (t.descriptor row).toNat := by
  have hcount := t.sound.count
  have hread := @integer_flatMap 8 row (t.descriptors.map UInt64.toNat) t.head
    (t.scaleBytes ++ t.packed) (by rw [length_map, hcount]; exact hrow) (by
      intro x hx
      obtain ⟨d, -, rfl⟩ := mem_map.mp hx
      exact d.toNat_lt)
  rw [t.length_head, flatMap_map, ← List.append_assoc] at hread
  rw [Components.descriptor, getD_eq_getElem _ _ (hcount ▸ hrow)]
  refine hread.trans ?_
  rw [getD_eq_getElem _ _ (by simpa [hcount] using hrow), getElem_map]

theorem scales_payload :
    (t.payload.drop (64 + t.rows * 8)).take t.scaleBytes.length = t.scaleBytes := by
  rw [payload, List.append_assoc, drop_left' t.length_front]
  exact take_left' rfl

theorem packed_payload :
    (t.payload.drop (64 + t.rows * 8 + t.scaleBytes.length)).take t.packed.length = t.packed := by
  have hlength : (t.front ++ t.scaleBytes).length = 64 + t.rows * 8 + t.scaleBytes.length := by
    rw [length_append, t.length_front]
  rw [payload, drop_left' hlength, take_length]

theorem scale_payload {scales : List UInt16} (hscales : t.scales = .columns scales) {i : Nat}
    (hi : i < scales.length) :
    integer t.payload (64 + t.rows * 8 + 2 * i) 2 = (scales.getD i 0).toNat := by
  have hread := @integer_flatMap 2 i (scales.map UInt16.toNat) t.front t.packed
    (by simpa using hi) (by
      intro x hx
      obtain ⟨s, -, rfl⟩ := mem_map.mp hx
      exact s.toNat_lt)
  rw [t.length_front, flatMap_map] at hread
  rw [getD_eq_getElem _ _ hi]
  refine Eq.trans ?_ (hread.trans ?_)
  · unfold payload scaleBytes
    rw [hscales]
  · rw [getD_eq_getElem _ _ (by simpa using hi), getElem_map]

end Reading

theorem magic_iff (t : TQTensor) :
    (t.magic = magic06 ∧ (if t.compact then 6 else 5) = 6) ↔ t.compact = true := by
  unfold magic
  cases t.compact with
  | true => simp
  | false => simp

theorem decide_magic (t : TQTensor) :
    decide (t.magic = magic06 ∧ (if t.compact then 6 else 5) = 6) = t.compact := by
  rw [Bool.eq_iff_iff, decide_eq_true_iff]
  exact t.magic_iff

theorem decide_columns (t : TQTensor) : decide (t.columns.toNat ≠ 0) = t.columns := by
  cases t.columns with
  | true => rfl
  | false => rfl

theorem compact_iff (t : TQTensor) : t.compact = true ↔ t.width % 256 ≠ 0 := by
  unfold Components.compact
  exact decide_eq_true_iff

theorem scales_eq_read (t : TQTensor) :
    (if t.columns.toNat ≠ 0 then
      .columns ((List.range t.width).map fun i =>
        UInt16.ofNat (integer t.payload (64 + t.rows * 8 + 2 * i) 2))
    else .selectors ((t.payload.drop (64 + t.rows * 8)).take t.scaleBytes.length)) = t.scales := by
  have hcount := t.sound.scaleCount
  unfold Components.columns at hcount ⊢
  cases hscales : t.scales with
  | columns scales =>
    rw [hscales] at hcount
    have hwidth : scales.length = t.width := hcount
    rw [if_pos (by simp [Scales.isColumns])]
    congr 1
    apply ext_getElem
    · simp [hwidth]
    · intro i hi hi'
      rw [getElem_map, getElem_range, t.scale_payload hscales hi', UInt16.ofNat_toNat,
        getD_eq_getElem _ _ hi']
  | selectors scales =>
    rw [if_neg (by simp [Scales.isColumns]), t.scales_payload, scaleBytes, hscales]

/-- **A tensor whose numbers fit the header is read back.** -/
theorem fromBytes_payload (hfits : t.Fits) : fromBytes t.payload = .ok t := by
  have hlength := t.length_payload
  have hscales := t.length_scaleBytes
  obtain ⟨hversion, hrows, hwidth, hcolumns, hgs, hpacked⟩ := t.header_payload hfits
  unfold fromBytes
  dsimp only
  rw [guard_eq_ok, t.take_payload, hversion, hrows, hwidth, hcolumns, hgs, hpacked, guard_eq_ok,
    guard_eq_ok, guard_eq_ok, guard_eq_ok, make_eq_ok, t.reserved_payload]
  have hcolumns01 : t.columns.toNat ≤ 1 := Bool.toNat_le _
  have hsound := t.sound
  have hsize : (if t.columns.toNat ≠ 0 then t.width * 2
      else (t.rows * ((t.width + t.gs.toNat - 1) / t.gs.toNat) + 1) / 2) = t.scaleBytes.length := by
    rw [hscales]
    cases t.columns with
    | true => rfl
    | false => rfl
  rw [hsize]
  refine ⟨by omega, ?_, ?_, by simp, by omega, ?_⟩
  · rintro (hnot | hrange)
    · apply hnot
      unfold magic
      cases t.compact with
      | true => exact Or.inl ⟨rfl, rfl⟩
      | false => exact Or.inr ⟨rfl, rfl⟩
    · omega
  · rw [t.magic_iff, t.compact_iff]
    have hrows := hsound.rows_pos
    have hwidth := hsound.width_pos
    have hmod := hsound.width_mod
    rintro (h | h | h | ⟨hcompact, hcolumns | h⟩ | ⟨hcompact, h⟩ | ⟨hcolumns, h⟩)
    · omega
    · omega
    · exact h hmod
    · have hshort := hsound.short (t.compact_iff.mpr hcompact)
      rw [hshort] at hcolumns
      exact absurd hcolumns (by decide)
    · exact hcompact h
    · exact hcompact h
    · have hgrouped := hsound.grouped (by simpa using hcolumns)
      omega
  · have hgs' : (t.gs.toNat : Int) = t.gs := Int.toNat_of_nonneg hfits.gs.1
    have hdescriptors : (List.range t.rows).map (fun r =>
        UInt64.ofNat (integer t.payload (64 + 8 * r) 8)) = t.descriptors := by
      rw [← map_id t.descriptors, hsound.map_descriptors]
      apply map_congr_left
      intro r hr
      rw [t.descriptor_payload (mem_range.mp hr), UInt64.ofNat_toNat]
      rfl
    rw [t.scales_eq_read, t.packed_payload, hdescriptors, hgs']

/-! ### Compact tails and bytes -/

/-- **Cutting the padding off loses nothing, and a tensor whose numbers fit its header is read back
from its bytes as it was.** -/
theorem compactTail_lossless :
    (∀ (t t' : TQTensor) (logicalWidth : Nat) (empty : Nat → UInt8) (scales : List UInt16),
      t.compact = false → t.scales = .columns scales →
      t.compactTail logicalWidth empty = .ok t' →
      (∀ row < t.rows, ∃ states, t.states row = .ok states ∧
        t'.states row = .ok (states.take logicalWidth)) ∧
      t'.anchors = t.anchors ∧ t'.scales = .columns (scales.take logicalWidth) ∧
      t'.rows = t.rows ∧ t'.width = logicalWidth) ∧
    ∀ x : TQTensor, (x.Fits → ∃ bytes, x.toBytes = .ok bytes ∧ fromBytes bytes = .ok x) ∧
      (¬x.Fits → x.toBytes = .error .structError) :=
  ⟨fun _ _ _ _ _ _ hscales h => ⟨fun _ hrow => compactTail_states h hrow, compactTail_anchors h,
    compactTail_scales h hscales, compactTail_shape h⟩,
    fun _ => ⟨fun hfits => ⟨_, toBytes_ok.mpr hfits, fromBytes_payload hfits⟩, toBytes_error⟩⟩

/-- One row of 256 columns at one bit, of which 64 are logical. -/
def padded : TQTensor where
  rows := 1
  width := 256
  gs := 512
  scales := .columns (List.replicate 256 0x3c00)
  descriptors := [0x28000000000000]
  packed := List.replicate 16 0xa5 ++ List.replicate 16 0x3c
  checked := by decide +kernel

def paddedCut : TQTensor where
  rows := 1
  width := 64
  gs := 512
  scales := .columns (List.replicate 64 0x3c00)
  descriptors := [0x2d28002800000001]
  packed := List.replicate 8 0x3c
  checked := by decide +kernel

/-- A subgroup size means nothing with column scales; this one does not fit the header. -/
def wideGs : TQTensor where
  rows := 1
  width := 64
  gs := 2 ^ 32
  scales := .columns (List.replicate 64 0x3c00)
  descriptors := [0x28000000000000]
  packed := List.replicate 8 0x3c
  checked := by decide +kernel

theorem compactTail_lossless_sample : (∃ states, padded.states 0 = .ok states ∧
    paddedCut.states 0 = .ok (states.take 64)) ∧
    ∃ bytes, paddedCut.toBytes = .ok bytes ∧ fromBytes bytes = .ok paddedCut :=
  have hcut : padded.compactTail 64 (fun _ => 0) = .ok paddedCut := by decide +kernel
  ⟨(compactTail_lossless.1 padded paddedCut 64 _ _ (by decide) rfl hcut).1 0 (by decide),
    (compactTail_lossless.2 paddedCut).1 ⟨by decide, by decide, by decide, by decide⟩⟩

theorem wideGs_not_written : ¬∀ x : TQTensor, ∃ bytes, x.toBytes = .ok bytes ∧
    fromBytes bytes = .ok x := by
  intro h
  obtain ⟨bytes, hbytes, -⟩ := h wideGs
  have herror : wideGs.toBytes = .error .structError := by decide +kernel
  rw [herror] at hbytes
  cases hbytes

end TQTensor

end TyloQuant.Tq
