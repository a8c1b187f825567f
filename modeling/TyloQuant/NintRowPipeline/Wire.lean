import TyloQuant.NintRowPipeline.Batch

/-!
# Rows in a batch

A batch carries the rows that were copied into it: the bytes behind a row's words are those of its
streams in the file, so the kernel decodes the row of the table.  Appending, merging and copying
single rows keep that, and they throw only when the bytes become too many or a row cannot be read.
-/

namespace TyloQuant.NintRowPipeline

open Lib Bits Bytes ByteFile List

variable {t : NintRows} {row : Nat} {packed more : List UInt8} {s : Stream} {at' : Nat}

/-! ### Copied streams -/

/-- The bytes of a stream stand in a batch. -/
def Copied (packed : List UInt8) (at' : Nat) (bytes : Nat → UInt8) (s : Stream) : Prop :=
  at' + s.size ≤ packed.length ∧ ∀ i < s.size, byte packed (at' + i) = bytes (s.start + i)

namespace Copied

variable {bytes : Nat → UInt8}

theorem of_isPrefix (h : Copied packed at' bytes s) (hmore : packed <+: more) :
    Copied more at' bytes s := by
  obtain ⟨rest, rfl⟩ := hmore
  refine ⟨by rw [length_append]; exact h.1.trans (Nat.le_add_right _ _), fun i hi => ?_⟩
  rw [byte_append, if_pos (Nat.lt_of_lt_of_le (Nat.add_lt_add_left hi _) h.1), h.2 i hi]

theorem append_right (h : Copied packed at' bytes s) (front : List UInt8) :
    Copied (front ++ packed) (at' + front.length) bytes s := by
  obtain ⟨hroom, hbytes⟩ := h
  refine ⟨by rw [length_append]; omega, fun i hi => ?_⟩
  rw [byte_append, if_neg (by omega), show at' + front.length + i - front.length = at' + i by omega,
    hbytes i hi]

theorem of_window (packed : List UInt8) (bytes : Nat → UInt8) (s : Stream) (more : List UInt8) :
    Copied (packed ++ window bytes s.start s.size ++ more) packed.length bytes s := by
  have hwindow : Copied (packed ++ window bytes s.start s.size) packed.length bytes s := by
    refine ⟨by simp, fun i hi => ?_⟩
    rw [byte_append, if_neg (by omega), Nat.add_sub_cancel_left, byte_window hi]
  exact hwindow.of_isPrefix (prefix_append _ _)

theorem window (h : Copied packed at' bytes s) :
    window (byte packed) at' s.size = window bytes s.start s.size :=
  window_congr h.2

theorem unpack (h : Copied packed at' bytes s) (hbits : s.bits ≤ 8) {element : Nat}
    (helement : element < s.count) :
    unpackNintCode (fun i => byte packed (at' + i)) (s.bit % 8) element s.bits =
      unpackNintCode bytes (8 * s.offset + s.bit) element s.bits := by
  rw [unpackNintCode_eq hbits, unpackNintCode_eq hbits]
  have hend : element * s.bits + s.bits ≤ s.count * s.bits := by
    rw [← Nat.succ_mul]
    exact Nat.mul_le_mul_right _ helement
  have hcopy : field (fun i => byte packed (at' + i)) (s.bit % 8 + element * s.bits) s.bits =
      field (fun i => bytes (s.start + i)) (s.bit % 8 + element * s.bits) s.bits := by
    refine field_congr fun i _ hi => h.2 i ?_
    rw [Stream.size]
    omega
  rw [hcopy, field_add, Stream.start]
  congr 1
  omega

end Copied

/-! ### Words -/

theorem layout_fields {q k a b c : Nat} (hq : q < 16) (hk : k < 16) (ha : a < 8) (hb : b < 8)
    (hc : c < 8) {word : Nat} (hword : word = q ||| k <<< 4 ||| a <<< 8 ||| b <<< 12 ||| c <<< 16) :
    word % 16 = q ∧ word >>> 4 % 16 = k ∧ word >>> 8 % 8 = a ∧ word >>> 12 % 8 = b ∧
      word >>> 16 % 8 = c := by
  have hor : ∀ {x y i : Nat}, x < 2 ^ i → x ||| y <<< i = x + y * 2 ^ i := by
    intro x y i hx
    rw [Nat.or_comm, ← Nat.shiftLeft_add_eq_or_of_lt hx, Nat.shiftLeft_eq, Nat.add_comm]
  have h4 : q ||| k <<< 4 = q + k * 2 ^ 4 := hor (by omega)
  have h8 : q + k * 2 ^ 4 ||| a <<< 8 = q + k * 2 ^ 4 + a * 2 ^ 8 := hor (by omega)
  have h12 : q + k * 2 ^ 4 + a * 2 ^ 8 ||| b <<< 12 = q + k * 2 ^ 4 + a * 2 ^ 8 + b * 2 ^ 12 :=
    hor (by omega)
  rw [h4, h8, h12, hor (by omega)] at hword
  simp only [Nat.shiftRight_eq_div_pow]
  omega

theorem neuron_lt (bytes : Nat → UInt8) (offset : Nat) : readLE bytes offset 2 < 2 ^ 16 := by
  have hlt := ofLittleEndian_lt (window bytes offset 2)
  rw [length_window] at hlt
  exact hlt

theorem anchors_fields (t : NintRows) (row : Nat) :
    t.anchors row % 2 ^ 16 = t.neuronScale row ∧ t.anchors row >>> 16 % 2 ^ 16 = t.neuronMin row := by
  have hscale : t.neuronScale row < 2 ^ 16 := neuron_lt _ _
  have hmin : t.neuronMin row < 2 ^ 16 := neuron_lt _ _
  rw [NintRows.anchors, Nat.or_comm, ← Nat.shiftLeft_add_eq_or_of_lt hscale, Nat.shiftLeft_eq,
    Nat.shiftRight_eq_div_pow]
  omega

namespace NintRows.Opened

variable (h : t.Opened)

include h

theorem width_le : t.width ≤ t.groups * t.groupSize := by
  have hdiv := @Nat.lt_div_mul_add (t.width + t.groupSize - 1) t.groupSize h.groupSize_pos
  have hpos := h.groupSize_pos
  rw [h.groups_eq]
  omega

theorem group_lt {column : Nat} (hcolumn : column < t.width) : column / t.groupSize < t.groups :=
  Nat.div_lt_of_lt_mul (by rw [Nat.mul_comm]; exact hcolumn.trans_le h.width_le)

theorem layout (hrow : row < t.rows) :
    t.layout row % 16 = t.q row ∧ t.layout row >>> 4 % 16 = t.k row ∧
      t.layout row >>> 8 % 8 = t.qBit row % 8 ∧ t.layout row >>> 12 % 8 = t.kBit row % 8 ∧
      t.layout row >>> 16 % 8 = t.kBit row % 8 :=
  have hq := h.q_range row hrow
  have hk := h.k_range row hrow
  layout_fields (by omega) (by omega) (by omega) (by omega) (by omega) rfl

end NintRows.Opened

/-! ### Rows -/

/-- The words of a row, with the bytes behind them. -/
structure Holds (packed : List UInt8) (d : Descriptor) (t : NintRows) (row : Nat) : Prop where
  q : Copied packed d.q t.bytes (t.qStream row)
  scale : Copied packed d.scale t.bytes (t.scaleStream row)
  minimum : Copied packed d.minimum t.bytes (t.minStream row)
  layout : d.layout = t.layout row
  group : d.group = t.groupSize
  anchors : d.anchors = t.anchors row

namespace Holds

variable {d : Descriptor}

theorem of_isPrefix (h : Holds packed d t row) (hmore : packed <+: more) : Holds more d t row :=
  { h with
    q := h.q.of_isPrefix hmore
    scale := h.scale.of_isPrefix hmore
    minimum := h.minimum.of_isPrefix hmore }

theorem append_right (h : Holds packed d t row) (front : List UInt8) :
    Holds (front ++ packed) { d with
      q := d.q + front.length
      scale := d.scale + front.length
      minimum := d.minimum + front.length } t row :=
  { h with
    q := h.q.append_right front
    scale := h.scale.append_right front
    minimum := h.minimum.append_right front }

theorem decode {b : NintRowBatch} (h : Holds b.packed d t row) (ht : t.Opened) (hrow : row < t.rows) :
    b.decode d t.width = t.row row := by
  obtain ⟨hq, hk, hqBit, hkBit, hmBit⟩ := ht.layout hrow
  obtain ⟨hscale, hmin⟩ := anchors_fields t row
  have hq8 := (ht.q_range row hrow).2
  have hk8 := (ht.k_range row hrow).2
  refine map_congr_left fun column hcolumn => ?_
  have hcolumn := mem_range.mp hcolumn
  simp only [Code.mk.injEq]
  rw [h.layout, h.group, h.anchors, hq, hk, hqBit, hkBit, hmBit]
  exact ⟨h.q.unpack hq8 (hcolumn.trans_le ht.width_le), h.scale.unpack hk8 (ht.group_lt hcolumn),
    h.minimum.unpack hk8 (ht.group_lt hcolumn), hscale, hmin⟩

end Holds

/-- The bytes of a row in a batch, guard bytes included. -/
def rowBytes (item : NintRows × Nat) : Nat :=
  ((item.1.qStream item.2).size + 1) + ((item.1.scaleStream item.2).size + 1) +
    ((item.1.minStream item.2).size + 1)

theorem rowBytes_eq (t : NintRows) (row : Nat) :
    rowBytes (t, row) = ((t.qStream row).size + 1) + ((t.scaleStream row).size + 1) +
      ((t.minStream row).size + 1) :=
  rfl

/-- The batch carries these rows, one after the other. -/
structure Carries (b : NintRowBatch) (items : List (NintRows × Nat)) : Prop where
  rows : List.Forall₂ (fun d item => Holds b.packed d item.1 item.2) b.descriptors items
  size : b.packed.length = (items.map rowBytes).sum

namespace Carries

variable {b c : NintRowBatch} {xs ys : List (NintRows × Nat)}

theorem empty (width : Nat) : Carries { width := width } [] := ⟨.nil, rfl⟩

theorem length (h : Carries b xs) : b.descriptors.length = xs.length := h.rows.length_eq

theorem merge (h : Carries b xs) (hc : Carries c ys) : Carries (b.merge c) (xs ++ ys) where
  rows := by
    refine rel_append (h.rows.imp fun d item hd => hd.of_isPrefix (prefix_append _ _)) ?_
    rw [forall₂_map_left_iff]
    exact hc.rows.imp fun d item hd => hd.append_right b.packed
  size := by
    rw [NintRowBatch.merge, length_append, h.size, hc.size, map_append, sum_append]

theorem at_index (h : Carries b xs) {i : Nat} (hi : i < xs.length) :
    ∃ d, b.descriptors[i]? = some d ∧ Holds b.packed d (xs[i]).1 (xs[i]).2 := by
  have hlt : i < b.descriptors.length := h.length ▸ hi
  exact ⟨_, getElem?_eq_getElem hlt, h.rows.get hlt hi⟩

end Carries

end TyloQuant.NintRowPipeline
