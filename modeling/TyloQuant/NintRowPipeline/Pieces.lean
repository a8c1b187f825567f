import Mathlib.Algebra.Order.BigOperators.Group.List
import Mathlib.Algebra.Order.Group.Nat
import TyloQuant.NintRowPipeline.Wire

/-!
# Reading, copying and joining rows

What `append_rows`, `copy_row` and `append_batch` return carries the rows that were asked for.
They throw only when one of these rows cannot be read or their bytes are too many.
-/

namespace TyloQuant.NintRowPipeline

open Lib ByteFile List

variable {t : NintRows} {row : Nat} {packed : List UInt8} {s : Stream} {b c : NintRowBatch}
  {xs ys : List (NintRows × Nat)}

/-! ### Faults -/

/-- The rows do not fit into one batch. -/
def TooMany (width : Nat) (items : List (NintRows × Nat)) : Prop :=
  intMax / 6 < items.length ∨ uint32Max < items.length * width ∨ intMax < (items.map rowBytes).sum

/-- The rows of a table, as items. -/
def NintRows.items (t : NintRows) (rows : List Nat) : List (NintRows × Nat) :=
  rows.map fun row => (t, row)

/-- Why reading rows of a table may fail. -/
def RowFault (t : NintRows) (unreadable : Nat → Bool) (rows : List Nat) : RowError → Prop
  | .read row => row ∈ rows ∧ unreadable row = true
  | .anchors row => row ∈ rows ∧ t.Unanchored row
  | .exceedsBounds => TooMany t.width (t.items rows)
  | _ => False

variable {width : Nat}

theorem TooMany.of_sublist (h : TooMany width xs) (hsub : xs.Sublist ys) : TooMany width ys := by
  have hlength := hsub.length_le
  rcases h with hcount | hwidth | hsize
  · exact Or.inl (hcount.trans_le hlength)
  · exact Or.inr (Or.inl (hwidth.trans_le (Nat.mul_le_mul_right _ hlength)))
  · refine Or.inr (Or.inr (hsize.trans_le ?_))
    exact (hsub.map rowBytes).sum_le_sum fun _ _ => Nat.zero_le _

/-! ### Reading -/

namespace NintRows

theorem copyStream_obeys (h : t.InFile s) (packed : List UInt8) :
    Obeys (fun packed' => packed <+: packed' ∧ packed'.length = packed.length + (s.size + 1) ∧
        Copied packed' packed.length t.bytes s)
      (fun e => e = .exceedsBounds ∧ intMax < packed.length + (s.size + 1))
      (t.copyStream s packed) := by
  rw [InFile] at h
  refine Obeys.guard (fun hthrow => ⟨rfl, ?_⟩) fun _ => ⟨?_, ?_, Copied.of_window packed t.bytes s _⟩
  · have hpos : 1 ≤ intMax := by decide
    omega
  · rw [List.append_assoc]
    exact prefix_append _ _
  · simp only [length_append, length_window, length_singleton]
    omega

theorem appendStreams_obeys (ht : t.Opened) (hrow : row < t.rows) (hb : Carries b xs) :
    Obeys (fun b' => Carries b' (xs ++ [(t, row)]) ∧ b'.width = t.width)
      (fun e => e = .exceedsBounds ∧ intMax < ((xs ++ [(t, row)]).map rowBytes).sum)
      (t.appendStreams b row) := by
  obtain ⟨hq, hscale, hmin⟩ := ht.inFile row hrow
  have hsum : ((xs ++ [(t, row)]).map rowBytes).sum = b.packed.length + rowBytes (t, row) := by
    rw [hb.size, map_append, sum_append, map_singleton, sum_singleton]
  rw [hsum, rowBytes_eq]
  refine ((copyStream_obeys hq _).weaken (fun _ h => h) fun e he => ⟨he.1, by omega⟩).bind ?_
  rintro first ⟨hfirst, hfirstLength, hfirstCopied⟩
  refine ((copyStream_obeys hscale _).weaken (fun _ h => h) fun e he => ⟨he.1, by omega⟩).bind ?_
  rintro second ⟨hsecond, hsecondLength, hsecondCopied⟩
  refine ((copyStream_obeys hmin _).weaken (fun _ h => h) fun e he => ⟨he.1, by omega⟩).bind ?_
  rintro third ⟨hthird, hthirdLength, hthirdCopied⟩
  refine ⟨⟨rel_append (hb.rows.imp fun d item hd => ?_) (.cons ?_ .nil), ?_⟩, rfl⟩
  · exact hd.of_isPrefix (hfirst.trans (hsecond.trans hthird))
  · exact ⟨hfirstCopied.of_isPrefix (hsecond.trans hthird), hsecondCopied.of_isPrefix hthird,
      hthirdCopied, rfl, rfl, rfl⟩
  · change third.length = _
    rw [hsum, rowBytes_eq]
    omega

theorem items_append (t : NintRows) (rows rows' : List Nat) :
    t.items (rows ++ rows') = t.items rows ++ t.items rows' :=
  map_append

/-- The rows read so far are not too many when all of them are not. -/
theorem tooMany_of_prefix {done rest : List Nat}
    (h : intMax < ((t.items done ++ [(t, row)]).map rowBytes).sum) :
    TooMany width (t.items (done ++ row :: rest)) := by
  refine TooMany.of_sublist (Or.inr (Or.inr h)) ?_
  rw [items_append]
  exact (List.Sublist.refl _).append (.cons_cons _ (nil_sublist _))

/-- The rows so far, in a batch of the table's width. -/
def Filled (t : NintRows) (rows : List Nat) (b : NintRowBatch) : Prop :=
  Carries b (t.items rows) ∧ (b.width = 0 ∨ b.width = t.width) ∧ (rows ≠ [] → b.width = t.width)

variable {unreadable : Nat → Bool} {rows : List Nat}

theorem Filled.appended {done : List Nat} (h : Carries b (t.items done ++ [(t, row)]))
    (hwidth : b.width = t.width) : t.Filled (done ++ [row]) b :=
  ⟨by rw [items_append]; exact h, Or.inr hwidth, fun _ => hwidth⟩

theorem appendRow_loop (ht : t.Opened) (hrows : ∀ row ∈ rows, row < t.rows) :
    Obeys (t.Filled rows) (RowFault t unreadable rows) (rows.foldlM (t.appendRow unreadable) {}) := by
  refine Obeys.foldlM (fun done row rest b hsplit hb => ?_) ⟨Carries.empty 0, Or.inl rfl, by simp⟩
  have hmem : row ∈ rows := by
    rw [hsplit]
    simp
  have hrow := hrows row hmem
  refine Obeys.guard (fun hrange => absurd hrow (by omega)) fun _ => ?_
  refine Obeys.guard (fun hwidth => (hb.2.1.elim hwidth.1 hwidth.2).elim) fun _ => ?_
  refine Obeys.guard (fun hread => ⟨hmem, hread⟩) fun _ => ?_
  refine Obeys.guard (fun hanchors => ⟨hmem, hanchors⟩) fun _ => ?_
  refine (appendStreams_obeys ht hrow hb.1).weaken (fun b' hb' => Filled.appended hb'.1 hb'.2) ?_
  rintro e ⟨rfl, hsize⟩
  rw [hsplit]
  exact tooMany_of_prefix hsize

theorem batchedPiece_obeys (ht : t.Opened) (hrows : ∀ row ∈ rows, row < t.rows) :
    Obeys (t.Filled rows) (RowFault t unreadable rows) (t.batchedPiece unreadable rows) := by
  have hloop : Obeys (t.Filled rows) (RowFault t unreadable rows)
      (rows.foldlM t.appendStreams { width := t.width }) := by
    refine Obeys.foldlM (fun done row rest b hsplit hb => ?_)
      ⟨Carries.empty t.width, Or.inr rfl, fun _ => rfl⟩
    have hrow : row < t.rows := hrows row (by rw [hsplit]; simp)
    refine (appendStreams_obeys ht hrow hb.1).weaken (fun b' hb' => Filled.appended hb'.1 hb'.2) ?_
    rintro e ⟨rfl, hsize⟩
    rw [hsplit]
    exact tooMany_of_prefix hsize
  refine hloop.bind fun result hresult => ?_
  cases hread : rows.find? unreadable with
  | some row => exact ⟨mem_of_find?_eq_some hread, find?_some hread⟩
  | none =>
    cases hanchors : rows.find? fun row => t.Unanchored row with
    | some row =>
      have hfound := @find?_some _ (fun row => decide (t.Unanchored row)) row rows hanchors
      exact ⟨mem_of_find?_eq_some hanchors, of_decide_eq_true hfound⟩
    | none => exact hresult

theorem appendRows_obeys (ht : t.Opened) (hrows : ∀ row ∈ rows, row < t.rows) :
    Obeys (t.Filled rows) (RowFault t unreadable rows) (t.appendRows unreadable rows {}) := by
  by_cases hnil : rows = []
  · subst hnil
    exact ⟨Carries.empty 0, Or.inl rfl, by simp⟩
  · rw [appendRows, if_neg hnil]
    refine Obeys.guard (fun hsize => ?_) fun _ => ?_
    · simp only [ne_eq, not_true_eq_false, false_and, length_nil, Nat.not_lt_zero, gt_iff_lt,
        Nat.sub_zero, Nat.zero_add, false_or] at hsize
      have hlength : (t.items rows).length = rows.length := length_map _
      rcases hsize with hcount | hwidth
      · exact Or.inl (hlength ▸ hcount)
      · refine Or.inr (Or.inl ?_)
        have hmul := (Nat.div_lt_iff_lt_mul ht.width_pos).mp hwidth
        rwa [← hlength] at hmul
    · have hfind : (rows.find? fun row => decide (row ≥ t.rows)) = none := by
        refine find?_eq_none.mpr fun row hrow => ?_
        have hlt := hrows row hrow
        rw [decide_eq_true_iff]
        omega
      rw [hfind]
      have hpiece : Obeys (t.Filled rows) (RowFault t unreadable rows) (t.piece unreadable rows) := by
        rw [piece]
        split
        · exact batchedPiece_obeys ht hrows
        · exact appendRow_loop ht hrows
      refine hpiece.bind ?_
      intro piece hfilled
      refine Obeys.guard (fun hsize => ?_) fun _ => ?_
      · refine Or.inr (Or.inr ?_)
        have hlength := hfilled.1.size
        rw [length_nil] at hsize
        change intMax < ((t.items rows).map rowBytes).sum
        omega
      · have hmerge := (Carries.empty 0).merge hfilled.1
        exact ⟨hmerge, hfilled.2⟩

end NintRows

/-! ### Joining -/

namespace NintRowBatch

/-- A batch takes the rows of another one of its width. -/
theorem appendBatch_obeys (hb : Carries b xs) (hc : Carries c ys)
    (hbWidth : b.width = 0 ∨ b.width = width) (hcWidth : c.width = width) (hys : ys ≠ []) :
    Obeys (fun b' => Carries b' (xs ++ ys) ∧ b'.width = width)
      (fun e => (e = .batchSize ∨ e = .exceedsBounds) ∧ TooMany width (xs ++ ys))
      (b.appendBatch c) := by
  have hlength : (xs ++ ys).length = b.descriptors.length + c.descriptors.length := by
    rw [length_append, hb.length, hc.length]
  have hsize : ((xs ++ ys).map rowBytes).sum = b.packed.length + c.packed.length := by
    rw [map_append, sum_append, hb.size, hc.size]
  have hvalid : Obeys (fun _ => True)
      (fun e => (e = .batchSize ∨ e = .exceedsBounds) ∧ TooMany width (xs ++ ys)) c.validate := by
    refine Obeys.guard (fun hthrow => ⟨Or.inl rfl, ?_⟩) fun _ => trivial
    refine TooMany.of_sublist ?_ (sublist_append_right xs ys)
    rw [hc.length, hcWidth] at hthrow
    rcases hthrow with hzero | hcount | hwide
    · exact absurd (eq_nil_of_length_eq_zero hzero) hys
    · exact Or.inl hcount
    · exact Or.inr (Or.inl hwide)
  refine hvalid.bind fun _ _ => ?_
  refine Obeys.guard (fun hwidth => ?_) fun _ => ?_
  · exact (hbWidth.elim hwidth.1 fun h => hwidth.2 (h.trans hcWidth.symm)).elim
  · refine Obeys.guard (fun hthrow => ⟨Or.inr rfl, ?_⟩) fun _ => ⟨hb.merge hc, hcWidth⟩
    rw [TooMany, hlength, hsize, ← hcWidth]
    omega

theorem copyWire_obeys {bytes : Nat → UInt8} {at' : Nat} (h : Copied b.packed at' bytes s)
    (packed : List UInt8) :
    Obeys (fun packed' => packed <+: packed' ∧ packed'.length = packed.length + (s.size + 1) ∧
        Copied packed' packed.length bytes s)
      (fun _ => False) (b.copyWire at' s.size packed) := by
  have hroom := h.1
  refine Obeys.guard (fun hthrow => by omega) fun _ => ?_
  rw [h.window]
  refine ⟨?_, ?_, Copied.of_window packed bytes s _⟩
  · rw [List.append_assoc]
    exact prefix_append _ _
  · simp only [length_append, length_window, length_singleton]
    omega

theorem copyRow_obeys (ht : t.Opened) (hrow : row < t.rows) {i : Nat} {d : Descriptor}
    (hd : b.descriptors[i]? = some d) (h : Holds b.packed d t row) (hwidth : b.width = t.width) :
    Obeys (fun c => Carries c [(t, row)] ∧ c.width = t.width)
      (fun e => (e = .batchSize ∨ e = .exceedsBounds) ∧ TooMany t.width [(t, row)])
      (b.copyRow i {}) := by
  obtain ⟨hq, hk, hqBit, hkBit, hmBit⟩ := ht.layout hrow
  have hgroups : (b.width + d.group - 1) / d.group = t.groups := by
    rw [hwidth, h.group, ht.groups_eq]
  rw [copyRow, hd]
  simp only
  rw [hgroups, h.layout, h.group, hq, hk, hqBit, hkBit, hmBit, hwidth]
  have hfirst := copyWire_obeys h.q []
  refine (hfirst.weaken (fun _ h => h) fun _ => False.elim).bind ?_
  rintro first ⟨hgrown, hfirstLength, hfirstCopied⟩
  refine ((copyWire_obeys h.scale first).weaken (fun _ h => h) fun _ => False.elim).bind ?_
  rintro second ⟨hsecond, hsecondLength, hsecondCopied⟩
  refine ((copyWire_obeys h.minimum second).weaken (fun _ h => h) fun _ => False.elim).bind ?_
  rintro third ⟨hthird, hthirdLength, hthirdCopied⟩
  have hone : Carries
      { packed := third
        descriptors := [⟨0, first.length, second.length, t.layout row, t.groupSize, d.anchors⟩]
        width := t.width } [(t, row)] := by
    refine ⟨.cons ⟨hfirstCopied.of_isPrefix (hsecond.trans hthird),
      hsecondCopied.of_isPrefix hthird, hthirdCopied, rfl, rfl, h.anchors⟩ .nil, ?_⟩
    rw [map_singleton, sum_singleton, rowBytes_eq]
    rw [length_nil] at hfirstLength
    simp only
    omega
  exact appendBatch_obeys (Carries.empty 0) hone (Or.inl rfl) rfl (by simp)

end NintRowBatch

end TyloQuant.NintRowPipeline
