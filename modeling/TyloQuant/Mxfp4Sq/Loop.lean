import TyloQuant.Mxfp4Sq.Copying

/-!
# The loop over the selected rows

Each row of `select_rows` adds its numbers to the planes, and after the last row the planes have
what they are to have.
-/

namespace TyloQuant.Mxfp4Sq

open Lib ByteFile Bits List

theorem readPackedBits_lt (data : Nat → UInt8) (offset index : Nat) {bits : Nat} (hbits : bits ≤ 8) :
    readPackedBits data offset index bits < 2 ^ bits := by
  rw [readPackedBits_eq data offset index hbits]
  exact field_lt _ _ _

namespace Choice

variable {x : Choice} {i : Nat} {s : SelectState} {result : Nat → UInt8} {count : Plane → Nat}

theorem set_next {p : Plane} {n v : Nat} (h : x.planes.Holds result count x.value)
    (hcount : count p = n) (hroom : x.planes.width p * (n + 1) ≤ 8 * x.planes.bytes p)
    (hwidth : x.planes.width p ≤ 8) (hvalue : x.value p n = v) (hv : v < 2 ^ x.planes.width p) :
    x.planes.Holds (writePackedBits result (x.planes.start p) n (x.planes.width p) v)
      (Function.update count p (n + 1)) x.value := by
  subst hcount hvalue
  exact h.set hroom hv fun k => bit_writePackedBits _ _ _ hwidth hv k

theorem set_qSelector (h : x.planes.Holds result (x.count i) x.value) (hi : i < x.ids.length) :
    x.planes.Holds (writePackedBits result x.dst.qSelectors i 2 (x.q i - 1))
      (Function.update (x.count i) .qSelectors (i + 1)) x.value := by
  have hq := x.q_range i
  rw [x.laid.qSelectors]
  exact set_next (p := .qSelectors) h rfl (x.room hi .qSelectors) (show 2 ≤ 8 by omega) rfl
    (show x.q i - 1 < 2 ^ 2 by omega)

theorem set_selectors (h : x.planes.Holds result count x.value)
    (hcount : count .selectors = sqCount x.q i * x.blocks) (hi : i < x.ids.length) (hq : x.q i ≠ 4) :
    x.planes.Holds (x.selecting.copySelectors (auxiliaryRow x.source x.src (x.id i))
        (sqCount x.q i) result)
      (Function.update count .selectors (sqCount x.q i * x.blocks + x.blocks)) x.value := by
  have hroom : 1 * (sqCount x.q (i + 1) * x.blocks) ≤ 8 * ((x.dst.sqRows * x.blocks + 7) / 8) :=
    x.room hi .selectors
  rw [sqCount_succ, if_neg hq, Nat.one_mul, Nat.succ_mul] at hroom
  have hvalue (j : Nat) (hj : j < x.blocks) : x.value .selectors (sqCount x.q i * x.blocks + j)
      = readPackedBits (byte x.source) x.src.selectors
        (auxiliaryRow x.source x.src (x.id i) * (x.src.width / 32) + x.columnBegin / 32 + j) 1 := by
    rw [value, (place_div_mod hj).1, (place_div_mod hj).2, sqId_eq hi hq, blockSelector,
      Nat.add_assoc]
  refine h.sets (p := Plane.selectors) (m := x.blocks) hcount ?_ (fun j hj => ?_) fun s j hj k => ?_
  · change 1 * _ ≤ 8 * ((x.dst.sqRows * x.blocks + 7) / 8)
    omega
  · rw [hvalue j hj]
    exact readPackedBits_lt _ _ _ (by omega)
  · rw [hvalue j hj]
    exact bit_writePackedBits s x.dst.selectors _ (by omega) (readPackedBits_lt _ _ _ (by omega)) k

theorem set_states (h : x.planes.Holds result count x.value)
    (hscales : count .scales = sqCount x.q i * 8) (hpalettes : count .palettes = sqCount x.q i * 8)
    (hi : i < x.ids.length) (hq : x.q i ≠ 4) :
    x.planes.Holds (x.selecting.copyStates (auxiliaryRow x.source x.src (x.id i))
        (sqCount x.q i) result)
      (Function.update (Function.update count .scales (sqCount x.q i * 8 + 8)) .palettes
        (sqCount x.q i * 8 + 8)) x.value := by
  have hroom := x.room hi .scales
  have hroom' := x.room hi .palettes
  change 2 * (sqCount x.q (i + 1) * 8) ≤ 8 * (x.dst.sqRows * 2) at hroom
  change 5 * (sqCount x.q (i + 1) * 8) ≤ 8 * (x.dst.sqRows * 5) at hroom'
  rw [sqCount_succ, if_neg hq] at hroom hroom'
  have hscale (j : Nat) (hj : j < 8) : x.value .scales (sqCount x.q i * 8 + j)
      = readPackedBits (byte x.source) x.src.scales
        (auxiliaryRow x.source x.src (x.id i) * 8 + j) 2 := by
    rw [value, (place_div_mod hj).1, (place_div_mod hj).2, sqId_eq hi hq, stateScale]
  have hpalette (j : Nat) (hj : j < 8) : x.value .palettes (sqCount x.q i * 8 + j)
      = readPackedBits (byte x.source) x.src.palettes
        (auxiliaryRow x.source x.src (x.id i) * 8 + j) 5 := by
    rw [value, (place_div_mod hj).1, (place_div_mod hj).2, sqId_eq hi hq, statePalette]
  unfold Selecting.copyStates
  -- The two planes grow side by side.
  suffices hstates : ∀ m ≤ 8, x.planes.Holds ((List.range m).foldl (fun result state =>
      writePackedBits (writePackedBits result x.dst.scales (sqCount x.q i * 8 + state) 2
          (readPackedBits (byte x.source) x.src.scales
            (auxiliaryRow x.source x.src (x.id i) * 8 + state) 2))
        x.dst.palettes (sqCount x.q i * 8 + state) 5
        (readPackedBits (byte x.source) x.src.palettes
          (auxiliaryRow x.source x.src (x.id i) * 8 + state) 5)) result)
      (Function.update (Function.update count .scales (sqCount x.q i * 8 + m)) .palettes
        (sqCount x.q i * 8 + m)) x.value from hstates 8 le_rfl
  intro m hm
  induction m with
  | zero =>
    rw [Nat.add_zero, ← hscales, Function.update_eq_self, hscales, ← hpalettes,
      Function.update_eq_self]
    exact h
  | succ m ih =>
    have hm' : m < 8 := by omega
    rw [range_succ, foldl_append]
    have hset := set_next (p := .scales) (ih (by omega)) (by simp)
      (show 2 * (sqCount x.q i * 8 + m + 1) ≤ 8 * (x.dst.sqRows * 2) by omega)
      (show 2 ≤ 8 by omega) (hscale m hm') (readPackedBits_lt _ _ _ (by omega))
    have hset' := set_next (p := .palettes) hset (by simp)
      (show 5 * (sqCount x.q i * 8 + m + 1) ≤ 8 * (x.dst.sqRows * 5) by omega)
      (show 5 ≤ 8 by omega) (hpalette m hm') (readPackedBits_lt _ _ _ (by omega))
    have hcounts : Function.update (Function.update (Function.update (Function.update count
        .scales (sqCount x.q i * 8 + m)) .palettes (sqCount x.q i * 8 + m)) .scales
          (sqCount x.q i * 8 + m + 1)) .palettes (sqCount x.q i * 8 + m + 1)
        = Function.update (Function.update count .scales (sqCount x.q i * 8 + (m + 1)))
            .palettes (sqCount x.q i * 8 + (m + 1)) := by
      funext p
      cases p <;> simp [Function.update, Nat.add_assoc]
    rw [hcounts] at hset'
    exact hset'

theorem put_symbols (h : x.planes.Holds result count x.value)
    (hcount : count .symbols = x.symbolStart i) (hi : i < x.ids.length) :
    x.planes.Holds (put result (x.dst.symbols + x.symbolStart i) (x.dst.width * x.q i / 8) fun k =>
        byte x.source (x.src.symbols + symbolOffset x.source x.src (x.id i)
          + x.columnBegin * x.q i / 8 + k))
      (Function.update count .symbols (x.symbolStart (i + 1))) x.value := by
  have hroom := x.symbolStart_mono hi
  have hput := h.put (p := .symbols) (m := x.dst.width * x.q i / 8)
    (t := fun k => byte x.source (x.src.symbols + symbolOffset x.source x.src (x.id i)
      + x.columnBegin * x.q i / 8 + k)) rfl
    (by rw [hcount, ← symbolStart_succ]; exact hroom)
    (fun j hj => by rw [hcount, value_symbols hi hj, rowSymbols, Nat.add_assoc _ _ j])
  rw [hcount, ← symbolStart_succ] at hput
  exact hput

theorem put_nativeScales (h : x.planes.Holds result count x.value)
    (hcount : count .nativeScales = nativeCount x.q i * x.blocks) (hi : i < x.ids.length)
    (hq : x.q i = 4) :
    x.planes.Holds (put result (x.dst.nativeScales + nativeCount x.q i * x.blocks) x.blocks fun k =>
        byte x.source (x.src.nativeScales + auxiliaryRow x.source x.src (x.id i) * (x.src.width / 32)
          + x.columnBegin / 32 + k))
      (Function.update count .nativeScales (nativeCount x.q i * x.blocks + x.blocks)) x.value := by
  have hroom : 8 * (nativeCount x.q (i + 1) * x.blocks) ≤ 8 * (x.dst.sq4Rows * x.blocks) :=
    x.room hi .nativeScales
  rw [nativeCount_succ, if_pos hq] at hroom
  have hroom := Nat.le_of_mul_le_mul_left hroom (by omega)
  rw [Nat.succ_mul] at hroom
  have hput := h.put (p := .nativeScales) (m := x.blocks)
    (t := fun k => byte x.source (x.src.nativeScales
      + auxiliaryRow x.source x.src (x.id i) * (x.src.width / 32) + x.columnBegin / 32 + k)) rfl
    (by rw [hcount]; exact hroom)
    (fun j hj => by
      rw [hcount, value, (place_div_mod hj).1, (place_div_mod hj).2, nativeId_eq hi hq, nativeScale]
      simp only [Nat.add_assoc])
  rw [hcount] at hput
  exact hput

/-- **One row adds its numbers to the planes.** -/
theorem copied_step (hi : i < x.ids.length) (h : x.Copied i s) :
    x.Copied (i + 1) (x.selecting.step s (x.id i, i)) := by
  have hq : x.selecting.sourceRows.q.getD (x.id i) 0 = x.q i := getD_metadata _ _ hi
  have hoffset : x.selecting.sourceRows.symbolByteOffsets.getD (x.id i) 0
      = symbolOffset x.source x.src (x.id i) := getD_metadata _ _ hi
  have hauxiliary : x.selecting.sourceRows.auxiliaryRows.getD (x.id i) 0
      = auxiliaryRow x.source x.src (x.id i) := getD_metadata _ _ hi
  have hsymbols := put_symbols (set_qSelector h.holds hi) (by simp [Choice.count]) hi
  have hstart := h.symbol
  have hsucc := x.symbolStart_succ i
  unfold Selecting.step
  dsimp only
  rw [hq, hoffset, hauxiliary, hstart, h.sqRow, h.nativeRow]
  by_cases hfour : x.q i = 4
  · rw [if_pos hfour]
    have hscales := put_nativeScales hsymbols (by simp [Choice.count]) hi hfour
    refine ⟨?_, ?_, ?_, ?_⟩
    · have hcounts : Function.update (Function.update (Function.update (x.count i) .qSelectors
          (i + 1)) .symbols (x.symbolStart (i + 1))) .nativeScales
            (nativeCount x.q i * x.blocks + x.blocks) = x.count (i + 1) := by
        funext p
        cases p <;> simp [Function.update, Choice.count, sqCount_succ, nativeCount_succ, hfour,
          Nat.succ_mul]
      rw [← hcounts]
      exact hscales
    · change x.dst.symbols + x.symbolStart i + x.dst.width * x.q i / 8 = _
      omega
    · rw [sqCount_succ, if_pos hfour]
      rfl
    · rw [nativeCount_succ, if_pos hfour]
  · rw [if_neg hfour]
    have hselectors := set_selectors hsymbols (by simp [Choice.count]) hi hfour
    have hstates := set_states hselectors (by simp [Choice.count]) (by simp [Choice.count]) hi hfour
    refine ⟨?_, ?_, ?_, ?_⟩
    · have hcounts : Function.update (Function.update (Function.update (Function.update
          (Function.update (x.count i) .qSelectors (i + 1)) .symbols (x.symbolStart (i + 1)))
          .selectors (sqCount x.q i * x.blocks + x.blocks)) .scales (sqCount x.q i * 8 + 8))
          .palettes (sqCount x.q i * 8 + 8) = x.count (i + 1) := by
        funext p
        cases p <;> simp [Function.update, Choice.count, sqCount_succ, nativeCount_succ, hfour,
          Nat.succ_mul]
      rw [← hcounts]
      exact hstates
    · change x.dst.symbols + x.symbolStart i + x.dst.width * x.q i / 8 = _
      omega
    · rw [sqCount_succ, if_neg hfour]
    · rw [nativeCount_succ, if_neg hfour]
      rfl

theorem copied_zero : x.Copied 0
    { result := put (fun _ => 0) 0 24 (byte (header x.src.base x.ids.length x.dst.width))
      symbol := x.dst.symbols, sqRow := 0, nativeRow := 0 } := by
  refine ⟨?_, ?_, rfl, rfl⟩
  · have hput := (Planes.holds_zeros x.planes x.value).put (p := Plane.header) (m := 24)
      (t := byte (header x.src.base x.ids.length x.dst.width)) rfl le_rfl fun j _ => by
        rw [Nat.zero_add]
        rfl
    have hcounts : Function.update (fun _ => 0) Plane.header (0 + 24) = x.count 0 := by
      funext p
      cases p <;> simp [Function.update, Choice.count, symbolStart, sqCount, nativeCount]
    rw [hcounts] at hput
    exact hput
  · simp [symbolStart]

/-- **After the last row the planes have what they are to have.** -/
theorem copied_all : x.Copied x.ids.length (x.ids.zipIdx.foldl x.selecting.step
    { result := put (fun _ => 0) 0 24 (byte (header x.src.base x.ids.length x.dst.width))
      symbol := x.dst.symbols, sqRow := 0, nativeRow := 0 }) := by
  have hzip : x.ids.zipIdx = (List.range x.ids.length).map fun i => (x.id i, i) := by
    apply ext_getElem
    · simp
    · intro i hi hi'
      have hi'' : i < x.ids.length := by simpa using hi
      rw [getElem_zipIdx, getElem_map, getElem_range, id,
        getD_eq_getElem _ _ hi'', Nat.zero_add]
  suffices hrows : ∀ n ≤ x.ids.length, x.Copied n (((List.range n).map fun i => (x.id i, i)).foldl
      x.selecting.step
        { result := put (fun _ => 0) 0 24 (byte (header x.src.base x.ids.length x.dst.width))
          symbol := x.dst.symbols, sqRow := 0, nativeRow := 0 }) by
    rw [hzip]
    exact hrows _ le_rfl
  intro n hn
  induction n with
  | zero => exact copied_zero
  | succ n ih =>
    rw [range_succ, map_append, foldl_append]
    exact copied_step hn (ih (by omega))

end Choice

end TyloQuant.Mxfp4Sq
