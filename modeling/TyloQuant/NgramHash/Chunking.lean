import Mathlib.Algebra.GroupWithZero.Nat
import TyloQuant.NgramHash.Retained

/-!
# Chunks of a token matrix

A matrix is hashed in one call or in several, one for each of some successive columns.  What the
calls give for a row, put together, are the hashes that the row itself defines; so the split does
not matter.
-/

namespace TyloQuant.NgramHash

open Lib List

namespace EngramHashState

/-! ### `forward` in chunks -/

/-- The columns of a matrix in successive calls. -/
def forwardChunks (st : EngramHashState) (m : TokenMatrix) (masked : Bool) :
    Nat → List Nat → List (Except EngramError EngramHashBatch) × EngramHashState
  | _, [] => ([], st)
  | pos, width :: widths =>
    let call := m.columns pos width
    let (result, st) := st.forward (some call.ids) m.batch width pos
      (if masked then some call.mask else none)
    let (results, st) := forwardChunks st m masked (pos + width) widths
    (result :: results, st)

/-- The hashes of a row in a table, token after token. -/
def layerRow (layer bi : Nat) (result : EngramHashBatch) : List Int :=
  part result.values ((layer * result.batch + bi) * (result.tokens * result.columns))
    (result.tokens * result.columns)

/-- The hashes that a row defines in a table. -/
def rowSpec (st : EngramHashState) (row : List Int) (layer start count : Nat) : List Int :=
  (List.range count).flatMap fun token => st.tokenHashes row (start + token) layer

variable {st : EngramHashState} {m c : TokenMatrix} {row : List Int} {layer start count : Nat}

@[simp] theorem length_rowSpec : (st.rowSpec row layer start count).length = count * st.columns := by
  simp [rowSpec, length_flatMap]

theorem rowSpec_add {more : Nat} :
    st.rowSpec row layer start (count + more) =
      st.rowSpec row layer start count ++ st.rowSpec row layer (start + count) more := by
  rw [rowSpec, range_add, flatMap_append, rowSpec, rowSpec, flatMap_map]
  simp only [Nat.add_assoc]

/-- A hash does not depend on the tokens that follow. -/
theorem rowSpec_take {length : Nat} (h : start + count ≤ length) :
    st.rowSpec (row.take length) layer start count = st.rowSpec row layer start count := by
  refine flatMap_congr fun token htoken => ?_
  have hlt : start + token < length := by
    have := mem_range.mp htoken
    omega
  have hcut : cutAtImage st.padId (row.take length) (start + token) =
      cutAtImage st.padId row (start + token) := by
    funext back
    simp only [cutAtImage, tokenAt_take hlt]
  rw [tokenHashes, hcut]
  rfl

theorem layerRow_hashesOf {bi : Nat} (hlayer : layer < st.parameters.layerIds.length)
    (hbi : bi < c.batch) :
    layerRow layer bi (st.hashesOf m c) =
      st.rowSpec ((m.append c).row st.parameters bi) layer m.width c.width := by
  have hrows : ∀ layer < st.parameters.layerIds.length,
      ((List.range c.batch).flatMap fun bi =>
        st.rowSpec ((m.append c).row st.parameters bi) layer m.width c.width).length =
      c.batch * (c.width * st.columns) := fun _ _ => by
    simp [length_flatMap]
  have hin : bi * (c.width * st.columns) + c.width * st.columns ≤
      c.batch * (c.width * st.columns) := by
    rw [← Nat.succ_mul]
    exact Nat.mul_le_mul_right _ hbi
  have hplace : (layer * c.batch + bi) * (c.width * st.columns) =
      layer * (c.batch * (c.width * st.columns)) + bi * (c.width * st.columns) := by
    rw [Nat.add_mul, Nat.mul_assoc]
  change part ((List.range st.parameters.layerIds.length).flatMap fun layer =>
    (List.range c.batch).flatMap fun bi =>
      st.rowSpec ((m.append c).row st.parameters bi) layer m.width c.width)
    ((layer * c.batch + bi) * (c.width * st.columns)) (c.width * st.columns) = _
  rw [hplace, part_flatMap_range hrows hlayer hin]
  exact part_row (fun _ _ => length_rowSpec) hbi

theorem rowSpec_base {batch pos0 : Int} :
    (st.base batch pos0).rowSpec row layer start count = st.rowSpec row layer start count := by
  unfold base
  split <;> rfl

theorem rowSpec_after :
    (st.after c).rowSpec row layer start count = st.rowSpec row layer start count := by
  obtain ⟨kept, hkept⟩ := st.after_eq c
  rw [hkept]
  rfl

theorem parameters_after : (st.after c).parameters = st.parameters := by
  obtain ⟨kept, hkept⟩ := st.after_eq c
  rw [hkept]
  rfl

theorem Inside.after (h : st.Inside) : (st.after c).Inside := by
  obtain ⟨kept, hkept⟩ := st.after_eq c
  rw [hkept]
  exact ⟨h.two_le, h.le_bound, h.bucket⟩

theorem forward_columns (hin : st.Inside) (hbatch : 0 < m.batch) (hvalid : m.Valid st.parameters)
    {masked : Bool} (hmask : masked = false → ∀ bi column, m.image bi column = false)
    {pos width : Nat} (hwidth : 0 < width) (hfit : pos + width ≤ m.width)
    (hr : (st.base m.batch pos).Retains (m.first pos)) :
    ∃ result next, st.forward (some (m.columns pos width).ids) m.batch width pos
        (if masked then some (m.columns pos width).mask else none) = (.ok result, next) ∧
      (result.batch = m.batch ∧ result.tokens = width ∧
        result.layers = st.parameters.layerIds.length ∧ result.columns = st.columns) ∧
      (∀ layer < st.parameters.layerIds.length, ∀ bi < m.batch,
        layerRow layer bi result = st.rowSpec (m.row st.parameters bi) layer pos width) ∧
      next = (st.base m.batch pos).after (TokenMatrix.ofCall (m.columns pos width).ids
        (if masked then some (m.columns pos width).mask else none) m.batch width) ∧
      next.Retains (m.first (pos + width)) := by
  set call := m.columns pos width
  set mask := if masked then some call.mask else none
  set chunk := TokenMatrix.ofCall call.ids mask m.batch width with hchunk
  have hchunkValid : chunk.Valid st.parameters := TokenMatrix.valid_ofCall (hvalid.columns hfit)
  have hrow : ∀ bi < m.batch, chunk.row st.parameters bi =
      part (m.row st.parameters bi) pos width := by
    intro bi hbi
    rw [← TokenMatrix.row_columns hfit]
    have hcallRow : bi < call.batch := hbi
    exact TokenMatrix.row_ofCall hcallRow masked fun h bi column => hmask h bi _
  have happend : ∀ bi < m.batch, ((m.first pos).append chunk).row st.parameters bi =
      (m.row st.parameters bi).take (pos + width) := by
    intro bi hbi
    rw [TokenMatrix.row_append, TokenMatrix.row_first (by omega), hrow bi hbi, part, ← take_add]
  have hrun : st.forward (some call.ids) m.batch width pos mask =
      (.ok ((st.base m.batch pos).hashesOf (m.first pos) chunk),
       (st.base m.batch pos).after chunk) := by
    have hcall := forward_eq hin hr (Int.natCast_pos.mpr hbatch) (Int.natCast_pos.mpr hwidth) rfl rfl
      hchunkValid
    simpa only [Int.toNat_natCast] using hcall
  refine ⟨_, _, hrun, ⟨rfl, rfl, ?_, ?_⟩, ?_, rfl, ?_⟩
  · rw [hashesOf, parameters_base]
  · unfold base
    split <;> rfl
  · intro layer hlayer bi hbi
    have hchunkRow : bi < chunk.batch := hbi
    rw [layerRow_hashesOf (by rwa [parameters_base]) hchunkRow, parameters_base, rowSpec_base,
      happend bi hbi]
    exact rowSpec_take (Nat.le_refl _)
  · have hafter : ((st.base m.batch pos).after chunk).Retains ((m.first pos).append chunk) :=
      hr.after rfl (by rw [parameters_base]; exact hchunkValid)
    refine hafter.congr rfl rfl (fun bi hbi => ?_) ?_
    · rw [parameters_after, parameters_base, happend bi hbi, TokenMatrix.row_first hfit]
    · rw [parameters_after, parameters_base]
      exact hvalid.first hfit

/-- The calls, put together, give what each row defines. -/
theorem forwardChunks_eq (hbatch : 0 < m.batch) {masked : Bool}
    (hmask : masked = false → ∀ bi column, m.image bi column = false) {widths : List Nat}
    (hwidths : ∀ width ∈ widths, 0 < width) {pos : Nat} (hfit : pos + widths.sum ≤ m.width)
    (hin : st.Inside) (hvalid : m.Valid st.parameters)
    (hr : (st.base m.batch pos).Retains (m.first pos)) :
    ∃ results : List EngramHashBatch,
      (st.forwardChunks m masked pos widths).1 = results.map Except.ok ∧
      results.map EngramHashBatch.tokens = widths ∧
      (∀ result ∈ results, result.batch = m.batch ∧
        result.layers = st.parameters.layerIds.length ∧ result.columns = st.columns) ∧
      (∀ layer < st.parameters.layerIds.length, ∀ bi < m.batch,
        results.flatMap (layerRow layer bi) =
          st.rowSpec (m.row st.parameters bi) layer pos widths.sum) ∧
      ((st.forwardChunks m masked pos widths).2.base m.batch ↑(pos + widths.sum)).Retains
        (m.first (pos + widths.sum)) := by
  induction widths generalizing st pos with
  | nil => exact ⟨[], rfl, rfl, by simp, fun _ _ _ _ => rfl, hr⟩
  | cons width widths ih =>
    have hwidth : 0 < width := hwidths width mem_cons_self
    rw [sum_cons] at hfit
    obtain ⟨result, next, hrun, ⟨hresultBatch, htokens, hlayers, hcolumns⟩, hrows, hnext, hretains⟩ :=
      forward_columns hin hbatch hvalid hmask hwidth (by omega) hr
    have hparameters : next.parameters = st.parameters := by
      rw [hnext, parameters_after, parameters_base]
    have hspec : ∀ row layer start count,
        next.rowSpec row layer start count = st.rowSpec row layer start count := by
      intro row layer start count
      rw [hnext, rowSpec_after, rowSpec_base]
    have hsameColumns : next.columns = st.columns := by
      obtain ⟨kept, hkept⟩ := (st.base m.batch pos).after_eq
        (TokenMatrix.ofCall (m.columns pos width).ids
          (if masked then some (m.columns pos width).mask else none) m.batch width)
      rw [hnext, hkept]
      unfold base
      split <;> rfl
    have hbase : next.base m.batch ↑(pos + width) = next := if_neg (by omega)
    obtain ⟨results, hresults, hwidthsEq, hshape, hrest, hfinal⟩ := ih
      (fun width h => hwidths width (mem_cons_of_mem _ h))
      (Nat.add_assoc pos width _ ▸ hfit) (hnext ▸ hin.base.after) (hparameters ▸ hvalid)
      (hbase.symm ▸ hretains)
    have hstep : st.forwardChunks m masked pos (width :: widths) =
        (.ok result :: (next.forwardChunks m masked (pos + width) widths).1,
          (next.forwardChunks m masked (pos + width) widths).2) := by
      simp only [forwardChunks]
      rw [hrun]
    rw [hstep]
    refine ⟨result :: results, ?_, ?_, ?_, ?_, ?_⟩
    · rw [hresults, map_cons]
    · rw [map_cons, htokens, hwidthsEq]
    · intro other hother
      rcases mem_cons.mp hother with rfl | hother
      · exact ⟨hresultBatch, hlayers, hcolumns⟩
      · have hothers := hshape other hother
        rwa [hparameters, hsameColumns] at hothers
    · intro layer hlayer bi hbi
      rw [flatMap_cons, hrows layer hlayer bi hbi,
        hrest layer (hparameters ▸ hlayer) bi hbi, hspec, hparameters, sum_cons, rowSpec_add]
    · rw [sum_cons, ← Nat.add_assoc]
      exact hfinal

end EngramHashState

end TyloQuant.NgramHash
