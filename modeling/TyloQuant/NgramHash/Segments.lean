import Mathlib.Algebra.GroupWithZero.Nat
import TyloQuant.NgramHash.Retained

/-!
# Segments of a row

`ngram_hashes` keeps no state: the caller hands it the context that the last call returned.  The
loop over a row with its context finds the start of the segment of each token, and a segment that
began before the context began early enough for every shift.
-/

namespace TyloQuant.NgramHash

open Lib List

/-! ### The loop over a row -/

/-- The start of the segment at a token of the loop. -/
def segmentAt (eos : Int) (row : List Int) : Nat → Nat
  | 0 => 0
  | token + 1 => if row.getD token 0 = eos then token + 1 else segmentAt eos row token

variable {p : NgramParameters} {eos : Int} {row before chunk : List Int} {token : Nat}

/-- A shift stays in the segment when no token it passes ends one. -/
theorem segmentAt_add_le {shift : Nat} :
    segmentAt eos row token + shift ≤ token ↔
      shift ≤ token ∧ ∀ near ≤ shift, 0 < near → row.getD (token - near) 0 ≠ eos := by
  induction token generalizing shift with
  | zero =>
    rw [segmentAt]
    constructor
    · intro h
      exact ⟨by omega, fun near hnear hpos => by omega⟩
    · rintro ⟨h, -⟩
      omega
  | succ token ih =>
    rw [segmentAt]
    split
    next hend =>
      constructor
      · intro h
        exact ⟨by omega, fun near hnear hpos => by omega⟩
      · rintro ⟨hle, hall⟩
        by_contra hne
        exact hall 1 (by omega) Nat.one_pos hend
    next hopen =>
      cases shift with
      | zero =>
        have hself : segmentAt eos row token + 0 ≤ token :=
          ih.mpr ⟨Nat.zero_le _, fun near hnear hpos => by omega⟩
        constructor
        · intro _
          exact ⟨Nat.zero_le _, fun near hnear hpos => by omega⟩
        · intro _
          omega
      | succ shift =>
        rw [← Nat.add_assoc, Nat.add_le_add_iff_right, ih, Nat.add_le_add_iff_right]
        refine and_congr_right fun hle => ⟨fun hall near hnear hpos => ?_,
          fun hall near hnear hpos => ?_⟩
        · cases near with
          | zero => omega
          | succ near =>
            rw [Nat.add_sub_add_right]
            by_cases hzero : near = 0
            · rw [hzero]
              exact hopen
            · exact hall near (by omega) (by omega)
        · have hlater := hall (near + 1) (by omega) (by omega)
          rwa [Nat.add_sub_add_right] at hlater

variable {k : Nat}

theorem rowHashes_eq (n : Nat) :
    rowHashes p row (List.range' k n) (segmentAt p.eos row k) =
      (List.range' k n).flatMap fun token =>
        if p.ngram.toNat - 1 ≤ token then segmentHashes p row (segmentAt p.eos row token) token
        else [] := by
  induction n generalizing k with
  | zero => rfl
  | succ n ih =>
    rw [range'_succ, rowHashes, flatMap_cons, ← ih]
    rfl

/-! ### The hashes of a token -/

/-- The hashes that a row defines at a position. -/
def NgramParameters.tokenHashes (p : NgramParameters) (row : List Int) (position : Nat) : List Int :=
  (List.range (p.ngram.toNat - 1)).flatMap fun s =>
    (List.range p.heads.toNat).map fun head =>
      let h := s * p.heads.toNat + head
      (rolling (cutAtEos p.eos row position) (fun k => p.multipliers.getD k 0) (s + 1)).toInt %
          p.vocab.getD h 0 +
        p.offsets.getD h 0

/-- The geometry and the table sizes that `ngram_hashes` checks. -/
structure NgramParameters.Fits (p : NgramParameters) : Prop where
  ngram : 1 < p.ngram
  heads : 0 < p.heads
  multipliers : p.multipliers.length = p.ngram
  offsets : p.offsets.length = (p.ngram - 1) * p.heads
  vocab : p.vocab.length = p.offsets.length
  sizes : ∀ size ∈ p.vocab, 0 < size

theorem NgramParameters.Fits.size_pos (h : p.Fits) {s head : Nat} (hs : s < p.ngram.toNat - 1)
    (hhead : head < p.heads.toNat) : 0 < p.vocab.getD (s * p.heads.toNat + head) 0 := by
  have hle : (s + 1) * p.heads.toNat ≤ (p.ngram.toNat - 1) * p.heads.toNat :=
    Nat.mul_le_mul_right _ hs
  have hlength : p.vocab.length = (p.ngram.toNat - 1) * p.heads.toNat := by
    have hngram : ((p.ngram.toNat - 1 : Nat) : Int) = p.ngram - 1 := by
      have := h.ngram
      omega
    have hheads : (p.heads.toNat : Int) = p.heads := Int.toNat_of_nonneg h.heads.le
    have hcast : (p.vocab.length : Int) = ((p.ngram.toNat - 1) * p.heads.toNat : Nat) := by
      rw [h.vocab, h.offsets, Int.natCast_mul, hngram, hheads]
    exact_mod_cast hcast
  rw [Nat.succ_mul] at hle
  rw [getD_eq_getElem _ _ (by omega)]
  exact h.sizes _ (getElem_mem _)

/-- In a row with its context, a token is cut where the whole row cuts it. -/
theorem segmentToken_eq {m : Nat} (hk : k ≤ m) :
    (if k = 0 then (window eos m before before.length ++ chunk).getD (m + token) 0
      else if segmentAt eos (window eos m before before.length ++ chunk) (m + token) + k ≤ m + token then
        (window eos m before before.length ++ chunk).getD (m + token - k) 0
      else eos) =
      cutAtEos eos (before ++ chunk) (before.length + token) k := by
  have hread : ∀ near ≤ k, (window eos m before before.length ++ chunk).getD (m + token - near) 0 =
        tokenAt eos (before ++ chunk) (before.length + token) near :=
    fun near hnear => getD_window_append (by omega)
  have hinside :
      segmentAt eos (window eos m before before.length ++ chunk) (m + token) + k ≤ m + token ↔
      ¬∃ near ≤ k, 0 < near ∧
        tokenAt eos (before ++ chunk) (before.length + token) near = eos := by
    rw [segmentAt_add_le]
    constructor
    · rintro ⟨-, hall⟩ ⟨near, hnear, hpos, hend⟩
      exact hall near hnear hpos ((hread near hnear).trans hend)
    · intro h
      exact ⟨by omega, fun near hnear hpos hend =>
        h ⟨near, hnear, hpos, (hread near hnear).symm.trans hend⟩⟩
  rw [cutAtEos]
  by_cases hzero : k = 0
  · subst hzero
    rw [if_pos rfl, if_neg (by rintro ⟨near, hnear, hpos, -⟩; omega)]
    exact hread 0 (Nat.le_refl 0)
  · rw [if_neg hzero]
    by_cases hcut : ∃ near ≤ k, 0 < near ∧
        tokenAt eos (before ++ chunk) (before.length + token) near = eos
    · rw [if_neg (mt hinside.mp (not_not.mpr hcut)), if_pos hcut]
    · rw [if_pos (hinside.mpr hcut), if_neg hcut, hread k (Nat.le_refl k)]

theorem segmentHashes_eq (h : p.Fits) :
    segmentHashes p (window p.eos (p.ngram.toNat - 1) before before.length ++ chunk)
        (segmentAt p.eos (window p.eos (p.ngram.toNat - 1) before before.length ++ chunk)
          (p.ngram.toNat - 1 + token)) (p.ngram.toNat - 1 + token) =
      p.tokenHashes (before ++ chunk) (before.length + token) := by
  refine flatMap_congr fun s hs => map_congr_left fun head hhead => ?_
  have hs := mem_range.mp hs
  have hrolling : ∀ multipliers : Nat → Int,
      rolling (fun k =>
        if k = 0 then (window p.eos (p.ngram.toNat - 1) before before.length ++ chunk).getD
          (p.ngram.toNat - 1 + token) 0
        else if segmentAt p.eos (window p.eos (p.ngram.toNat - 1) before before.length ++ chunk)
            (p.ngram.toNat - 1 + token) + k ≤ p.ngram.toNat - 1 + token then
          (window p.eos (p.ngram.toNat - 1) before before.length ++ chunk).getD
            (p.ngram.toNat - 1 + token - k) 0
        else p.eos) multipliers (s + 1) =
      rolling (cutAtEos p.eos (before ++ chunk) (before.length + token)) multipliers (s + 1) :=
    fun _ => rolling_congr fun k hk => segmentToken_eq (by omega)
  simp only
  rw [reduced_eq_emod (h.size_pos hs (mem_range.mp hhead)), hrolling]

/-- The loop gives the hashes of the tokens after the context. -/
theorem rowHashes_window (h : p.Fits) {width : Nat} :
    rowHashes p (window p.eos (p.ngram.toNat - 1) before before.length ++ chunk)
        (List.range (p.ngram.toNat - 1 + width)) 0 =
      (List.range width).flatMap fun token =>
        p.tokenHashes (before ++ chunk) (before.length + token) := by
  set row := window p.eos (p.ngram.toNat - 1) before before.length ++ chunk
  have hloop : rowHashes p row (List.range' 0 (p.ngram.toNat - 1 + width)) 0 = _ := rowHashes_eq _
  rw [← range_eq_range'] at hloop
  refine hloop.trans ?_
  rw [range_add, flatMap_append, flatMap_map]
  have hcontext : (List.range (p.ngram.toNat - 1)).flatMap (fun token =>
      if p.ngram.toNat - 1 ≤ token then
        segmentHashes p row (segmentAt p.eos row token) token
      else []) = [] := by
    refine flatMap_eq_nil_iff.mpr fun token htoken => if_neg ?_
    have := mem_range.mp htoken
    omega
  rw [hcontext, List.nil_append]
  refine flatMap_congr fun token _ => ?_
  rw [if_pos (Nat.le_add_right _ _), segmentHashes_eq h]

/-! ### `ngram_hashes` in chunks -/

/-- The tokens of a row, as they are. -/
def TokenMatrix.raw (m : TokenMatrix) (bi : Nat) : List Int := (List.range m.width).map (m.id bi)

/-- The context of a call at a position. -/
def Continues (p : NgramParameters) (m : TokenMatrix) (pos : Nat) (context : NgramContext)
    (cache : Bool) : Prop :=
  (pos = 0 ∧ (cache = false ∨ context.batch ≠ m.batch)) ∨
  (cache = true ∧ context.batch = m.batch ∧
    context.tokens = (List.range m.batch).flatMap fun bi =>
      window p.eos (p.ngram.toNat - 1) (m.raw bi) pos)

def NgramParameters.rowSpec (p : NgramParameters) (row : List Int) (start count : Nat) : List Int :=
  (List.range count).flatMap fun token => p.tokenHashes row (start + token)

/-- The columns of a matrix in successive calls, each with the context of the one before. -/
def ngramChunks (p : NgramParameters) (m : TokenMatrix) :
    NgramContext → Nat → List Nat → Except String (List (List Int) × NgramContext)
  | context, _, [] => .ok ([], context)
  | context, pos, width :: widths =>
    match ngramHashes p (m.columns pos width).ids m.batch width context true with
    | .error e => .error e
    | .ok result =>
      match ngramChunks p m result.next (pos + width) widths with
      | .error e => .error e
      | .ok (results, context) => .ok (result.ids :: results, context)

variable {m : TokenMatrix} {context : NgramContext} {cache : Bool} {pos width : Nat} {bi : Nat}

@[simp] theorem TokenMatrix.length_raw : (m.raw bi).length = m.width := by
  simp [TokenMatrix.raw]

variable {count start : Nat}

theorem rowSpec_take {length : Nat} (h : start + count ≤ length) :
    p.rowSpec (row.take length) start count = p.rowSpec row start count := by
  refine flatMap_congr fun token htoken => ?_
  have hlt : start + token < length := by
    have := mem_range.mp htoken
    omega
  have hcut : cutAtEos p.eos (row.take length) (start + token) =
      cutAtEos p.eos row (start + token) := by
    funext back
    simp only [cutAtEos, tokenAt_take hlt]
  rw [NgramParameters.tokenHashes, hcut]
  rfl

theorem raw_columns (h : pos + width ≤ m.width) :
    (m.columns pos width).raw bi = part (m.raw bi) pos width := by
  rw [TokenMatrix.raw, TokenMatrix.raw, part, ← map_drop, ← map_take, take_drop_range h,
    map_map]
  rfl

theorem Continues.ngramRow_eq (hc : Continues p m pos context cache)
    (hfit : pos + width ≤ m.width) (hbi : bi < m.batch) :
    ngramRow p (m.columns pos width).ids m.batch width context cache bi =
      window p.eos (p.ngram.toNat - 1) ((m.raw bi).take pos) ((m.raw bi).take pos).length ++
        part (m.raw bi) pos width := by
  have hchunk : part (m.columns pos width).ids (bi * width) width = part (m.raw bi) pos width := by
    rw [← raw_columns hfit]
    have hlength : ∀ bi < m.batch, ((m.columns pos width).raw bi).length = width := fun _ _ => by
      rw [TokenMatrix.length_raw]
      rfl
    exact part_row hlength hbi
  have hlength : ((m.raw bi).take pos).length = pos := by
    rw [length_take, TokenMatrix.length_raw]
    omega
  rw [ngramRow, hchunk, hlength, window_take]
  congr 1
  rcases hc with ⟨rfl, hstart⟩ | ⟨rfl, hbatch, htokens⟩
  · have hfresh : ¬(cache = true ∧ context.batch = m.batch) := by
      rintro ⟨rfl, hbatch⟩
      rcases hstart with h | h
      · cases h
      · exact h hbatch
    rw [if_neg hfresh, ← window_take, take_zero, window_nil]
  · rw [if_pos ⟨rfl, hbatch⟩, htokens]
    exact part_row (fun _ _ => length_window (by rw [TokenMatrix.length_raw]; omega)) hbi

theorem ngramHashes_columns (h : p.Fits) (hbatch : 0 < m.batch) (hwidth : 0 < width)
    (hfit : pos + width ≤ m.width) (hc : Continues p m pos context cache) :
    ∃ result, ngramHashes p (m.columns pos width).ids m.batch width context cache = .ok result ∧
      result.ids = ((List.range m.batch).flatMap fun bi => p.rowSpec (m.raw bi) pos width) ∧
      (cache = true → Continues p m (pos + width) result.next true) := by
  have hgeometry : ¬¬((0 : Int) < m.batch ∧ (0 : Int) < width ∧ 1 < p.ngram ∧ 0 < p.heads ∧
      p.multipliers.length = p.ngram ∧ p.offsets.length = (p.ngram - 1) * p.heads ∧
      p.vocab.length = p.offsets.length) :=
    not_not.mpr ⟨Int.natCast_pos.mpr hbatch, Int.natCast_pos.mpr hwidth, h.ngram, h.heads,
      h.multipliers, h.offsets, h.vocab⟩
  have hhistory : ¬¬(cache = false ∨ context.batch ≠ m.batch ∨
      (context.tokens.length : Int) = m.batch * (p.ngram - 1)) := by
    refine not_not.mpr ?_
    rcases hc with ⟨-, hstart⟩ | ⟨-, -, htokens⟩
    · exact hstart.imp_right Or.inl
    · refine Or.inr (Or.inr ?_)
      have hlength : ∀ bi, (window p.eos (p.ngram.toNat - 1) (m.raw bi) pos).length =
          p.ngram.toNat - 1 := fun bi => length_window (by rw [TokenMatrix.length_raw]; omega)
      have hngram : ((p.ngram.toNat - 1 : Nat) : Int) = p.ngram - 1 := by
        have := h.ngram
        omega
      rw [htokens, ← hngram, ← Int.natCast_mul]
      simp [length_flatMap, hlength]
  refine ⟨_, by rw [ngramHashes, if_neg hgeometry, if_neg (not_not.mpr h.sizes), if_neg hhistory],
    ?_, ?_⟩
  · simp only [Int.toNat_natCast]
    refine flatMap_congr fun bi hbi => ?_
    rw [hc.ngramRow_eq hfit (mem_range.mp hbi), rowHashes_window h, part, ← take_add,
      length_take, TokenMatrix.length_raw, Nat.min_eq_left (by omega)]
    exact rowSpec_take (Nat.le_refl _)
  · rintro rfl
    refine Or.inr ⟨rfl, ?_, ?_⟩
    · simp
    · simp only [Int.toNat_natCast, if_true]
      refine flatMap_congr fun bi hbi => ?_
      have hpart : (part (m.raw bi) pos width).length = width :=
        length_part (by rw [TokenMatrix.length_raw]; exact hfit)
      have hbefore : ((m.raw bi).take pos).length = pos := by
        rw [length_take, TokenMatrix.length_raw]
        omega
      have hjoin : (m.raw bi).take pos ++ part (m.raw bi) pos width =
          (m.raw bi).take (pos + width) := take_add.symm
      have hadvance : part (window p.eos (p.ngram.toNat - 1) ((m.raw bi).take pos)
          ((m.raw bi).take pos).length ++ part (m.raw bi) pos width)
            (part (m.raw bi) pos width).length (p.ngram.toNat - 1) = _ := window_advance
      rw [hpart, hbefore, hjoin] at hadvance
      rw [hc.ngramRow_eq hfit (mem_range.mp hbi), hbefore]
      exact hadvance.trans window_take

theorem rowSpec_add {more : Nat} :
    p.rowSpec row start (count + more) =
      p.rowSpec row start count ++ p.rowSpec row (start + count) more := by
  rw [NgramParameters.rowSpec, range_add, flatMap_append, NgramParameters.rowSpec,
    NgramParameters.rowSpec, flatMap_map]
  simp only [Nat.add_assoc]

/-- A row of the hashes of a call of some width. -/
def hashRow (p : NgramParameters) (bi : Nat) (ids : List Int) (width : Nat) : List Int :=
  part ids (bi * (width * ((p.ngram.toNat - 1) * p.heads.toNat)))
    (width * ((p.ngram.toNat - 1) * p.heads.toNat))

theorem hashRow_eq {rows : Nat → List Int} {batch : Nat} (hbi : bi < batch) :
    hashRow p bi ((List.range batch).flatMap fun bi => p.rowSpec (rows bi) start width) width =
      p.rowSpec (rows bi) start width := by
  have hlength : ∀ bi < batch, (p.rowSpec (rows bi) start width).length =
      width * ((p.ngram.toNat - 1) * p.heads.toNat) := fun _ _ => by
    simp [NgramParameters.rowSpec, NgramParameters.tokenHashes, length_flatMap]
  exact part_row hlength hbi

/-- The calls, put together, give what each row defines. -/
theorem ngramChunks_eq (h : p.Fits) (hbatch : 0 < m.batch) {widths : List Nat}
    (hwidths : ∀ width ∈ widths, 0 < width) (hfit : pos + widths.sum ≤ m.width)
    (hc : Continues p m pos context true) :
    ∃ results next, ngramChunks p m context pos widths = .ok (results, next) ∧
      ∀ bi < m.batch, (List.zipWith (hashRow p bi) results widths).flatten =
        p.rowSpec (m.raw bi) pos widths.sum := by
  induction widths generalizing pos context with
  | nil => exact ⟨[], context, rfl, fun _ _ => rfl⟩
  | cons width widths ih =>
    rw [sum_cons] at hfit
    obtain ⟨result, hresult, hids, hnext⟩ := ngramHashes_columns h hbatch
      (hwidths width mem_cons_self) (by omega) hc
    obtain ⟨results, next, hrest, hrows⟩ := ih
      (fun width hmem => hwidths width (mem_cons_of_mem _ hmem))
      (Nat.add_assoc pos width _ ▸ hfit) (hnext rfl)
    refine ⟨result.ids :: results, next, ?_, fun bi hbi => ?_⟩
    · rw [ngramChunks, hresult]
      simp only [hrest]
    · rw [zipWith_cons_cons, flatten_cons, hrows bi hbi, hids, hashRow_eq hbi,
        sum_cons, rowSpec_add]

end TyloQuant.NgramHash
