import TyloQuant.NgramHash.Windows

/-!
# What a hash state retains

The tokens of a session are a matrix, a row for each of its batch.  A state retains the columns so
far when its position is their number and its context the window of each row.  `forward` then gives
the hashes of the new columns as the whole matrix defines them, and retains them as well.
-/

namespace TyloQuant.NgramHash

open Lib List

/-! ### Matrices of tokens -/

/-- Token identifiers and image marks, a row for each of a batch. -/
structure TokenMatrix where
  batch : Nat
  width : Nat
  id : Nat → Nat → Int
  image : Nat → Nat → Bool

namespace TokenMatrix

/-- The identifiers as a call takes them. -/
def ids (m : TokenMatrix) : List Int :=
  (List.range m.batch).flatMap fun bi => (List.range m.width).map (m.id bi)

def mask (m : TokenMatrix) : List Bool :=
  (List.range m.batch).flatMap fun bi => (List.range m.width).map (m.image bi)

/-- The matrix that a call is given. -/
def ofCall (ids : List Int) (mask : Option (List Bool)) (batch width : Nat) : TokenMatrix where
  batch
  width
  id := fun bi token => ids.getD (bi * width + token) 0
  image := fun bi token => (mask.getD []).getD (bi * width + token) false

def columns (m : TokenMatrix) (start count : Nat) : TokenMatrix where
  batch := m.batch
  width := count
  id := fun bi token => m.id bi (start + token)
  image := fun bi token => m.image bi (start + token)

def append (m c : TokenMatrix) : TokenMatrix where
  batch := m.batch
  width := m.width + c.width
  id := fun bi token => if token < m.width then m.id bi token else c.id bi (token - m.width)
  image := fun bi token => if token < m.width then m.image bi token else c.image bi (token - m.width)

def none (batch : Nat) : TokenMatrix where
  batch
  width := 0
  id := fun _ _ => 0
  image := fun _ _ => false

def first (m : TokenMatrix) (width : Nat) : TokenMatrix := { m with width }

/-- The token that is hashed. -/
def token (m : TokenMatrix) (parameters : Parameters) (bi column : Nat) : Int :=
  if m.image bi column then kDeadToken
  else parameters.tokenMap.getD (m.id bi column).toNat 0

def row (m : TokenMatrix) (parameters : Parameters) (bi : Nat) : List Int :=
  (List.range m.width).map (m.token parameters bi)

/-- The tokens of a call, row after row. -/
def compressed (m : TokenMatrix) (parameters : Parameters) : List Int :=
  (List.range m.batch).flatMap (m.row parameters)

/-- Identifiers of the vocabulary. -/
def Valid (m : TokenMatrix) (parameters : Parameters) : Prop :=
  ∀ bi < m.batch, ∀ column < m.width,
    0 ≤ m.id bi column ∧ m.id bi column < parameters.tokenMap.length

instance (m : TokenMatrix) (parameters : Parameters) : Decidable (m.Valid parameters) := by
  unfold Valid
  infer_instance

variable {m c : TokenMatrix} {parameters : Parameters} {bi : Nat}

@[simp] theorem length_row : (m.row parameters bi).length = m.width := by
  simp [row]

theorem row_append : (m.append c).row parameters bi = m.row parameters bi ++ c.row parameters bi := by
  have hadd : (m.append c).width = m.width + c.width := rfl
  rw [row, row, row, hadd, range_add, map_append, map_map]
  congr 1
  · refine map_congr_left fun column hcolumn => ?_
    simp [token, append, mem_range.mp hcolumn]
  · refine map_congr_left fun column _ => ?_
    have hge : ¬m.width + column < m.width := by omega
    simp only [token, append, Function.comp_apply, if_neg hge, Nat.add_sub_cancel_left]

variable {width : Nat}

theorem row_first (h : width ≤ m.width) :
    (m.first width).row parameters bi = (m.row parameters bi).take width := by
  rw [row, row, ← map_take, take_range, Nat.min_eq_left h]
  rfl

theorem Valid.append (hm : m.Valid parameters) (hc : c.Valid parameters) (h : c.batch = m.batch) :
    (m.append c).Valid parameters := by
  intro bi hbi column hcolumn
  by_cases hlt : column < m.width
  · simpa [TokenMatrix.append, hlt] using hm bi hbi column hlt
  · have hrest : column - m.width < c.width := by
      have : column < m.width + c.width := hcolumn
      omega
    simpa [TokenMatrix.append, hlt] using hc bi (h ▸ hbi) (column - m.width) hrest

theorem Valid.first (hm : m.Valid parameters) (h : width ≤ m.width) :
    (m.first width).Valid parameters :=
  fun bi hbi column hcolumn => hm bi hbi column (Nat.lt_of_lt_of_le hcolumn h)

theorem getD_rows {α : Type} {f : Nat → Nat → α} {batch bi column : Nat} (a : α)
    (hbi : bi < batch) (hcolumn : column < width) :
    ((List.range batch).flatMap fun bi => (List.range width).map (f bi)).getD
      (bi * width + column) a = f bi column := by
  rw [getD_flatMap_range (fun _ _ => by simp) hbi hcolumn,
    getD_eq_getElem _ _ (by simpa using hcolumn)]
  simp

theorem row_ofCall (h : bi < m.batch) (masked : Bool)
    (hmask : masked = false → ∀ bi column, m.image bi column = false) :
    (ofCall m.ids (if masked then some m.mask else Option.none) m.batch m.width).row parameters bi =
      m.row parameters bi := by
  refine map_congr_left fun column hcolumn => ?_
  have hlt : column < m.width := mem_range.mp hcolumn
  have hid : m.ids.getD (bi * m.width + column) 0 = m.id bi column := getD_rows 0 h hlt
  cases masked with
  | true =>
    have himage : m.mask.getD (bi * m.width + column) false = m.image bi column :=
      getD_rows false h hlt
    simp only [token, ofCall, hid, if_true, Option.getD_some, himage]
  | false =>
    simp [token, ofCall, -getD_eq_getElem?_getD, hid, hmask rfl]

theorem valid_ofCall {mask : Option (List Bool)} (h : m.Valid parameters) :
    (ofCall m.ids mask m.batch m.width).Valid parameters := by
  intro bi hbi column hcolumn
  have hid : (ofCall m.ids mask m.batch m.width).id bi column = m.id bi column :=
    getD_rows 0 hbi hcolumn
  rw [hid]
  exact h bi hbi column hcolumn

variable {count start : Nat}

theorem row_columns (h : start + count ≤ m.width) :
    (m.columns start count).row parameters bi = part (m.row parameters bi) start count := by
  rw [row, row, part, ← map_drop, ← map_take, take_drop_range h, map_map]
  rfl

theorem Valid.columns (hm : m.Valid parameters) (h : start + count ≤ m.width) :
    (m.columns start count).Valid parameters := by
  intro bi hbi column hcolumn
  have hlt : column < count := hcolumn
  exact hm bi hbi (start + column) (by omega)

end TokenMatrix

namespace EngramHashState

/-! ### The hashes of a token -/

/-- Hash parameters that stay inside the tables. -/
structure Inside (st : EngramHashState) : Prop where
  two_le : 2 ≤ st.maxNgramSize
  le_bound : st.maxNgramSize ≤ 32
  bucket : ∀ layer < st.parameters.layerIds.length, ∀ column < st.columns,
    0 < st.parameters.primes.getD (layer * st.columns + column) 0 ∧
    0 ≤ st.parameters.offsets.getD (layer * st.columns + column) 0 ∧
    st.parameters.offsets.getD (layer * st.columns + column) 0 +
        st.parameters.primes.getD (layer * st.columns + column) 0 ≤
      st.parameters.tableRows.getD layer 0

/-- The hashes that a row defines at a position, for the shifts and the heads of each. -/
def tokenHashes (st : EngramHashState) (row : List Int) (position layer : Nat) : List Int :=
  (List.range (st.maxNgramSize - 1)).flatMap fun s =>
    (List.range st.heads).map fun head =>
      let multipliers := fun k => st.parameters.multipliers.getD (layer * st.maxNgramSize + k) 0
      let bucket := layer * st.columns + (s * st.heads + head)
      (rolling (cutAtImage st.padId row position) multipliers (s + 1)).toInt %
          st.parameters.primes.getD bucket 0 +
        st.parameters.offsets.getD bucket 0

variable {st : EngramHashState} {m c : TokenMatrix} {before chunk : List Int} {layer position : Nat}
  {row : List Int}

@[simp] theorem length_tokenHashes : (st.tokenHashes row position layer).length = st.columns := by
  simp [tokenHashes, columns, length_flatMap]

theorem column_lt {s head : Nat} (hs : s < st.maxNgramSize - 1) (hhead : head < st.heads) :
    s * st.heads + head < st.columns := by
  have hle : (s + 1) * st.heads ≤ (st.maxNgramSize - 1) * st.heads := Nat.mul_le_mul_right _ hs
  rw [Nat.succ_mul] at hle
  rw [columns]
  omega

theorem Inside.hash_mem (h : st.Inside) (hlayer : layer < st.parameters.layerIds.length)
    {value : Int} (hvalue : value ∈ st.tokenHashes row position layer) :
    0 ≤ value ∧ value < st.parameters.tableRows.getD layer 0 := by
  simp only [tokenHashes, mem_flatMap, mem_map, mem_range] at hvalue
  obtain ⟨s, hs, head, hhead, rfl⟩ := hvalue
  obtain ⟨hprime, hoffset, hrows⟩ := h.bucket layer hlayer _ (column_lt hs hhead)
  generalize (rolling (cutAtImage st.padId row position) _ (s + 1)).toInt = word
  have hnonneg := Int.emod_nonneg word hprime.ne'
  have hlt := Int.emod_lt_of_pos word hprime
  constructor <;> omega

variable {token : Nat}

theorem getD_ngramTokens {k : Nat} (hk : k < st.maxNgramSize) :
    (st.ngramTokens (window st.padId (st.maxNgramSize - 1) before before.length ++ chunk)
        token).getD k 0 =
      cutAtImage st.padId (before ++ chunk) (before.length + token) k := by
  have hsource : ∀ near ≤ k,
      ((List.range st.maxNgramSize).map fun shift =>
          (window st.padId (st.maxNgramSize - 1) before before.length ++ chunk).getD
            (st.maxNgramSize - 1 + token - shift) 0).getD near 0 =
        tokenAt st.padId (before ++ chunk) (before.length + token) near := by
    intro near hnear
    rw [getD_eq_getElem _ _ (by simp; omega), getElem_map, getElem_range]
    exact getD_window_append (by omega)
  have hcut : (∃ near ≤ k,
      ((List.range st.maxNgramSize).map fun shift =>
          (window st.padId (st.maxNgramSize - 1) before before.length ++ chunk).getD
            (st.maxNgramSize - 1 + token - shift) 0).getD near 0 = kDeadToken) ↔
      ∃ near ≤ k, tokenAt st.padId (before ++ chunk) (before.length + token) near = kDeadToken :=
    exists_congr fun near => and_congr_right fun hnear => by rw [hsource near hnear]
  rw [ngramTokens, getD_blockedTokens (by simpa using hk), cutAtImage, hsource k (Nat.le_refl k)]
  simp only [Bool.false_eq_true, false_or, hcut]

theorem columnHashes_eq (h : st.Inside) (hlayer : layer < st.parameters.layerIds.length) :
    st.columnHashes (window st.padId (st.maxNgramSize - 1) before before.length ++ chunk)
        token layer =
      st.tokenHashes (before ++ chunk) (before.length + token) layer := by
  refine flatMap_congr fun s hs => map_congr_left fun head hhead => ?_
  have hs := mem_range.mp hs
  obtain ⟨hprime, -⟩ := h.bucket layer hlayer _ (column_lt hs (mem_range.mp hhead))
  have hrolling : ∀ multipliers : Nat → Int,
      rolling (fun k => (st.ngramTokens (window st.padId (st.maxNgramSize - 1) before before.length ++
        chunk) token).getD k 0) multipliers (s + 1) =
      rolling (cutAtImage st.padId (before ++ chunk) (before.length + token)) multipliers (s + 1) :=
    fun _ => rolling_congr fun k hk => getD_ngramTokens (by omega)
  simp only [hash, Nat.add_sub_cancel]
  rw [reduced_eq_emod hprime, hrolling]

/-! ### Context -/

/-- The windows of the rows before a position. -/
def contextAt (st : EngramHashState) (m : TokenMatrix) (position : Nat) : List Int :=
  (List.range m.batch).flatMap fun bi =>
    window st.padId (st.maxNgramSize - 1) (m.row st.parameters bi) position

structure Retains (st : EngramHashState) (m : TokenMatrix) : Prop where
  batch : st.batch = m.batch
  position : st.position = m.width
  context : st.context = st.contextAt m m.width
  valid : m.Valid st.parameters

theorem length_window_row {bi : Nat} (h : position ≤ m.width) :
    (window st.padId (st.maxNgramSize - 1) (m.row st.parameters bi) position).length =
      st.maxNgramSize - 1 :=
  length_window (by simpa using h)

theorem part_contextAt {bi : Nat} (hbi : bi < m.batch) (h : position ≤ m.width) :
    part (st.contextAt m position) (bi * (st.maxNgramSize - 1)) (st.maxNgramSize - 1) =
      window st.padId (st.maxNgramSize - 1) (m.row st.parameters bi) position := by
  have hlength : ∀ bi < m.batch, (window st.padId (st.maxNgramSize - 1)
      (m.row st.parameters bi) position).length = st.maxNgramSize - 1 :=
    fun _ _ => length_window_row h
  rw [contextAt, part_row hlength hbi]

theorem length_contextAt (h : position ≤ m.width) :
    (st.contextAt m position).length = m.batch * (st.maxNgramSize - 1) := by
  simp [contextAt, length_flatMap, length_window_row h]

theorem Inside.contextAt_ne_nil (hin : st.Inside) (hbatch : 0 < m.batch) (h : position ≤ m.width) :
    st.contextAt m position ≠ [] := by
  have hpos : 0 < m.batch * (st.maxNgramSize - 1) :=
    Nat.mul_pos hbatch (by have := hin.two_le; omega)
  intro hnil
  rw [← length_contextAt h, hnil] at hpos
  exact absurd hpos (by simp)

theorem part_compressed {parameters : Parameters} {bi : Nat} (h : bi < c.batch) :
    part (c.compressed parameters) (bi * c.width) c.width = c.row parameters bi := by
  have hlength : ∀ bi < c.batch, (c.row parameters bi).length = c.width :=
    fun _ _ => TokenMatrix.length_row
  rw [TokenMatrix.compressed, part_row hlength h]

theorem row_nil {parameters : Parameters} {bi : Nat} (h : m.width = 0) : m.row parameters bi = [] := by
  rw [TokenMatrix.row, h]
  rfl

theorem retains_restarted (h : m.width = 0) : (st.restarted m.batch).Retains m where
  batch := rfl
  position := h.symm
  context := by
    have hwindow : ∀ bi, window st.padId (st.maxNgramSize - 1) (m.row st.parameters bi) m.width =
        List.replicate (st.maxNgramSize - 1) st.padId := fun bi => by
      rw [row_nil h, h, window_nil]
    have hrows : ∀ count, List.replicate (count * (st.maxNgramSize - 1)) st.padId =
        (List.range count).flatMap fun _ => List.replicate (st.maxNgramSize - 1) st.padId := by
      intro count
      induction count with
      | zero => simp
      | succ count ih =>
        rw [Nat.succ_mul, replicate_add, ih, range_succ, flatMap_append,
          flatMap_singleton]
    exact (hrows m.batch).trans (flatMap_congr fun bi _ => (hwindow bi).symm)
  valid := fun _ _ _ hcolumn => absurd (h ▸ hcolumn) (Nat.not_lt_zero _)

/-- What is retained depends on the rows only. -/
theorem Retains.congr {m' : TokenMatrix} (hr : st.Retains m) (hbatch : m'.batch = m.batch)
    (hwidth : m'.width = m.width)
    (hrow : ∀ bi < m.batch, m'.row st.parameters bi = m.row st.parameters bi)
    (hvalid : m'.Valid st.parameters) : st.Retains m' where
  batch := hr.batch.trans hbatch.symm
  position := hr.position.trans hwidth.symm
  context := by
    rw [hr.context, contextAt, contextAt, hbatch, hwidth]
    exact flatMap_congr fun bi hbi => by rw [hrow bi (mem_range.mp hbi)]
  valid := hvalid

/-! ### `forward` -/

/-- The hashes of the columns that follow. -/
def hashesOf (st : EngramHashState) (m c : TokenMatrix) : EngramHashBatch where
  batch := c.batch
  tokens := c.width
  layers := st.parameters.layerIds.length
  columns := st.columns
  values := (List.range st.parameters.layerIds.length).flatMap fun layer =>
    (List.range c.batch).flatMap fun bi => (List.range c.width).flatMap fun token =>
      st.tokenHashes ((m.append c).row st.parameters bi) (m.width + token) layer

/-- The state after a call. -/
def after (st : EngramHashState) (c : TokenMatrix) : EngramHashState :=
  (st.journal (c.compressed st.parameters) c.width).advance (c.compressed st.parameters) c.width

theorem journal_eq (st : EngramHashState) (compressed : List Int) (tokens : Nat) :
    ∃ kept, st.journal compressed tokens = { st with speculativeTokens := kept } := by
  unfold journal
  split
  · exact ⟨_, rfl⟩
  · exact ⟨st.speculativeTokens, rfl⟩

theorem Retains.history_eq (hr : st.Retains m) (hc : c.batch = m.batch) {bi : Nat}
    (hbi : bi < m.batch) :
    st.history (c.compressed st.parameters) c.width bi =
      window st.padId (st.maxNgramSize - 1) (m.row st.parameters bi)
          (m.row st.parameters bi).length ++
        c.row st.parameters bi := by
  rw [history, hr.context, part_contextAt hbi (Nat.le_refl _), part_compressed (hc ▸ hbi),
    TokenMatrix.length_row]

theorem Retains.columnHashes_eq (hr : st.Retains m) (hin : st.Inside) (hc : c.batch = m.batch)
    {bi : Nat} (hbi : bi < m.batch) (hlayer : layer < st.parameters.layerIds.length) :
    st.columnHashes (st.history (c.compressed st.parameters) c.width bi) token layer =
      st.tokenHashes ((m.append c).row st.parameters bi) (m.width + token) layer := by
  rw [hr.history_eq hc hbi, EngramHashState.columnHashes_eq hin hlayer, TokenMatrix.row_append,
    TokenMatrix.length_row]

theorem Retains.forwardTokens_eq (hr : st.Retains m) (hin : st.Inside) (hc : c.batch = m.batch) :
    st.forwardTokens (c.compressed st.parameters) c.width =
      (.ok (st.hashesOf m c), st.after c) := by
  obtain ⟨kept, hkept⟩ := st.journal_eq (c.compressed st.parameters) c.width
  have hbatch : st.batch = c.batch := hr.batch.trans hc.symm
  have hfits : ¬st.Exceeds (c.compressed st.parameters) st.batch c.width := by
    rintro ⟨layer, hlayer, bi, hbi, token, -, value, hvalue, hout⟩
    rw [hr.columnHashes_eq hin hc (hr.batch ▸ hbi) hlayer] at hvalue
    have hmem := hin.hash_mem hlayer hvalue
    omega
  have hvalues : st.values (c.compressed st.parameters) st.batch c.width =
      (st.hashesOf m c).values := by
    rw [values, hashesOf, hbatch]
    refine flatMap_congr fun layer hlayer => flatMap_congr fun bi hbi =>
      flatMap_congr fun token _ => ?_
    exact hr.columnHashes_eq hin hc (hc ▸ mem_range.mp hbi) (mem_range.mp hlayer)
  have hbound : ¬32 < st.maxNgramSize := Nat.not_lt.mpr hin.le_bound
  have hkeptFits : ¬({ st with speculativeTokens := kept } : EngramHashState).Exceeds
      (c.compressed st.parameters) st.batch c.width := hfits
  unfold forwardTokens after
  rw [hkept]
  simp only []
  rw [if_neg hbound, if_neg hkeptFits]
  refine Prod.ext (congrArg Except.ok ?_) rfl
  rw [EngramHashBatch.mk.injEq]
  exact ⟨hbatch, rfl, rfl, rfl, hvalues⟩

theorem after_eq (st : EngramHashState) (c : TokenMatrix) :
    ∃ kept, st.after c =
      { st.advance (c.compressed st.parameters) c.width with speculativeTokens := kept } := by
  obtain ⟨kept, hkept⟩ := st.journal_eq (c.compressed st.parameters) c.width
  exact ⟨kept, by rw [after, hkept]; rfl⟩

theorem Retains.after (hr : st.Retains m) (hc : c.batch = m.batch) (hvalid : c.Valid st.parameters) :
    (st.after c).Retains (m.append c) := by
  obtain ⟨kept, hkept⟩ := st.after_eq c
  rw [hkept]
  exact
    { batch := hr.batch
      position := congrArg (· + c.width) hr.position
      context := by
        change (List.range st.batch).flatMap _ = (List.range m.batch).flatMap _
        rw [hr.batch]
        refine flatMap_congr fun bi hbi => ?_
        rw [hr.history_eq hc (mem_range.mp hbi)]
        have hadvance := @window_advance st.padId (st.maxNgramSize - 1)
          (m.row st.parameters bi) (c.row st.parameters bi)
        rw [TokenMatrix.length_row, TokenMatrix.length_row, ← TokenMatrix.row_append] at hadvance
        rw [TokenMatrix.length_row]
        exact hadvance
      valid := hr.valid.append hvalid hc }

/-- A check of each entry fails at the first, or passes them all. -/
theorem mapM_guard {ε α β : Type} {p : α → Prop} [DecidablePred p] {e : ε} {g : α → β}
    (xs : List α) :
    xs.mapM (fun x => if p x then Except.error e else Except.ok (g x)) =
      if ∃ x ∈ xs, p x then .error e else .ok (xs.map g) := by
  induction xs with
  | nil => simp [pure, Except.pure]
  | cons x xs ih =>
    rw [mapM_cons, ih]
    by_cases hx : p x
    · simp [hx, bind, Except.bind]
    · by_cases hrest : ∃ y ∈ xs, p y
      · have hall : ∃ y ∈ x :: xs, p y := hrest.imp fun y hy => ⟨mem_cons_of_mem _ hy.1, hy.2⟩
        rw [if_neg hx, if_pos hrest, if_pos hall]
        rfl
      · have hall : ¬∃ y ∈ x :: xs, p y := by
          rintro ⟨y, hy, hpy⟩
          rcases mem_cons.mp hy with rfl | hy
          · exact hx hpy
          · exact hrest ⟨y, hy, hpy⟩
        rw [if_neg hx, if_neg hrest, if_neg hall]
        rfl

theorem compress_call (parameters : Parameters) (xs : List Int) (mask : Option (List Bool))
    (batch width : Nat) :
    (List.range (batch * width)).mapM (compress parameters xs mask) =
      if (TokenMatrix.ofCall xs mask batch width).Valid parameters then
        .ok ((TokenMatrix.ofCall xs mask batch width).compressed parameters)
      else .error (.outOfRange "DeepSeek-V4.1 Engram token ID is outside the vocabulary") := by
  have hvalid : (TokenMatrix.ofCall xs mask batch width).Valid parameters ↔
      ¬∃ index ∈ List.range (batch * width), xs.getD index 0 < 0 ∨
        (parameters.tokenMap.length : Int) ≤ xs.getD index 0 := by
    constructor
    · rintro h ⟨index, hindex, hout⟩
      have hlt : index < batch * width := mem_range.mp hindex
      have hwidth : 0 < width := Nat.pos_of_mul_pos_left (Nat.zero_lt_of_lt hlt)
      have hcolumn := h (index / width) (Nat.div_lt_of_lt_mul (Nat.mul_comm batch width ▸ hlt))
        (index % width) (Nat.mod_lt _ hwidth)
      simp only [TokenMatrix.ofCall, Nat.mul_comm (index / width) width, Nat.div_add_mod] at hcolumn
      omega
    · intro h bi hbi column hcolumn
      by_contra hout
      have hle : (bi + 1) * width ≤ batch * width := Nat.mul_le_mul_right _ hbi
      have hlt : column < width := hcolumn
      rw [Nat.succ_mul] at hle
      refine h ⟨bi * width + column, mem_range.mpr (by omega), ?_⟩
      simp only [TokenMatrix.ofCall] at hout
      omega
  have hvalue : (TokenMatrix.ofCall xs mask batch width).compressed parameters =
      (List.range (batch * width)).map fun index =>
        if (mask.getD []).getD index false then kDeadToken
        else parameters.tokenMap.getD (xs.getD index 0).toNat 0 := by
    rw [map_range_mul]
    rfl
  refine (mapM_guard (List.range (batch * width))).trans ?_
  by_cases h : (TokenMatrix.ofCall xs mask batch width).Valid parameters
  · rw [if_pos h, if_neg (hvalid.mp h), hvalue]
  · rw [if_neg h, if_pos (not_not.mp (mt hvalid.mpr h))]

/-- Where a call begins: at the start of a session, or where the last one ended. -/
def base (st : EngramHashState) (batch pos0 : Int) : EngramHashState :=
  if pos0 = 0 then st.restarted batch.toNat else st

@[simp] theorem parameters_base {batch pos0 : Int} :
    (st.base batch pos0).parameters = st.parameters := by
  unfold base
  split <;> rfl

theorem Inside.base (h : st.Inside) {batch pos0 : Int} : (st.base batch pos0).Inside := by
  unfold EngramHashState.base
  split
  · exact ⟨h.two_le, h.le_bound, h.bucket⟩
  · exact h

variable {xs : List Int} {mask : Option (List Bool)} {batch tokens pos0 : Int}

theorem forward_in_range (hbatch : 0 < batch) (htokens : 0 < tokens) (hpos : 0 ≤ pos0) :
    st.forward (some xs) batch tokens pos0 mask =
      if (st.base batch pos0).batch ≠ batch ∨ (st.base batch pos0).position ≠ pos0 ∨
          (st.base batch pos0).context = [] then
        (.error (.runtimeError "DeepSeek-V4.1 Engram cache position disagrees"), st.base batch pos0)
      else if (TokenMatrix.ofCall xs mask batch.toNat tokens.toNat).Valid st.parameters then
        (st.base batch pos0).forwardTokens
          ((TokenMatrix.ofCall xs mask batch.toNat tokens.toNat).compressed st.parameters)
          tokens.toNat
      else
        (.error (.outOfRange "DeepSeek-V4.1 Engram token ID is outside the vocabulary"),
          st.base batch pos0) := by
  have hinput : ¬((some xs).isNone = true ∨ batch ≤ 0 ∨ tokens ≤ 0 ∨ pos0 < 0) := by
    simp
    omega
  unfold forward
  rw [if_neg hinput]
  change (if (st.base batch pos0).batch ≠ batch ∨ (st.base batch pos0).position ≠ pos0 ∨
    (st.base batch pos0).context = [] then _ else _) = _
  refine if_congr Iff.rfl rfl ?_
  have hbase : (if pos0 = 0 then st.restarted batch.toNat else st) = st.base batch pos0 := rfl
  rw [compress_call, hbase, parameters_base, Option.getD_some]
  split
  next h =>
    split at h
    · cases h
    next hvalid => rw [if_neg hvalid, ← Except.error.inj h]
  next h =>
    split at h
    next hvalid => rw [if_pos hvalid, ← Except.ok.inj h]
    · cases h

/-- A call in its place hashes the columns that follow, and retains them. -/
theorem forward_eq (hin : st.Inside) (hr : (st.base batch pos0).Retains m)
    (hbatch : 0 < batch) (htokens : 0 < tokens) (hrows : batch = m.batch) (hpos : pos0 = m.width)
    (hvalid : (TokenMatrix.ofCall xs mask batch.toNat tokens.toNat).Valid st.parameters) :
    st.forward (some xs) batch tokens pos0 mask = (.ok ((st.base batch pos0).hashesOf m
          (TokenMatrix.ofCall xs mask batch.toNat tokens.toNat)),
        (st.base batch pos0).after (TokenMatrix.ofCall xs mask batch.toNat tokens.toNat)) := by
  have hcontext : (st.base batch pos0).context ≠ [] := by
    rw [hr.context]
    exact hin.base.contextAt_ne_nil (by omega) (Nat.le_refl _)
  have hplace : ¬((st.base batch pos0).batch ≠ batch ∨ (st.base batch pos0).position ≠ pos0 ∨
      (st.base batch pos0).context = []) := by
    rw [hr.batch, hr.position, hrows, hpos]
    simp [← hrows, ← hpos, hcontext]
  rw [forward_in_range hbatch htokens (by omega), if_neg hplace, if_pos hvalid]
  have hrun := hr.forwardTokens_eq hin.base
    (show (TokenMatrix.ofCall xs mask batch.toNat tokens.toNat).batch = m.batch by
      change batch.toNat = m.batch
      omega)
  rw [parameters_base] at hrun
  exact hrun

end EngramHashState

end TyloQuant.NgramHash
