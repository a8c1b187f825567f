import TyloQuant.QsaKv.Records

/-!
# What the operations do to a record

One specification for each operation: the record it leaves, what that record represents, and
that every block which anyone else points to keeps its payload.  An `append` that throws puts
the old record back.
-/

namespace TyloQuant.QsaKv

open Lib Call List

/-! ### Beside one sequence -/

/-- Something other than the sequence points to the block. -/
def System.HeldBeside (s : System) (seq id : Nat) : Prop :=
  id ∈ s.locals ∨ (∃ seq' st, seq' ≠ seq ∧ s.sequences.lookup seq' = some st ∧ id ∈ st.pointers) ∨
    ∃ snap st, s.snapshots.lookup snap = some st ∧ id ∈ st.pointers

variable {s : System} {id seq : Nat}

theorem System.HeldBeside.held (h : s.HeldBeside seq id) : s.held id = true := by
  rw [System.held_iff]
  rcases h with hlocal | ⟨seq', st, -, hst, hid⟩ | hsnap
  · exact Or.inl hlocal
  · exact Or.inr (Or.inl ⟨seq', st, hst, hid⟩)
  · exact Or.inr (Or.inr hsnap)

/-- What an operation on one sequence leaves alone. -/
structure Around (seq : Nat) (s s' : System) : Prop where
  sequences : ∀ seq', seq' ≠ seq → s'.sequences.lookup seq' = s.sequences.lookup seq'
  snapshots : s'.snapshots = s.snapshots
  locals : s'.locals = s.locals
  lists : s'.lists = s.lists
  bufferBytes : s'.store.bufferBytes = s.store.bufferBytes
  payloads : SamePayloads (s.HeldBeside seq) s.store s'.store

theorem Around.refl (seq : Nat) (s : System) : Around seq s s :=
  ⟨fun _ _ => rfl, rfl, rfl, rfl, rfl, SamePayloads.refl _ _⟩

variable {s' : System}

theorem Around.heldBeside (h : Around seq s s') (hid : s.HeldBeside seq id) :
    s'.HeldBeside seq id := by
  rcases hid with hlocal | ⟨seq', st, hne, hst, hid⟩ | ⟨snap, st, hst, hid⟩
  · exact Or.inl (h.locals ▸ hlocal)
  · exact Or.inr (Or.inl ⟨seq', st, hne, (h.sequences seq' hne).trans hst, hid⟩)
  · exact Or.inr (Or.inr ⟨snap, st, h.snapshots ▸ hst, hid⟩)

variable {c : QsaKvStore}

theorem SamePayloads.mono {held held' : Nat → Prop} {c' : QsaKvStore} (h : SamePayloads held c c')
    (hless : ∀ id, held' id → held id) : SamePayloads held' c c' :=
  fun id b hid hb => h id b (hless id hid) hb

theorem Around.trans {s'' : System} (h : Around seq s s') (h' : Around seq s' s'') :
    Around seq s s'' :=
  ⟨fun seq' hne => (h'.sequences seq' hne).trans (h.sequences seq' hne),
    h'.snapshots.trans h.snapshots, h'.locals.trans h.locals, h'.lists.trans h.lists,
    h'.bufferBytes.trans h.bufferBytes, h.payloads.trans (h'.payloads.mono fun _ => h.heldBeside)⟩

theorem Frame.around (h : Frame s s') (seq : Nat) : Around seq s s' :=
  ⟨fun seq' _ => by rw [h.sequences], h.snapshots, h.locals, h.lists, h.bufferBytes,
    h.payloads.mono fun _ => System.HeldBeside.held⟩

/-! ### The record replaced -/

/-- The state once `setSequence` has run. -/
def System.put (s : System) (seq : Nat) (st : Snapshot) : System :=
  { s with sequences := s.sequences.insert seq st }

variable {st : Snapshot}

theorem setSequence_some {r : Except String PUnit} (h : Op.setSequence seq st s = some (r, s')) :
    s' = s.put seq st ∧ r = .ok ⟨⟩ := by
  obtain ⟨rfl, rfl⟩ := Prod.mk.inj (Option.some.inj h)
  exact ⟨rfl, rfl⟩

theorem setSequence_bind {β : Type} (f : PUnit → Op β) (s : System) :
    (Op.setSequence seq st >>= f) s = f ⟨⟩ (s.put seq st) := rfl

theorem System.put_lookup (s : System) (seq : Nat) (st : Snapshot) :
    (s.put seq st).sequences.lookup seq = some st :=
  AList.lookup_insert _

theorem held_put : (s.put seq st).held id = true ↔ s.HeldBeside seq id ∨ id ∈ st.pointers := by
  rw [System.held_iff]
  constructor
  · rintro (hlocal | ⟨seq', st', hst', hid⟩ | hsnap)
    · exact Or.inl (Or.inl hlocal)
    · rcases Table.lookup_insert_cases hst' with ⟨-, rfl⟩ | ⟨hne, hst'⟩
      · exact Or.inr hid
      · exact Or.inl (Or.inr (Or.inl ⟨seq', st', hne, hst', hid⟩))
    · exact Or.inl (Or.inr (Or.inr hsnap))
  · rintro ((hlocal | ⟨seq', st', hne, hst', hid⟩ | hsnap) | hid)
    · exact Or.inl hlocal
    · refine Or.inr (Or.inl ⟨seq', st', ?_, hid⟩)
      rw [System.put, Table.lookup_insert_ite, if_neg hne]
      exact hst'
    · exact Or.inr (Or.inr hsnap)
    · exact Or.inr (Or.inl ⟨seq, st, s.put_lookup seq st, hid⟩)

theorem Around.put (s : System) (seq : Nat) (st : Snapshot) : Around seq s (s.put seq st) :=
  ⟨fun _ hne => AList.lookup_insert_ne hne, rfl, rfl, rfl, rfl, SamePayloads.refl _ _⟩

theorem System.Sound.put (hs : s.Sound) (hst : ∀ id ∈ st.pointers, s.held id = true) :
    (s.put seq st).Sound := by
  refine hs.mono fun id hid => ?_
  rcases held_put.mp hid with hbeside | hid'
  · exact hbeside.held
  · exact hst id hid'

theorem System.Sound.put_new {new : List Nat}
    (hs : ({ s with locals := new ++ s.locals } : System).Sound)
    (hst : ∀ id ∈ st.pointers, id ∈ new ∨ s.held id = true) : (s.put seq st).Sound := by
  refine hs.mono fun id hid => held_locals.mpr ?_
  rcases held_put.mp hid with hbeside | hid'
  · exact Or.inr hbeside.held
  · exact hst id hid'

theorem held_of_sequence (hlookup : s.sequences.lookup seq = some st) (hid : id ∈ st.pointers) :
    s.held id = true :=
  System.held_iff.mpr (Or.inr (Or.inl ⟨seq, st, hlookup, hid⟩))

variable {snap : Nat}

theorem held_of_snapshot (hlookup : s.snapshots.lookup snap = some st) (hid : id ∈ st.pointers) :
    s.held id = true :=
  System.held_iff.mpr (Or.inr (Or.inr ⟨snap, st, hlookup, hid⟩))

theorem getSequence_some {r : Except String Snapshot} (h : Op.getSequence seq s = some (r, s')) :
    s' = s ∧ ∃ st, s.sequences.lookup seq = some st ∧ r = .ok st := by
  unfold Op.getSequence at h
  rw [get_bind] at h
  cases hst : s.sequences.lookup seq with
  | none =>
    rw [hst] at h
    exact absurd h not_blocked
  | some st =>
    rw [hst] at h
    obtain ⟨rfl, rfl⟩ := pure_some.mp h
    exact ⟨rfl, st, rfl, rfl⟩

theorem getSequence_bind {β : Type} {f : Snapshot → Op β} {r : Except String β}
    (h : (Op.getSequence seq >>= f) s = some (r, s')) :
    ∃ st, s.sequences.lookup seq = some st ∧ f st s = some (r, s') := by
  rcases bind_some.mp h with ⟨e, hget, -⟩ | ⟨st, t, hget, hrest⟩
  · obtain ⟨-, st, -, hr⟩ := getSequence_some hget
    cases hr
  · obtain ⟨rfl, st', hst, hr⟩ := getSequence_some hget
    obtain rfl := Except.ok.inj hr
    exact ⟨st, hst, hrest⟩

theorem getSnapshot_bind {β : Type} {f : Snapshot → Op β} {r : Except String β}
    (h : (Op.getSnapshot snap >>= f) s = some (r, s')) :
    ∃ st, s.snapshots.lookup snap = some st ∧ f st s = some (r, s') := by
  unfold Op.getSnapshot at h
  cases hst : s.snapshots.lookup snap with
  | none =>
    rcases bind_some.mp h with ⟨e, hget, -⟩ | ⟨st, t, hget, -⟩
    · rw [get_bind, hst] at hget
      exact absurd hget not_blocked
    · rw [get_bind, hst] at hget
      exact absurd hget not_blocked
  | some st =>
    rcases bind_some.mp h with ⟨e, hget, -⟩ | ⟨st', t, hget, hrest⟩
    · rw [get_bind, hst] at hget
      cases (pure_some.mp hget).1
    · rw [get_bind, hst] at hget
      obtain ⟨hr, rfl⟩ := pure_some.mp hget
      obtain rfl := Except.ok.inj hr
      exact ⟨st', rfl, hrest⟩

/-! ### Appending -/

/-- What no operation changes in a record. -/
structure SameGeometry (st st' : Snapshot) : Prop where
  rowBytes : st'.rowBytes = st.rowBytes
  blockRows : st'.blockRows = st.blockRows
  priority : st'.priority = st.priority

theorem SameGeometry.refl (st : Snapshot) : SameGeometry st st := ⟨rfl, rfl, rfl⟩

theorem SameGeometry.trans {st st' st'' : Snapshot} (h : SameGeometry st st')
    (h' : SameGeometry st' st'') : SameGeometry st st'' :=
  ⟨h'.rowBytes.trans h.rowBytes, h'.blockRows.trans h.blockRows, h'.priority.trans h.priority⟩

/-- The record of the sequence has only grown. -/
structure Grows (seq : Nat) (st : Snapshot) (s s' : System) : Prop where
  sound : s'.Sound
  around : Around seq s s'
  payloads : SamePayloads (fun id => id ∈ st.blocks) s.store s'.store
  record : ∃ st', s'.sequences.lookup seq = some st' ∧ SameGeometry st st' ∧
    st.blocks <+: st'.blocks

theorem Grows.refl (hs : s.Sound) (hst : s.sequences.lookup seq = some st) : Grows seq st s s :=
  ⟨hs, Around.refl seq s, SamePayloads.refl _ _, st, hst, .refl st, prefix_rfl⟩

variable {st' : Snapshot} {t : System}

theorem Grows.trans (h : Grows seq st s t) (hst' : t.sequences.lookup seq = some st')
    (h' : Grows seq st' t s') :
    Grows seq st s s' := by
  obtain ⟨st₀, hst₀, hsame, hgrown⟩ := h.record
  obtain rfl := Option.some.inj (hst₀.symm.trans hst')
  obtain ⟨st'', hst'', hsame', hgrown'⟩ := h'.record
  exact ⟨h'.sound, h.around.trans h'.around,
    h.payloads.trans (h'.payloads.mono fun id hid => hgrown.subset hid),
    st'', hst'', hsame.trans hsame', hgrown.trans hgrown'⟩

theorem Grows.put (hs : (s.put seq st').Sound) (hsame : SameGeometry st st')
    (hgrown : st.blocks <+: st'.blocks) : Grows seq st s (s.put seq st') :=
  ⟨hs, Around.put s seq st', SamePayloads.refl _ _, st', s.put_lookup seq st', hsame, hgrown⟩

theorem Grows.of_frame (hs' : s'.Sound) (hframe : Frame s s')
    (hst : s.sequences.lookup seq = some st) : Grows seq st s s' := by
  refine ⟨hs', hframe.around seq, hframe.payloads.mono fun id hid => ?_, st, ?_, .refl st,
    prefix_rfl⟩
  · exact held_of_sequence hst (mem_append_left _ hid)
  · rw [hframe.sequences]
    exact hst

theorem writeTail_some {bytes : Bytes} {r : Except String PUnit}
    (hst : s.sequences.lookup seq = some st)
    (h : (Op.write bytes st.priority >>= fun id =>
      Op.setSequence seq { st with tail := [], blocks := st.blocks ++ [id] }) s = some (r, s'))
    (hs : s.Sound) :
    Grows seq st s s' ∧ (r = .ok () → ∃ id, BlockOf s'.store id bytes ∧
      s'.sequences.lookup seq = some { st with tail := [], blocks := st.blocks ++ [id] }) := by
  rcases bind_some.mp h with ⟨e, hwrite, rfl⟩ | ⟨id, t, hwrite, hset⟩
  · obtain ⟨hs', hframe, -⟩ := write_some hwrite hs
    exact ⟨Grows.of_frame hs' hframe hst, fun hok => by cases hok⟩
  · obtain ⟨ht, hframe, hnew⟩ := write_some hwrite hs
    obtain ⟨hheld, b, hb, hpayload⟩ := hnew id rfl
    obtain ⟨rfl, -⟩ := setSequence_some hset
    have hst' : t.sequences.lookup seq = some st := by
      rw [hframe.sequences]
      exact hst
    have hsound : (t.put seq { st with tail := [], blocks := st.blocks ++ [id] }).Sound := by
      refine hheld.put_new fun id' hid' => ?_
      rcases mem_append.mp hid' with hblocks | htail
      · rcases mem_append.mp hblocks with hold | hnew'
        · exact Or.inr (held_of_sequence hst' (mem_append_left _ hold))
        · exact Or.inl hnew'
      · exact Or.inr (held_of_sequence hst' (mem_append_right _ htail))
    exact ⟨(Grows.of_frame ht hframe hst).trans hst'
        (Grows.put hsound ⟨rfl, rfl, rfl⟩ (prefix_append _ _)),
      fun _ => ⟨id, ⟨b, hb, hpayload⟩, t.put_lookup _ _⟩⟩

variable {data rows : Bytes} {count : Nat} {r : Except String Unit}

theorem append_nothing (hs : s.Sound) (hst : s.sequences.lookup seq = some st)
    (hrep : Represents s.store st data) (hrows : rows.length = 0) :
    Grows seq st s s ∧ (r = .ok () → ∃ st', s.sequences.lookup seq = some st' ∧
      Represents s.store st' (data ++ rows)) := by
  rw [eq_nil_of_length_eq_zero hrows, List.append_nil]
  exact ⟨Grows.refl hs hst, fun _ => ⟨st, hst, hrep⟩⟩

theorem appendLoop_some {fuel : Nat} (h : Op.appendLoop seq fuel rows count s = some (r, s'))
    (hs : s.Sound) (hst : s.sequences.lookup seq = some st) (hopen : st.tailBlock = none)
    (hrep : Represents s.store st data) (hrows : rows.length = count * st.rowBytes) :
    Grows seq st s s' ∧ (r = .ok () → ∃ st', s'.sequences.lookup seq = some st' ∧
      Represents s'.store st' (data ++ rows)) := by
  induction fuel generalizing rows count s st data with
  | zero =>
    cases count with
    | zero =>
      obtain ⟨rfl, rfl⟩ := pure_some.mp h
      exact append_nothing hs hst hrep (by omega)
    | succ count => exact absurd h not_blocked
  | succ fuel ih =>
    cases count with
    | zero =>
      obtain ⟨rfl, rfl⟩ := pure_some.mp h
      exact append_nothing hs hst hrep (by omega)
    | succ count =>
      unfold Op.appendLoop at h
      obtain ⟨st₀, hst₀, hbody⟩ := getSequence_bind h
      obtain rfl := Option.some.inj (hst.symm.trans hst₀)
      dsimp only at hbody
      rw [hrep.tail_rows hopen] at hbody
      have hmod := Nat.mod_lt st.position hrep.blockRows
      have htake : min (count + 1) (st.blockRows - st.position % st.blockRows) ≤
          st.blockRows - st.position % st.blockRows := Nat.min_le_right _ _
      have htake' : min (count + 1) (st.blockRows - st.position % st.blockRows) ≤ count + 1 :=
        Nat.min_le_left _ _
      generalize min (count + 1) (st.blockRows - st.position % st.blockRows) = take at *
      have hchunk : (rows.take (take * st.rowBytes)).length = take * st.rowBytes := by
        rw [length_take, hrows]
        exact Nat.min_eq_left (Nat.mul_le_mul_right st.rowBytes htake')
      have hrest : (rows.drop (take * st.rowBytes)).length =
          (count + 1 - take) * st.rowBytes := by
        rw [length_drop, hrows, Nat.sub_mul]
      have hdata : data ++ rows.take (take * st.rowBytes) ++ rows.drop (take * st.rowBytes) =
          data ++ rows := by
        rw [List.append_assoc, take_append_drop]
      have hlength : (st.tail ++ rows.take (take * st.rowBytes)).length =
          (st.position % st.blockRows + take) * st.rowBytes := by
        rw [length_append, hchunk, hrep.tail_size hopen, Nat.add_mul]
      generalize rows.take (take * st.rowBytes) = chunk at *
      generalize rows.drop (take * st.rowBytes) = rest at *
      have hset : (s.put seq { st with
          tail := st.tail ++ chunk, position := st.position + take }).Sound :=
        hs.put fun id hid => held_of_sequence hst hid
      rw [setSequence_bind] at hbody
      have hput' : Grows seq st s (s.put seq { st with
          tail := st.tail ++ chunk, position := st.position + take }) :=
        Grows.put hset ⟨rfl, rfl, rfl⟩ prefix_rfl
      split at hbody
      · rename_i hfull
        have hexact : st.position % st.blockRows + take = st.blockRows := by
          rw [hlength, Nat.mul_comm] at hfull
          exact Nat.eq_of_mul_eq_mul_left hrep.rowBytes hfull
        rw [setSequence_bind] at hbody
        generalize hs₂ : (s.put seq { st with
          tail := st.tail ++ chunk, position := st.position + take }).put seq { st with
          tail := [], position := st.position + take } = s₂ at hbody
        have hsound₂ : s₂.Sound := by
          rw [← hs₂]
          exact hset.put fun id hid => held_of_sequence (s.put_lookup _ _) hid
        have hlookup₂ : s₂.sequences.lookup seq = some { st with
            tail := [], position := st.position + take } := by
          rw [← hs₂]
          exact System.put_lookup _ _ _
        have hgrows₂ : Grows seq st s s₂ := by
          rw [← hs₂] at hsound₂ ⊢
          exact hput'.trans (s.put_lookup _ _)
            (Grows.put hsound₂ ⟨rfl, rfl, rfl⟩ prefix_rfl)
        have hrep₂ : Represents s₂.store st data := by
          rw [← hs₂]
          exact hrep
        rcases bind_some.mp hbody with ⟨e, hwrite, rfl⟩ | ⟨id, t, hwrite, hloop⟩
        · obtain ⟨hgrows, -⟩ := writeTail_some hlookup₂
            (bind_some.mpr (Or.inl ⟨e, hwrite, rfl⟩)) hsound₂
          exact ⟨hgrows₂.trans hlookup₂ hgrows, fun hok => by cases hok⟩
        rw [setSequence_bind] at hloop
        obtain ⟨hgrows, hresult⟩ :=
          writeTail_some hlookup₂ (bind_some.mpr (Or.inr ⟨id, t, hwrite, rfl⟩)) hsound₂
        obtain ⟨id', hid', hlookup₃⟩ := hresult rfl
        have hrep₃ : Represents t.store st data := by
          refine hrep₂.frame hgrows.payloads fun id'' hid'' => ?_
          simpa [Snapshot.pointers, hopen] using hid''
        obtain ⟨hgrows₃, hdone⟩ := ih hloop hgrows.sound hlookup₃ hopen
          (hrep₃.appendBlock hopen hchunk hexact hid') hrest
        rw [hdata] at hdone
        exact ⟨(hgrows₂.trans hlookup₂ hgrows).trans hlookup₃ hgrows₃, hdone⟩
      · rename_i hpart
        have hroom : st.position % st.blockRows + take < st.blockRows := by
          rcases Nat.lt_or_ge (st.position % st.blockRows + take) st.blockRows with hlt | hge
          · exact hlt
          · refine absurd ?_ hpart
            rw [hlength, Nat.mul_comm]
            congr 1
            omega
        obtain ⟨hgrows, hresult⟩ := ih hbody hset (s.put_lookup _ _) hopen
          (hrep.appendTail hopen hchunk hroom) hrest
        rw [hdata] at hresult
        exact ⟨hput'.trans (s.put_lookup _ _) hgrows, hresult⟩

theorem appendBody_some
    (h : (do
      match st.tailBlock with
      | some id =>
        if 0 < count then
          let bytes ← Op.read id
          Op.setSequence seq { st with tail := bytes, tailBlock := none }
        else pure ()
      | none => pure ()
      Op.appendLoop seq count rows count : Op Unit) s = some (r, s')) (hs : s.Sound)
    (hst : s.sequences.lookup seq = some st) (hrep : Represents s.store st data)
    (hrows : rows.length = count * st.rowBytes) :
    Grows seq st s s' ∧ (r = .ok () → ∃ st', s'.sequences.lookup seq = some st' ∧
      Represents s'.store st' (data ++ rows)) := by
  cases htb : st.tailBlock with
  | none =>
    rw [htb] at h
    exact appendLoop_some h hs hst htb hrep hrows
  | some id =>
    rw [htb] at h
    dsimp only at h
    split at h
    · have hid : id ∈ st.pointers :=
        mem_append_right _ (by rw [htb]; exact mem_singleton_self id)
      have htail := hrep.tail
      rw [htb] at htail
      obtain ⟨b, hb, hpayload⟩ := htail.2
      rcases bind_some.mp h with ⟨e, hread, rfl⟩ | ⟨bytes, t, hread, hrest⟩
      · obtain ⟨hs', hframe, -⟩ := read_some hread hs
        exact ⟨Grows.of_frame hs' hframe hst, fun hok => by cases hok⟩
      obtain ⟨ht, hframe, hbytes⟩ := read_some hread hs
      obtain rfl := (hbytes bytes rfl (held_of_sequence hst hid) b hb).trans hpayload
      rw [setSequence_bind] at hrest
      have hst' : t.sequences.lookup seq = some st := by
        rw [hframe.sequences]
        exact hst
      have hsound : (t.put seq { st with
          tail := data.drop (st.blocks.length * st.blockRows * st.rowBytes)
          tailBlock := none }).Sound := by
        refine ht.put fun id' hid' => held_of_sequence hst' (mem_append_left _ ?_)
        simpa [Snapshot.pointers] using hid'
      have hrep' : Represents t.store st data :=
        hrep.frame hframe.payloads fun id' => held_of_sequence hst
      obtain ⟨hgrows, hresult⟩ := appendLoop_some hrest hsound (t.put_lookup _ _) rfl
        hrep'.opened hrows
      exact ⟨((Grows.of_frame ht hframe hst).trans hst'
        (Grows.put hsound ⟨rfl, rfl, rfl⟩ prefix_rfl)).trans (t.put_lookup _ _) hgrows, hresult⟩
    · rename_i hcount
      obtain rfl : count = 0 := by omega
      obtain ⟨rfl, rfl⟩ := pure_some.mp h
      exact append_nothing hs hst hrep (by omega)

/-- What `append` does with an exception: the record is the saved one again. -/
theorem undo_some {e : String} {saved : Snapshot} (hst : s.sequences.lookup seq = some st)
    (hsame : SameGeometry saved st) (hgrown : saved.blocks <+: st.blocks)
    (h : (do
      let st ← Op.getSequence seq
      Op.setSequence seq { st with
        blocks := st.blocks.take saved.blocks.length
        tail := saved.tail
        tailBlock := saved.tailBlock
        position := saved.position }
      Call.throw e : Op Unit) s = some (r, s')) :
    r = .error e ∧ s' = s.put seq saved := by
  obtain ⟨st₀, hst₀, hbody⟩ := getSequence_bind h
  obtain rfl := Option.some.inj (hst.symm.trans hst₀)
  rw [setSequence_bind] at hbody
  obtain ⟨rfl, rfl⟩ := throw_some.mp hbody
  refine ⟨rfl, ?_⟩
  rw [← prefix_iff_eq_take.mp hgrown, hsame.rowBytes, hsame.blockRows, hsame.priority]

theorem Around.release {ids : List Nat} (h : Around seq { s with locals := ids ++ s.locals } t) :
    Around seq s { t with locals := s.locals } :=
  ⟨h.sequences, h.snapshots, rfl, h.lists, h.bufferBytes,
    h.payloads.mono fun _ hid => hid.imp_left (mem_append_right ids)⟩

/-- **`append`** adds its rows, or throws and leaves the record as it was. -/
theorem append_some (h : Op.append seq rows count s = some (r, s')) (hs : s.Sound)
    (hst : s.sequences.lookup seq = some st) (hrep : Represents s.store st data)
    (hrows : rows.length = count * st.rowBytes) :
    s'.Sound ∧ Around seq s s' ∧ ∃ st', s'.sequences.lookup seq = some st' ∧
      SameGeometry st st' ∧
      (r = .ok () → Represents s'.store st' (data ++ rows)) ∧
      (∀ e, r = .error e → Represents s'.store st' data) := by
  unfold Op.append at h
  obtain ⟨st₀, hst₀, hbody⟩ := getSequence_bind h
  obtain rfl := Option.some.inj (hst.symm.trans hst₀)
  obtain ⟨t, ht, rfl⟩ := holding_some hbody
  have hlocal : ∀ id ∈ st.pointers, s.held id = true := fun id => held_of_sequence hst
  have hsound : ({ s with locals := st.tailBlock.toList ++ s.locals } : System).Sound := by
    refine hs.mono fun id hid => ?_
    rcases held_locals.mp hid with htail | hid'
    · exact hlocal id (mem_append_right _ htail)
    · exact hid'
  have hfewer : ∀ u : System, Around seq { s with locals := st.tailBlock.toList ++ s.locals } u →
      u.Sound → ({ u with locals := s.locals } : System).Sound := by
    intro u hu husound
    refine husound.mono fun id hid => ?_
    rw [System.held_iff] at hid ⊢
    refine hid.imp_left fun hid' => ?_
    rw [hu.locals]
    exact mem_append_right _ hid'
  rcases tryCatch_some.mp ht with ⟨_, hdone, rfl⟩ | ⟨e, u, hthrown, hundo⟩
  · obtain ⟨hgrows, hresult⟩ := appendBody_some hdone hsound hst hrep hrows
    obtain ⟨st', hst', hrep'⟩ := hresult rfl
    obtain ⟨st₁, hst₁, hsame, -⟩ := hgrows.record
    obtain rfl := Option.some.inj (hst'.symm.trans hst₁)
    exact ⟨hfewer t hgrows.around hgrows.sound, hgrows.around.release, st', hst', hsame,
      fun _ => hrep', nofun⟩
  · obtain ⟨hgrows, -⟩ := appendBody_some hthrown hsound hst hrep hrows
    obtain ⟨st', hst', hsame, hgrown⟩ := hgrows.record
    obtain ⟨rfl, rfl⟩ := undo_some hst' hsame hgrown hundo
    have hback : ∀ id ∈ st.pointers, u.held id = true := by
      intro id hid
      rcases mem_append.mp hid with hold | htail
      · exact held_of_sequence hst' (mem_append_left _ (hgrown.subset hold))
      · refine System.held_iff.mpr (Or.inl ?_)
        rw [hgrows.around.locals]
        exact mem_append_left _ htail
    have hrep' : Represents u.store st data := by
      have hkept : SamePayloads (fun id => id ∈ st.pointers) s.store u.store := ?_
      · exact hrep.frame hkept fun _ hid => hid
      intro id b hid hb
      rcases mem_append.mp hid with hold | htail
      · exact hgrows.payloads id b hold hb
      · exact hgrows.around.payloads id b (Or.inl (mem_append_left _ htail)) hb
    have haround := hgrows.around.trans (Around.put u seq st)
    exact ⟨hfewer _ haround (hgrows.sound.put hback), haround.release, st, u.put_lookup seq st,
      .refl st, nofun, fun _ _ => hrep'⟩

/-! ### Sealing and cutting -/

theorem sealed_some (hrep : Represents s.store st data)
    (h : Op.write st.tail st.priority s = some (.ok id, s')) (hs : s.Sound)
    (hopen : st.tailBlock = none) (hheld : ∀ id ∈ st.pointers, s.held id = true) :
    ({ s' with locals := [id] ++ s'.locals } : System).Sound ∧
      Represents s'.store { st with tailBlock := some id, tail := [] } data ∧
      ∀ id' ∈ ({ st with tailBlock := some id, tail := [] } : Snapshot).pointers,
        id' ∈ [id] ∨ s'.held id' = true := by
  obtain ⟨-, hframe, hnew⟩ := write_some h hs
  obtain ⟨hsound, hblock⟩ := hnew id rfl
  refine ⟨hsound, (hrep.frame hframe.payloads hheld).sealed hopen hblock, fun id' hid' => ?_⟩
  rcases mem_append.mp hid' with hold | hlast
  · rw [hframe.held]
    exact Or.inr (hheld id' (mem_append_left _ hold))
  · exact Or.inl hlast

theorem Represents.open_of_tail (hrep : Represents c st data) (htail : st.tail ≠ []) :
    st.tailBlock = none := by
  have hrest := hrep.tail
  cases htb : st.tailBlock with
  | none => rfl
  | some id =>
    rw [htb] at hrest
    exact absurd hrest.1 htail

/-- **`seal_tail`** changes nothing that a reader sees, whether it returns or throws. -/
theorem sealTail_some (h : Op.sealTail seq s = some (r, s')) (hs : s.Sound)
    (hst : s.sequences.lookup seq = some st) (hrep : Represents s.store st data) :
    s'.Sound ∧ Around seq s s' ∧ ∃ st', s'.sequences.lookup seq = some st' ∧
      SameGeometry st st' ∧ Represents s'.store st' data := by
  unfold Op.sealTail at h
  obtain ⟨st₀, hst₀, hbody⟩ := getSequence_bind h
  obtain rfl := Option.some.inj (hst.symm.trans hst₀)
  have hheld : ∀ id ∈ st.pointers, s.held id = true := fun _ => held_of_sequence hst
  split at hbody
  · rename_i htail
    rcases bind_some.mp hbody with ⟨e, hwrite, rfl⟩ | ⟨id, t, hwrite, hput⟩
    · obtain ⟨hs', hframe, -⟩ := write_some hwrite hs
      refine ⟨hs', hframe.around seq, st, ?_, .refl st, hrep.frame hframe.payloads hheld⟩
      rw [hframe.sequences]
      exact hst
    · obtain ⟨rfl, -⟩ := setSequence_some hput
      obtain ⟨-, hframe, -⟩ := write_some hwrite hs
      obtain ⟨hsound, hrep', hpoints⟩ := sealed_some hrep hwrite hs (hrep.open_of_tail htail) hheld
      exact ⟨hsound.put_new hpoints, (hframe.around seq).trans (Around.put t seq _), _,
        t.put_lookup seq _, ⟨rfl, rfl, rfl⟩, hrep'⟩
  · obtain ⟨rfl, rfl⟩ := pure_some.mp hbody
    exact ⟨hs, Around.refl seq _, st, hst, .refl st, hrep⟩

/-- The part of a tail that a cut keeps is read back, and the rest goes on with it. -/
theorem keptTail_bind {β : Type} {f : Bytes → Op β} {rows : Nat} {r : Except String β}
    (h : (if rows % st.blockRows * st.rowBytes ≠ 0 then
        Op.readRows st (rows / st.blockRows * st.blockRows) (rows % st.blockRows) >>= f
      else pure [] >>= f) s = some (r, s')) (hs : s.Sound) (hrep : Represents s.store st data)
    (hheld : ∀ id ∈ st.pointers, s.held id = true) :
    (∃ e, r = .error e ∧ s'.Sound ∧ Frame s s') ∨
      ∃ t, t.Sound ∧ Frame s t ∧ f (st.kept data rows) t = some (r, s') := by
  split at h
  · rcases bind_some.mp h with ⟨e, hread, rfl⟩ | ⟨tail, t, hread, hrest⟩
    · obtain ⟨hs', hframe, -⟩ := readRows_some hread hs hrep hheld
      exact Or.inl ⟨e, rfl, hs', hframe⟩
    · obtain ⟨ht, hframe, hout⟩ := readRows_some hread hs hrep hheld
      obtain ⟨-, rfl⟩ := hout tail rfl
      exact Or.inr ⟨t, ht, hframe, hrest⟩
  · rename_i hnone
    have hkept : st.kept data rows = [] := by
      unfold Snapshot.kept
      rw [Nat.eq_zero_of_not_pos fun hpos => hnone (Nat.pos_iff_ne_zero.mp hpos), take_zero]
    refine Or.inr ⟨s, hs, Frame.refl s, ?_⟩
    rw [hkept]
    exact h

theorem cut_some {position : Nat} (h : Op.cut seq position s = some (r, s')) (hs : s.Sound)
    (hst : s.sequences.lookup seq = some st) (hrep : Represents s.store st data) :
    s'.Sound ∧ Around seq s s' ∧ ∃ st', s'.sequences.lookup seq = some st' ∧
      SameGeometry st st' ∧
      (r = .ok () → position ≤ st.position ∧
        Represents s'.store st' (data.take (position * st.rowBytes))) ∧
      ∀ e, r = .error e → Represents s'.store st' data := by
  unfold Op.cut at h
  obtain ⟨st₀, hst₀, hbody⟩ := getSequence_bind h
  obtain rfl := Option.some.inj (hst.symm.trans hst₀)
  have hheld : ∀ id ∈ st.pointers, s.held id = true := fun _ => held_of_sequence hst
  split at hbody
  · obtain ⟨rfl, rfl⟩ := throw_some.mp hbody
    exact ⟨hs, Around.refl seq _, st, hst, .refl st, nofun, fun _ _ => hrep⟩
  rename_i hrange
  rcases keptTail_bind hbody hs hrep hheld with ⟨e, rfl, hs', hframe⟩ | ⟨t, ht, hframe, hput⟩
  · refine ⟨hs', hframe.around seq, st, ?_, .refl st, nofun,
      fun _ _ => hrep.frame hframe.payloads hheld⟩
    rw [hframe.sequences]
    exact hst
  · obtain ⟨rfl, rfl⟩ := setSequence_some hput
    have hrep' := (hrep.frame hframe.payloads hheld).cutTo (Nat.le_of_not_lt hrange)
    have hsound : (t.put seq (st.cutTo position (st.kept data position))).Sound := by
      refine ht.put fun id hid => ?_
      rw [hframe.held]
      exact hheld id (Snapshot.cutTo_pointers hid)
    exact ⟨hsound, (hframe.around seq).trans (Around.put t seq _), _, t.put_lookup seq _,
      ⟨rfl, rfl, rfl⟩, fun _ => ⟨Nat.le_of_not_lt hrange, hrep'⟩, nofun⟩

/-- **`prefix`** gives a record of the first rows, whose blocks are the snapshot's or new. -/
theorem prefixOf_some {rows : Nat} {r : Except String Snapshot}
    (h : Op.prefixOf st rows s = some (r, s')) (hs : s.Sound) (hrep : Represents s.store st data)
    (hheld : ∀ id ∈ st.pointers, s.held id = true) :
    s'.Sound ∧ Frame s s' ∧ ∀ result, r = .ok result →
      rows ≤ st.position ∧ SameGeometry st result ∧
      Represents s'.store result (data.take (rows * st.rowBytes)) ∧
      ∃ new : List Nat, ({ s' with locals := new ++ s'.locals } : System).Sound ∧
        ∀ id ∈ result.pointers, id ∈ new ∨ s'.held id = true := by
  unfold Op.prefixOf at h
  split at h
  · obtain ⟨rfl, rfl⟩ := throw_some.mp h
    exact ⟨hs, Frame.refl _, nofun⟩
  rename_i hrange
  rcases keptTail_bind h hs hrep hheld with ⟨e, rfl, hs', hframe⟩ | ⟨t, ht, hframe, hrest⟩
  · exact ⟨hs', hframe, nofun⟩
  have hrows := Nat.le_of_not_lt hrange
  have hrep' := (hrep.frame hframe.payloads hheld).cutTo hrows
  have hheld' : ∀ id ∈ (st.cutTo rows (st.kept data rows)).pointers, t.held id = true := by
    intro id hid
    rw [hframe.held]
    exact hheld id (Snapshot.cutTo_pointers hid)
  dsimp only at hrest
  split at hrest
  · rcases bind_some.mp hrest with ⟨e, hwrite, rfl⟩ | ⟨id, u, hwrite, hresult⟩
    · obtain ⟨hs', hframe', -⟩ := write_some hwrite ht
      exact ⟨hs', hframe.trans hframe', nofun⟩
    · obtain ⟨hs', hframe', -⟩ := write_some hwrite ht
      obtain ⟨hsound, hsealed, hpoints⟩ := sealed_some hrep' hwrite ht rfl hheld'
      obtain ⟨rfl, rfl⟩ := pure_some.mp hresult
      refine ⟨hs', hframe.trans hframe', fun result hok => ?_⟩
      obtain rfl := Except.ok.inj hok
      exact ⟨hrows, ⟨rfl, rfl, rfl⟩, hsealed, [id], hsound, hpoints⟩
  · obtain ⟨rfl, rfl⟩ := pure_some.mp hrest
    refine ⟨ht, hframe, fun result hok => ?_⟩
    obtain rfl := Except.ok.inj hok
    exact ⟨hrows, ⟨rfl, rfl, rfl⟩, hrep', [], ht, fun id hid => Or.inr (hheld' id hid)⟩

end TyloQuant.QsaKv
