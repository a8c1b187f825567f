import TyloQuant.QsaKv.Changes
import TyloQuant.QsaKv.Progress

/-!
# The operations succeed

From a state in which no file operation has failed, an operation whose arguments are in order does
not throw as long as none fails, and it can return.
-/

namespace TyloQuant.QsaKv

open Lib Call List

/-! ### Succeeding -/

/-- As long as nothing fails the call does not throw, and there is a schedule under which it
    returns. -/
structure Succeeds {α : Type} (memory : Bool) (x : Op α) (s : System) : Prop where
  safe : ∀ schedule, Calm memory schedule → NoThrow memory x { s with schedule }
  live : ∃ a t, Returns x s a t ∧ t.store.error = none

namespace Succeeds

variable {α β : Type} {memory : Bool} {s : System} {x : Op α} {f : α → Op β} {a : α}

/-- What is scheduled in the state does not matter. -/
theorem reschedule {schedule : List Turn} (h : Succeeds memory x s) :
    Succeeds memory x { s with schedule } := ⟨h.safe, h.live⟩

theorem pure (he : s.store.error = none) : Succeeds memory (Pure.pure a : Op α) s :=
  ⟨fun schedule hcalm => NoThrow.pure (s := { s with schedule }) ⟨he, hcalm⟩ a, a, s,
    Returns.of_eq fun _ => rfl, he⟩

theorem bind (hx : Succeeds memory x s) (hf : ∀ schedule a t,
      x { s with schedule } = some (.ok a, t) → t.store.error = none → Succeeds memory (f a) t) :
    Succeeds memory (x >>= f) s := by
  refine ⟨fun schedule hcalm => (hx.safe schedule hcalm).bind fun a t ha => ?_, ?_⟩
  · obtain ⟨-, ht⟩ := hx.safe schedule hcalm _ _ ha
    exact (hf schedule a t ha ht.error).safe t.schedule ht.schedule
  · obtain ⟨a, t, ⟨schedule, hcalm, hrun⟩, he⟩ := hx.live
    obtain ⟨b, u, hret, hu⟩ := (hf _ a { t with schedule := [] } (hrun []) he).live
    exact ⟨b, u, Returns.bind ⟨schedule, hcalm, hrun⟩ hret, hu⟩

theorem congr {y : Op α} (hxy : ∀ schedule, x { s with schedule } = y { s with schedule })
    (h : Succeeds memory y s) : Succeeds memory x s := by
  refine ⟨fun schedule hcalm r s' hrun => h.safe schedule hcalm r s' (hxy schedule ▸ hrun), ?_⟩
  obtain ⟨a, t, ⟨schedule, hcalm, hrun⟩, he⟩ := h.live
  exact ⟨a, t, ⟨schedule, hcalm, fun rest => (hxy _).trans (hrun rest)⟩, he⟩

theorem get_bind {f : System → Op β} (hf : ∀ schedule, f { s with schedule } = f s)
    (h : Succeeds memory (f s) s) : Succeeds memory (Call.get >>= f) s :=
  h.congr fun schedule => by rw [Call.get_bind, hf]

theorem modify {g : System → System} (hg : ∀ schedule, g { s with schedule } = { g s with schedule })
    (he : (g s).store.error = none) : Succeeds memory (Call.modify g) s := by
  refine ⟨fun schedule hcalm r s' hrun => ?_, ⟨⟩, g s, Returns.of_eq fun rest => ?_, he⟩
  · obtain ⟨rfl, rfl⟩ := Prod.mk.inj (Option.some.inj hrun)
    rw [hg]
    exact ⟨⟨_, rfl⟩, he, hcalm⟩
  · exact congrArg (fun t => some (Except.ok PUnit.unit, t)) (hg rest)

theorem holding {ids : List Nat} (h : Succeeds memory x { s with locals := ids ++ s.locals }) :
    Succeeds memory (Op.holding ids x) s := by
  obtain ⟨a, t, hret, he⟩ := h.live
  exact ⟨fun schedule hcalm => NoThrow.holding (h.safe schedule hcalm), a, _, hret.holding, he⟩

/-- The handler is not needed. -/
theorem tryCatch {handler : String → Op α} (h : Succeeds memory x s) :
    Succeeds memory (Call.tryCatch x handler) s := by
  refine ⟨fun schedule hcalm r s' hrun => ?_, ?_⟩
  · rcases tryCatch_some.mp hrun with ⟨a, ha, rfl⟩ | ⟨e, t, he, -⟩
    · exact h.safe schedule hcalm _ _ ha
    · obtain ⟨⟨a, ha⟩, -⟩ := h.safe schedule hcalm _ _ he
      cases ha
  · obtain ⟨a, t, ⟨schedule, hcalm, hrun⟩, he⟩ := h.live
    refine ⟨a, t, ⟨schedule, hcalm, fun rest => ?_⟩, he⟩
    unfold Call.tryCatch
    rw [hrun rest]

variable {seq snap : Nat} {st : Snapshot}

theorem getSequence_bind {f : Snapshot → Op β} (hst : s.sequences.lookup seq = some st)
    (h : Succeeds memory (f st) s) : Succeeds memory (Op.getSequence seq >>= f) s :=
  h.congr fun schedule => bind_returns (by rw [Op.getSequence, Call.get_bind, hst]; rfl)

theorem getSnapshot_bind {f : Snapshot → Op β} (hst : s.snapshots.lookup snap = some st)
    (h : Succeeds memory (f st) s) : Succeeds memory (Op.getSnapshot snap >>= f) s :=
  h.congr fun schedule => bind_returns (by rw [Op.getSnapshot, Call.get_bind, hst]; rfl)

theorem setSequence (he : s.store.error = none) : Succeeds memory (Op.setSequence seq st) s :=
  modify (fun _ => rfl) he

theorem setSequence_bind {f : PUnit → Op β} (he : s.store.error = none)
    (h : Succeeds memory (f ⟨⟩) (s.put seq st)) :
    Succeeds memory (Op.setSequence seq st >>= f) s := by
  refine (setSequence he).bind fun schedule a t hrun _ => ?_
  obtain ⟨rfl, -⟩ := setSequence_some hrun
  exact h.reschedule

theorem note {f : Lists → Lists} (he : s.store.error = none) : Succeeds memory (Op.note f) s :=
  modify (fun _ => rfl) he

end Succeeds

/-! ### Reading -/

variable {memory : Bool} {s : System} {id offset size : Nat} {payload : Bytes}

theorem read_succeeds (hs : Ready s) (hheld : s.held id = true) (hb : BlockOf s.store id payload) :
    Succeeds memory (Op.read id) s := by
  obtain ⟨t, hret, ht⟩ := read_returns hs hheld hb
  exact ⟨fun schedule hcalm => read_faultless (s := { s with schedule }) hs.sound
    ⟨hs.error, hcalm⟩ hheld, payload, t, hret, ht.error⟩

theorem copied_succeeds {bytes : Bytes} (he : s.store.error = none)
    (h : offset + size ≤ bytes.length) : Succeeds memory (Op.copied bytes offset size) s := by
  unfold Op.copied
  rw [if_pos h]
  exact Succeeds.pure he

theorem readPart_succeeds (hs : Ready s) (hheld : s.held id = true)
    (hb : BlockOf s.store id payload) (hsize : offset + size ≤ payload.length) :
    Succeeds memory (Op.read id >>= fun bytes => Op.copied bytes offset size) s := by
  refine (read_succeeds hs hheld hb).bind fun schedule bytes t hread he => copied_succeeds he ?_
  obtain ⟨b, hlookup, rfl⟩ := hb
  obtain ⟨-, -, hbytes⟩ := read_some hread hs.sound
  rwa [hbytes bytes rfl hheld b hlookup]

variable {st : Snapshot} {data : Bytes} {start take rows fuel : Nat}

theorem readChunk_succeeds (hs : Ready s) (hst : Represents s.store st data)
    (hheld : ∀ id ∈ st.pointers, s.held id = true) (htake : take ≤ st.blockRows - start % st.blockRows)
    (hend : start + take ≤ st.position) (hsome : 0 < take) :
    Succeeds memory (Op.readChunk st (start / st.blockRows) (start % st.blockRows * st.rowBytes)
      (take * st.rowBytes)) s := by
  have hmod := Nat.mod_lt start hst.blockRows
  have hstart := Nat.div_add_mod start st.blockRows
  have hposition := Nat.div_add_mod st.position st.blockRows
  have hblocks := hst.blocks
  have hle : start / st.blockRows ≤ st.blocks.length := by
    rw [hblocks]
    exact Nat.div_le_div_right (by omega)
  unfold Op.readChunk
  by_cases hlast : start / st.blockRows = st.blocks.length
  · rw [if_pos hlast]
    have hroom : start % st.blockRows * st.rowBytes + take * st.rowBytes ≤
        (data.drop (st.blocks.length * st.blockRows * st.rowBytes)).length := by
      rw [hst.tail_length, ← Nat.add_mul]
      refine Nat.mul_le_mul_right st.rowBytes ?_
      rw [hlast, hblocks] at hstart
      omega
    have htail := hst.tail
    cases htb : st.tailBlock with
    | some id =>
      rw [htb] at htail
      have hid : id ∈ st.pointers :=
        mem_append_right _ (by rw [htb]; exact mem_singleton_self id)
      exact readPart_succeeds hs (hheld _ hid) htail.2 hroom
    | none =>
      rw [htb] at htail
      dsimp only
      exact copied_succeeds hs.error (htail ▸ hroom)
  · rw [if_neg hlast]
    have hlt : start / st.blockRows < st.blocks.length := Nat.lt_of_le_of_ne hle hlast
    have hblock : st.blocks[start / st.blockRows]? = some st.blocks[start / st.blockRows] :=
      getElem?_eq_getElem hlt
    rw [hblock]
    have hid : st.blocks[start / st.blockRows] ∈ st.pointers :=
      mem_append_left _ (getElem_mem hlt)
    refine readPart_succeeds hs (hheld _ hid) (hst.full _ _ hblock) ?_
    have hblockEnd := hst.block_end_le hlt
    rw [length_take, length_drop, ← Nat.add_mul]
    refine (Nat.mul_le_mul_right st.rowBytes (m := st.blockRows) (by omega)).trans ?_
    exact le_min (Nat.le_refl _) (by omega)

theorem readLoop_succeeds (hs : Ready s) (hst : Represents s.store st data)
    (hheld : ∀ id ∈ st.pointers, s.held id = true) (hfuel : rows ≤ fuel)
    (hend : start + rows ≤ st.position) : Succeeds memory (Op.readLoop st fuel start rows) s := by
  induction fuel generalizing start rows s with
  | zero =>
    obtain rfl : rows = 0 := by omega
    exact Succeeds.pure hs.error
  | succ fuel ih =>
    cases rows with
    | zero => exact Succeeds.pure hs.error
    | succ rows =>
      have hmod := Nat.mod_lt start hst.blockRows
      have htake := Nat.min_le_right (rows + 1) (st.blockRows - start % st.blockRows)
      have hle := Nat.min_le_left (rows + 1) (st.blockRows - start % st.blockRows)
      have hsome : 0 < min (rows + 1) (st.blockRows - start % st.blockRows) :=
        Nat.lt_min.mpr ⟨Nat.succ_pos rows, by omega⟩
      unfold Op.readLoop
      dsimp only
      generalize min (rows + 1) (st.blockRows - start % st.blockRows) = take at *
      refine (readChunk_succeeds hs hst hheld htake (by omega) hsome).bind
        fun schedule chunk t hchunk he => ?_
      obtain ⟨ht, hframe, -⟩ := readChunk_some hchunk hs.sound hst hheld htake
      exact (ih ⟨ht, he⟩ (hst.frame hframe.payloads hheld)
        (fun id hid => (hframe.held id).trans (hheld id hid)) (by omega) (by omega)).bind
        fun _ _ _ _ hu => Succeeds.pure hu

/-- **`read_rows`** of rows that are there. -/
theorem readRows_succeeds (hs : Ready s) (hst : Represents s.store st data)
    (hheld : ∀ id ∈ st.pointers, s.held id = true) (hend : start + rows ≤ st.position) :
    Succeeds memory (Op.readRows st start rows) s := by
  unfold Op.readRows
  rw [if_neg (by omega)]
  exact readLoop_succeeds hs hst hheld (Nat.le_refl rows) hend

/-! ### Appending -/

/-- The store takes the blocks of the record. -/
structure Writable (bufferBytes : Nat) (st : Snapshot) : Prop where
  rowBytes : 0 < st.rowBytes
  blockRows : 0 < st.blockRows
  fits : st.rowBytes * st.blockRows ≤ bufferBytes / 2
  priority : 0 ≤ st.priority ∧ st.priority ≤ 2

theorem Writable.same {bufferBytes : Nat} {st' : Snapshot} (h : Writable bufferBytes st)
    (hsame : SameGeometry st st') : Writable bufferBytes st' := by
  obtain ⟨hrow, hblock, hprio⟩ := hsame
  exact ⟨hrow ▸ h.rowBytes, hblock ▸ h.blockRows, hrow ▸ hblock ▸ h.fits, hprio ▸ h.priority⟩

theorem write_succeeds {bytes : Bytes} (hs : Ready s) (h : Writable s.store.bufferBytes st)
    (hsome : bytes ≠ []) (hsize : bytes.length ≤ st.rowBytes * st.blockRows) :
    Succeeds true (Op.write bytes st.priority) s := by
  have htakes : ¬(bytes = [] ∨ s.store.bufferBytes / 2 < bytes.length ∨ st.priority < 0 ∨
      2 < st.priority) := by
    obtain ⟨-, -, hfits, hlow, hhigh⟩ := h
    simp only [hsome, false_or, not_or]
    omega
  exact ⟨fun schedule hcalm => write_faultless ⟨hs.error, hcalm⟩ htakes, write_returns hs htakes⟩

variable {seq count full : Nat} {bytes : Bytes}

/-- A record that points to no other blocks is replaced. -/
theorem Ready.put {st' : Snapshot} (hs : Ready s) (hst : s.sequences.lookup seq = some st)
    (hsame : st'.pointers = st.pointers) : Ready (s.put seq st') :=
  ⟨hs.sound.put fun _ hid => held_of_sequence hst (hsame ▸ hid), hs.error⟩

/-- The loop of `append`, when the tail has `full` rows. -/
theorem appendLoop_succeeds (hs : Ready s) (hst : s.sequences.lookup seq = some st)
    (hwritable : Writable s.store.bufferBytes st) (hopen : st.tailBlock = none)
    (htail : st.tail.length = full * st.rowBytes)
    (hroom : full < st.blockRows) (hrows : bytes.length = count * st.rowBytes) (hfuel : count ≤ fuel) :
    Succeeds true (Op.appendLoop seq fuel bytes count) s := by
  induction fuel generalizing bytes count full s st with
  | zero =>
    obtain rfl : count = 0 := by omega
    exact Succeeds.pure hs.error
  | succ fuel ih =>
    cases count with
    | zero => exact Succeeds.pure hs.error
    | succ count =>
      unfold Op.appendLoop
      refine Succeeds.getSequence_bind hst ?_
      dsimp only
      rw [htail, Nat.mul_div_cancel _ hwritable.rowBytes]
      have htake := Nat.min_le_right (count + 1) (st.blockRows - full)
      have hle := Nat.min_le_left (count + 1) (st.blockRows - full)
      have hsome : 0 < min (count + 1) (st.blockRows - full) :=
        Nat.lt_min.mpr ⟨Nat.succ_pos count, by omega⟩
      generalize min (count + 1) (st.blockRows - full) = take at *
      have hlength : (st.tail ++ bytes.take (take * st.rowBytes)).length =
          (full + take) * st.rowBytes := by
        rw [length_append, htail, length_take, hrows,
          Nat.min_eq_left (Nat.mul_le_mul_right st.rowBytes hle), Nat.add_mul]
      have hrest : (bytes.drop (take * st.rowBytes)).length = (count + 1 - take) * st.rowBytes := by
        rw [length_drop, hrows, Nat.sub_mul]
      generalize st.tail ++ bytes.take (take * st.rowBytes) = tail at *
      generalize bytes.drop (take * st.rowBytes) = rest at *
      have hput : Ready (s.put seq { st with tail, position := st.position + take }) :=
        hs.put hst rfl
      refine Succeeds.setSequence_bind hs.error ?_
      split
      · rename_i hfull
        have hput' : Ready ((s.put seq { st with tail, position := st.position + take }).put seq
            { st with tail := [], position := st.position + take }) :=
          hput.put (s.put_lookup _ _) rfl
        have hlookup := (s.put seq { st with tail, position := st.position + take }).put_lookup seq
          { st with tail := [], position := st.position + take }
        have hwritable' : Writable ((s.put seq { st with tail, position := st.position + take }).put
            seq { st with tail := [], position := st.position + take }).store.bufferBytes st :=
          hwritable
        refine Succeeds.setSequence_bind hs.error ?_
        generalize (s.put seq { st with tail, position := st.position + take }).put seq
          { st with tail := [], position := st.position + take } = s₂ at *
        have hne : tail ≠ [] := by
          rintro rfl
          have := Nat.mul_pos hwritable.rowBytes hwritable.blockRows
          exact absurd hfull this.ne
        refine (write_succeeds hput' hwritable' hne hfull.le).bind fun schedule id t hwrite he => ?_
        obtain ⟨hgrows, -⟩ := writeTail_some (s := { s₂ with schedule }) hlookup
          (bind_some.mpr (Or.inr ⟨id, t, hwrite, rfl⟩)) hput'.sound
        refine Succeeds.setSequence_bind he (ih ⟨hgrows.sound, he⟩ (t.put_lookup seq _) ?_ hopen
          (Nat.zero_mul _).symm hwritable.blockRows hrest (by omega))
        have hbuffer := hgrows.around.bufferBytes
        exact hbuffer ▸ hwritable'.same ⟨rfl, rfl, rfl⟩
      · rename_i hpart
        refine ih hput (s.put_lookup _ _) (hwritable.same ⟨rfl, rfl, rfl⟩) hopen hlength ?_ hrest
          (by omega)
        have hle : full + take ≤ st.blockRows := by omega
        refine Nat.lt_of_le_of_ne hle fun hfull => hpart ?_
        show tail.length = st.rowBytes * st.blockRows
        rw [hlength, hfull, Nat.mul_comm]

theorem append_succeeds (hs : Ready s) (hst : s.sequences.lookup seq = some st)
    (hwritable : Writable s.store.bufferBytes st) (hrep : Represents s.store st data)
    (hrows : bytes.length = count * st.rowBytes) : Succeeds true (Op.append seq bytes count) s := by
  have hmod := Nat.mod_lt st.position hrep.blockRows
  have hheld : ∀ id ∈ st.pointers, s.held id = true := fun id => held_of_sequence hst
  have hsound : Ready { s with locals := st.tailBlock.toList ++ s.locals } := by
    refine ⟨hs.sound.mono fun id hid => ?_, hs.error⟩
    rcases held_locals.mp hid with htail | hid'
    · exact hheld id (mem_append_right _ htail)
    · exact hid'
  unfold Op.append
  refine Succeeds.getSequence_bind hst (Succeeds.holding (Succeeds.tryCatch ?_))
  cases htb : st.tailBlock with
  | none =>
    rw [htb] at hsound
    exact appendLoop_succeeds hsound hst hwritable htb (hrep.tail_size htb) hmod hrows
      (Nat.le_refl count)
  | some id =>
    have hid : id ∈ st.pointers :=
      mem_append_right _ (by rw [htb]; exact mem_singleton_self id)
    have htail := hrep.tail
    rw [htb] at htail hsound
    dsimp only
    split
    · refine (read_succeeds hsound ?_ htail.2).bind fun schedule bytes' t hread he => ?_
      · exact held_locals.mpr (Or.inr (hheld id hid))
      obtain ⟨b, hb, hpayload⟩ := htail.2
      obtain ⟨ht, hframe, hbytes⟩ := read_some hread hsound.sound
      obtain rfl := (hbytes bytes' rfl (held_locals.mpr (Or.inr (hheld id hid))) b hb).trans hpayload
      have hst' : t.sequences.lookup seq = some st := by
        rw [hframe.sequences]
        exact hst
      refine Succeeds.setSequence_bind he (appendLoop_succeeds ⟨?_, he⟩ (t.put_lookup seq _) ?_ rfl
        hrep.tail_length hmod hrows (Nat.le_refl count))
      · refine ht.put fun id' hid' => held_of_sequence hst' (mem_append_left _ ?_)
        simpa [Snapshot.pointers] using hid'
      · have hbuffer := hframe.bufferBytes
        exact hbuffer ▸ hwritable.same ⟨rfl, rfl, rfl⟩
    · rename_i hcount
      obtain rfl : count = 0 := by omega
      exact Succeeds.pure hs.error

/-! ### Sealing and cutting -/

theorem sealTail_succeeds (hs : Ready s) (hst : s.sequences.lookup seq = some st)
    (hwritable : Writable s.store.bufferBytes st) (hrep : Represents s.store st data) :
    Succeeds true (Op.sealTail seq) s := by
  unfold Op.sealTail
  refine Succeeds.getSequence_bind hst ?_
  split
  · rename_i htail
    have hsize : st.tail.length ≤ st.rowBytes * st.blockRows := by
      rw [hrep.tail_size (hrep.open_of_tail htail), Nat.mul_comm]
      exact Nat.mul_le_mul_left _ (Nat.mod_lt _ hrep.blockRows).le
    exact (write_succeeds hs hwritable htail hsize).bind fun _ _ _ _ he => Succeeds.setSequence he
  · exact Succeeds.pure hs.error

theorem keptTail_succeeds {β : Type} {f : Bytes → Op β} (hs : Ready s)
    (hrep : Represents s.store st data) (hheld : ∀ id ∈ st.pointers, s.held id = true)
    (hrows : rows ≤ st.position)
    (hf : ∀ t, Ready t → t.store.bufferBytes = s.store.bufferBytes →
      Succeeds memory (f (st.kept data rows)) t) :
    Succeeds memory (if rows % st.blockRows * st.rowBytes ≠ 0 then
        Op.readRows st (rows / st.blockRows * st.blockRows) (rows % st.blockRows) >>= f
      else pure [] >>= f) s := by
  split
  · have hend : rows / st.blockRows * st.blockRows + rows % st.blockRows ≤ st.position := by
      rw [Nat.mul_comm, Nat.div_add_mod]
      exact hrows
    refine (readRows_succeeds hs hrep hheld hend).bind fun schedule tail t hread he => ?_
    obtain ⟨ht, hframe, hout⟩ := readRows_some hread hs.sound hrep hheld
    obtain ⟨-, rfl⟩ := hout tail rfl
    exact hf t ⟨ht, he⟩ hframe.bufferBytes
  · rename_i hnone
    have hkept : st.kept data rows = [] := by
      unfold Snapshot.kept
      rw [Nat.eq_zero_of_not_pos fun hpos => hnone (Nat.pos_iff_ne_zero.mp hpos), take_zero]
    exact hkept ▸ hf s hs rfl

theorem cut_succeeds {position : Nat} (hs : Ready s) (hst : s.sequences.lookup seq = some st)
    (hrep : Represents s.store st data) (hrange : position ≤ st.position) :
    Succeeds memory (Op.cut seq position) s := by
  unfold Op.cut
  refine Succeeds.getSequence_bind hst ?_
  rw [if_neg (Nat.not_lt.mpr hrange)]
  exact keptTail_succeeds hs hrep (fun _ => held_of_sequence hst) hrange fun t ht _ =>
    Succeeds.setSequence ht.error

theorem prefixOf_succeeds (hs : Ready s) (hwritable : Writable s.store.bufferBytes st)
    (hrep : Represents s.store st data) (hheld : ∀ id ∈ st.pointers, s.held id = true)
    (hrows : rows ≤ st.position) : Succeeds true (Op.prefixOf st rows) s := by
  unfold Op.prefixOf
  rw [if_neg (Nat.not_lt.mpr hrows)]
  refine keptTail_succeeds hs hrep hheld hrows fun t ht hbuffer => ?_
  dsimp only
  split
  · rename_i hsome
    have hsize : (st.kept data rows).length ≤ st.rowBytes * st.blockRows := by
      refine (length_take_le _ _).trans ?_
      rw [Nat.mul_comm]
      exact Nat.mul_le_mul_left _ (Nat.mod_lt _ hrep.blockRows).le
    rw [← hbuffer] at hwritable
    exact (write_succeeds ht hwritable hsome hsize).bind fun _ _ _ _ he => Succeeds.pure he
  · exact Succeeds.pure ht.error

end TyloQuant.QsaKv
