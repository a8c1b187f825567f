import TyloQuant.QsaKv.StoreCalls
import TyloQuant.Lib.Transition

/-!
# Sequences refine lists of rows

A record represents a byte string when its blocks hold the whole-block parts of it and its tail
the rest.  Reading gives the bytes asked for; appending, trimming, sealing, restoring and taking
a prefix come to a record that represents what the plain lists say, and no operation touches a
block that another record points to.
-/

namespace TyloQuant.QsaKv

open Lib Call List

/-! ### What a record represents -/

/-- A block of the store holds the bytes. -/
def BlockOf (c : QsaKvStore) (id : Nat) (bytes : Bytes) : Prop :=
  ∃ b, c.blocks.lookup id = some b ∧ b.payload = bytes

/-- The record represents the bytes. -/
structure Represents (c : QsaKvStore) (st : Snapshot) (data : Bytes) : Prop where
  rowBytes : 0 < st.rowBytes
  blockRows : 0 < st.blockRows
  length : data.length = st.position * st.rowBytes
  blocks : st.blocks.length = st.position / st.blockRows
  full : ∀ (i id : Nat), st.blocks[i]? = some id →
    BlockOf c id ((data.drop (i * st.blockRows * st.rowBytes)).take (st.blockRows * st.rowBytes))
  tail : match st.tailBlock with
    | none => st.tail = data.drop (st.blocks.length * st.blockRows * st.rowBytes)
    | some id => st.tail = [] ∧
        BlockOf c id (data.drop (st.blocks.length * st.blockRows * st.rowBytes))

/-- The record represents the rows, and its blocks are not too long for the store. -/
structure RepresentsRows (c : QsaKvStore) (st : Snapshot) (rows : List Row) : Prop where
  width : ∀ row ∈ rows, row.length = st.rowBytes
  bytes : Represents c st rows.flatten
  fits : st.rowBytes * st.blockRows ≤ c.bufferBytes / 2

variable {rows : List Row} {n : Nat}

theorem flatten_length (h : ∀ row ∈ rows, row.length = n) :
    rows.flatten.length = rows.length * n := by
  induction rows with
  | nil => simp
  | cons row rows ih =>
    rw [flatten_cons, length_append, h row mem_cons_self,
      ih fun r hr => h r (mem_cons_of_mem row hr), length_cons, Nat.succ_mul,
      Nat.add_comm]

theorem flatten_take (h : ∀ row ∈ rows, row.length = n) (k : Nat) :
    (rows.take k).flatten = rows.flatten.take (k * n) := by
  induction rows generalizing k with
  | nil => simp
  | cons row rows ih =>
    cases k with
    | zero => simp
    | succ k =>
      have hrow := h row mem_cons_self
      rw [take_succ_cons, flatten_cons, flatten_cons, Nat.succ_mul,
        take_append, ih fun r hr => h r (mem_cons_of_mem row hr),
        take_of_length_le (l := row) (by omega), hrow, Nat.add_sub_cancel]

theorem flatten_drop (h : ∀ row ∈ rows, row.length = n) (k : Nat) :
    (rows.drop k).flatten = rows.flatten.drop (k * n) := by
  induction rows generalizing k with
  | nil => simp
  | cons row rows ih =>
    cases k with
    | zero => simp
    | succ k =>
      have hrow := h row mem_cons_self
      rw [drop_succ_cons, flatten_cons, Nat.succ_mul, drop_append,
        ih fun r hr => h r (mem_cons_of_mem row hr),
        drop_of_length_le (l := row) (by omega), List.nil_append, hrow,
        Nat.add_sub_cancel]

variable {c : QsaKvStore} {c' : QsaKvStore} {held : Nat → Prop} {id : Nat} {bytes : Bytes}

theorem BlockOf.frame (h : SamePayloads held c c') (hid : held id) (hb : BlockOf c id bytes) :
    BlockOf c' id bytes := by
  obtain ⟨b, hlookup, rfl⟩ := hb
  exact h id b hid hlookup

variable {st : Snapshot} {data : Bytes}

/-- A record goes on representing its bytes as long as its blocks keep their payloads. -/
theorem Represents.frame (h : SamePayloads held c c') (hheld : ∀ id ∈ st.pointers, held id)
    (hst : Represents c st data) : Represents c' st data := by
  refine { hst with full := ?_, tail := ?_ }
  · intro i id hid
    refine (hst.full i id hid).frame h (hheld id ?_)
    exact mem_append_left _ (mem_of_getElem? hid)
  · have htail := hst.tail
    cases htb : st.tailBlock with
    | none =>
      rw [htb] at htail
      exact htail
    | some id =>
      rw [htb] at htail
      refine ⟨htail.1, htail.2.frame h (hheld id ?_)⟩
      exact mem_append_right _ (by rw [htb]; exact mem_singleton_self id)

theorem Represents.tail_length (hst : Represents c st data) :
    (data.drop (st.blocks.length * st.blockRows * st.rowBytes)).length =
      st.position % st.blockRows * st.rowBytes := by
  rw [length_drop, hst.length, hst.blocks, ← Nat.sub_mul]
  congr 1
  have hdiv := Nat.div_add_mod st.position st.blockRows
  rw [Nat.mul_comm] at hdiv
  omega

/-! ### Reading rows -/

variable {s s' : System} {r : Except String Bytes} {offset size : Nat}

theorem copied_some (h : Op.copied bytes offset size s = some (r, s')) :
    s' = s ∧ r = .ok ((bytes.drop offset).take size) := by
  unfold Op.copied at h
  split at h
  · obtain ⟨rfl, rfl⟩ := pure_some.mp h
    exact ⟨rfl, rfl⟩
  · exact absurd h not_blocked

theorem readPart_some
    (h : (Op.read id >>= fun bytes => Op.copied bytes offset size) s = some (r, s'))
    (hs : s.Sound) (hheld : s.held id = true) {payload : Bytes} (hb : BlockOf s.store id payload) :
    s'.Sound ∧ Frame s s' ∧ ∀ bytes, r = .ok bytes → bytes = (payload.drop offset).take size := by
  obtain ⟨b, hlookup, rfl⟩ := hb
  rcases bind_some.mp h with ⟨e, hread, rfl⟩ | ⟨bytes, t, hread, hcopy⟩
  · obtain ⟨hs', hframe, -⟩ := read_some hread hs
    exact ⟨hs', hframe, fun _ hok => by cases hok⟩
  · obtain ⟨hs', hframe, hbytes⟩ := read_some hread hs
    obtain ⟨rfl, rfl⟩ := copied_some hcopy
    refine ⟨hs', hframe, fun bytes' hok => ?_⟩
    obtain rfl := Except.ok.inj hok
    rw [hbytes bytes rfl hheld b hlookup]

variable {start : Nat} {take : Nat}

/-- The stretch of rows inside one block, out of the whole. -/
theorem part_of_block {blockRows rowBytes : Nat} (htake : take ≤ blockRows - start % blockRows)
    (hpos : 0 < blockRows) :
    (((data.drop (start / blockRows * blockRows * rowBytes)).take (blockRows * rowBytes)).drop
      (start % blockRows * rowBytes)).take (take * rowBytes) =
      (data.drop (start * rowBytes)).take (take * rowBytes) := by
  have hstart : start / blockRows * blockRows * rowBytes + start % blockRows * rowBytes =
      start * rowBytes := by
    rw [← Nat.add_mul, Nat.mul_comm (start / blockRows), Nat.div_add_mod]
  have hlt := Nat.mod_lt start hpos
  have hroom : take * rowBytes ≤ blockRows * rowBytes - start % blockRows * rowBytes := by
    rw [← Nat.sub_mul]
    exact Nat.mul_le_mul_right rowBytes htake
  rw [drop_take, take_take, drop_drop, hstart, Nat.min_eq_left hroom]

theorem readChunk_some
    (h : Op.readChunk st (start / st.blockRows) (start % st.blockRows * st.rowBytes)
      (take * st.rowBytes) s = some (r, s')) (hs : s.Sound) (hst : Represents s.store st data)
    (hheld : ∀ id ∈ st.pointers, s.held id = true)
    (htake : take ≤ st.blockRows - start % st.blockRows) :
    s'.Sound ∧ Frame s s' ∧ ∀ chunk, r = .ok chunk →
      chunk = (data.drop (start * st.rowBytes)).take (take * st.rowBytes) := by
  have hstart : start / st.blockRows * st.blockRows * st.rowBytes +
      start % st.blockRows * st.rowBytes = start * st.rowBytes := by
    rw [← Nat.add_mul, Nat.mul_comm (start / st.blockRows), Nat.div_add_mod]
  unfold Op.readChunk at h
  split at h
  · rename_i hlast
    have htail := hst.tail
    rw [← hlast] at htail
    cases htb : st.tailBlock with
    | some id =>
      rw [htb] at h htail
      have hid : id ∈ st.pointers :=
        mem_append_right _ (by rw [htb]; exact mem_singleton_self id)
      obtain ⟨hs', hframe, hbytes⟩ := readPart_some h hs (hheld id hid) htail.2
      refine ⟨hs', hframe, fun chunk hok => (hbytes chunk hok).trans ?_⟩
      rw [drop_drop, hstart]
    | none =>
      rw [htb] at h htail
      obtain ⟨rfl, rfl⟩ := copied_some h
      refine ⟨hs, Frame.refl _, fun chunk hok => ?_⟩
      obtain rfl := Except.ok.inj hok
      rw [htail, drop_drop, hstart]
  · cases hblock : st.blocks[start / st.blockRows]? with
    | none =>
      rw [hblock] at h
      obtain ⟨rfl, rfl⟩ := throw_some.mp h
      exact ⟨hs, Frame.refl _, fun _ hok => by cases hok⟩
    | some id =>
      rw [hblock] at h
      have hid : id ∈ st.pointers := mem_append_left _ (mem_of_getElem? hblock)
      obtain ⟨hs', hframe, hbytes⟩ := readPart_some h hs (hheld id hid) (hst.full _ id hblock)
      refine ⟨hs', hframe, fun chunk hok => (hbytes chunk hok).trans ?_⟩
      exact part_of_block htake hst.blockRows

theorem readLoop_some {fuel rows : Nat} (h : Op.readLoop st fuel start rows s = some (r, s'))
    (hs : s.Sound) (hst : Represents s.store st data)
    (hheld : ∀ id ∈ st.pointers, s.held id = true) :
    s'.Sound ∧ Frame s s' ∧ ∀ out, r = .ok out →
      out = (data.drop (start * st.rowBytes)).take (rows * st.rowBytes) := by
  induction fuel generalizing start rows s s' r with
  | zero =>
    cases rows with
    | zero =>
      obtain ⟨rfl, rfl⟩ := pure_some.mp h
      refine ⟨hs, Frame.refl _, fun out hok => ?_⟩
      obtain rfl := Except.ok.inj hok
      rw [Nat.zero_mul, take_zero]
    | succ rows => exact absurd h not_blocked
  | succ fuel ih =>
    cases rows with
    | zero =>
      obtain ⟨rfl, rfl⟩ := pure_some.mp h
      refine ⟨hs, Frame.refl _, fun out hok => ?_⟩
      obtain rfl := Except.ok.inj hok
      rw [Nat.zero_mul, take_zero]
    | succ rows =>
      have htake := Nat.min_le_right (rows + 1) (st.blockRows - start % st.blockRows)
      have htake' := Nat.min_le_left (rows + 1) (st.blockRows - start % st.blockRows)
      unfold Op.readLoop at h
      dsimp only at h
      generalize min (rows + 1) (st.blockRows - start % st.blockRows) = take at *
      rcases bind_some.mp h with ⟨e, hpart, rfl⟩ | ⟨chunk, t, hpart, hrest⟩
      · obtain ⟨hs', hframe, -⟩ := readChunk_some hpart hs hst hheld htake
        exact ⟨hs', hframe, fun _ hok => by cases hok⟩
      obtain ⟨ht, hframe, hchunk⟩ := readChunk_some hpart hs hst hheld htake
      have hst' := hst.frame hframe.payloads hheld
      have hheld' : ∀ id ∈ st.pointers, t.held id = true := fun id hid =>
        (hframe.held id).trans (hheld id hid)
      rcases bind_some.mp hrest with ⟨e, hloop, rfl⟩ | ⟨rest, t', hloop, hresult⟩
      · obtain ⟨hs', hframe', -⟩ := ih hloop ht hst' hheld'
        exact ⟨hs', hframe.trans hframe', fun _ hok => by cases hok⟩
      · obtain ⟨hs', hframe', hrows⟩ := ih hloop ht hst' hheld'
        obtain ⟨rfl, rfl⟩ := pure_some.mp hresult
        refine ⟨hs', hframe.trans hframe', fun out hok => ?_⟩
        obtain rfl := Except.ok.inj hok
        rw [hchunk chunk rfl, hrows rest rfl, Nat.add_mul, ← drop_drop, ← take_add,
          ← Nat.add_mul]
        congr 2
        omega

/-- **`read_rows`** gives the rows asked for. -/
theorem readRows_some {rows : Nat} (h : Op.readRows st start rows s = some (r, s')) (hs : s.Sound)
    (hst : Represents s.store st data) (hheld : ∀ id ∈ st.pointers, s.held id = true) :
    s'.Sound ∧ Frame s s' ∧ ∀ out, r = .ok out → start + rows ≤ st.position ∧
      out = (data.drop (start * st.rowBytes)).take (rows * st.rowBytes) := by
  unfold Op.readRows at h
  split at h
  · obtain ⟨rfl, rfl⟩ := throw_some.mp h
    exact ⟨hs, Frame.refl _, fun _ hok => by cases hok⟩
  · rename_i hrange
    obtain ⟨hs', hframe, hout⟩ := readLoop_some h hs hst hheld
    exact ⟨hs', hframe, fun out hok => ⟨by omega, hout out hok⟩⟩

end TyloQuant.QsaKv
