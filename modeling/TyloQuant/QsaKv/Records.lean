import TyloQuant.QsaKv.Refinement

/-!
# How a record changes

The changes that the operations make to a record, each with the bytes that the record represents
afterwards: rows appended to the tail, a full tail become a block, the tail sealed or read back,
and the record cut.
-/

namespace TyloQuant.QsaKv

open Lib Call List

variable {c : QsaKvStore} {st : Snapshot} {data : Bytes}

/-! ### Where the tail begins -/

theorem Represents.tail_start_le (hst : Represents c st data) :
    st.blocks.length * st.blockRows * st.rowBytes ≤ data.length := by
  rw [hst.length, hst.blocks]
  exact Nat.mul_le_mul_right st.rowBytes (Nat.div_mul_le_self st.position st.blockRows)

variable {i : Nat}

theorem Represents.block_end_le (hst : Represents c st data) (hi : i < st.blocks.length) :
    i * st.blockRows * st.rowBytes + st.blockRows * st.rowBytes ≤ data.length := by
  have hrows : (i + 1) * st.blockRows ≤ st.blocks.length * st.blockRows :=
    Nat.mul_le_mul_right st.blockRows hi
  calc i * st.blockRows * st.rowBytes + st.blockRows * st.rowBytes
      = (i + 1) * st.blockRows * st.rowBytes := by rw [← Nat.add_mul, ← Nat.succ_mul]
    _ ≤ st.blocks.length * st.blockRows * st.rowBytes := Nat.mul_le_mul_right st.rowBytes hrows
    _ ≤ data.length := hst.tail_start_le

theorem Represents.tail_eq (hst : Represents c st data) (hopen : st.tailBlock = none) :
    st.tail = data.drop (st.blocks.length * st.blockRows * st.rowBytes) := by
  have htail := hst.tail
  rw [hopen] at htail
  exact htail

theorem Represents.tail_size (hst : Represents c st data) (hopen : st.tailBlock = none) :
    st.tail.length = st.position % st.blockRows * st.rowBytes := by
  rw [hst.tail_eq hopen]
  exact hst.tail_length

/-! ### Rows appended -/

theorem Represents.tail_rows (hst : Represents c st data) (hopen : st.tailBlock = none) :
    st.tail.length / st.rowBytes = st.position % st.blockRows := by
  rw [hst.tail_size hopen]
  exact Nat.mul_div_cancel _ hst.rowBytes

variable {id : Nat}

theorem Represents.full_append (hst : Represents c st data) (chunk : Bytes)
    (hid : st.blocks[i]? = some id) :
    BlockOf c id (((data ++ chunk).drop (i * st.blockRows * st.rowBytes)).take
      (st.blockRows * st.rowBytes)) := by
  have hend := hst.block_end_le (List.getElem?_eq_some_iff.mp hid).1
  rw [drop_append_of_le_length (by omega),
    take_append_of_le_length (by rw [length_drop]; omega)]
  exact hst.full i id hid

variable {chunk : Bytes} {take : Nat}

theorem Represents.appendTail (hst : Represents c st data) (hopen : st.tailBlock = none)
    (hchunk : chunk.length = take * st.rowBytes)
    (hroom : st.position % st.blockRows + take < st.blockRows) :
    Represents c { st with tail := st.tail ++ chunk, position := st.position + take }
      (data ++ chunk) := by
  have hdiv : (st.position + take) / st.blockRows = st.position / st.blockRows := by
    have hsum := Nat.div_add_mod st.position st.blockRows
    have hpos := hst.blockRows
    rw [Nat.div_eq_iff hpos, Nat.mul_comm]
    omega
  refine ⟨hst.rowBytes, hst.blockRows, ?_, hst.blocks.trans hdiv.symm,
    fun i id hid => hst.full_append chunk hid, ?_⟩
  · show (data ++ chunk).length = (st.position + take) * st.rowBytes
    rw [length_append, hst.length, hchunk, Nat.add_mul]
  · have htail := hst.tail_eq hopen
    simp only [hopen]
    rw [drop_append_of_le_length hst.tail_start_le, htail]

theorem Represents.appendBlock (hst : Represents c st data) (hopen : st.tailBlock = none)
    (hchunk : chunk.length = take * st.rowBytes)
    (hfull : st.position % st.blockRows + take = st.blockRows)
    (hid : BlockOf c id (st.tail ++ chunk)) :
    Represents c
      { st with tail := [], blocks := st.blocks ++ [id], position := st.position + take }
      (data ++ chunk) := by
  have hsum := Nat.div_add_mod st.position st.blockRows
  have hdiv : (st.position + take) / st.blockRows = st.position / st.blockRows + 1 := by
    have hposition : st.position + take =
        st.blockRows * (st.position / st.blockRows + 1) := by
      rw [Nat.mul_succ]
      omega
    rw [hposition, Nat.mul_div_cancel_left _ hst.blockRows]
  have htail := hst.tail_eq hopen
  have hdrop : (data ++ chunk).drop (st.blocks.length * st.blockRows * st.rowBytes) =
      st.tail ++ chunk := by
    rw [drop_append_of_le_length hst.tail_start_le, htail]
  have hsize : (st.tail ++ chunk).length = st.blockRows * st.rowBytes := by
    rw [length_append, hst.tail_size hopen, hchunk, ← Nat.add_mul, hfull]
  refine ⟨hst.rowBytes, hst.blockRows, ?_, ?_, ?_, ?_⟩
  · show (data ++ chunk).length = (st.position + take) * st.rowBytes
    rw [length_append, hst.length, hchunk, Nat.add_mul]
  · show (st.blocks ++ [id]).length = (st.position + take) / st.blockRows
    rw [length_append, hst.blocks, hdiv, length_singleton]
  · intro i id' hid'
    rcases Nat.lt_or_ge i st.blocks.length with hi | hi
    · rw [getElem?_append_left hi] at hid'
      exact hst.full_append chunk hid'
    · obtain rfl : i = st.blocks.length := by
        have hlt := (List.getElem?_eq_some_iff.mp hid').1
        rw [length_append, length_singleton] at hlt
        omega
      rw [getElem?_append_right hi, Nat.sub_self] at hid'
      obtain rfl := Option.some.inj hid'
      rw [hdrop, ← hsize, take_length]
      exact hid
  · simp only [hopen]
    refine (drop_eq_nil_of_le ?_).symm
    have hend : (st.blocks ++ [id]).length * st.blockRows * st.rowBytes =
        st.blocks.length * st.blockRows * st.rowBytes + st.blockRows * st.rowBytes := by
      rw [length_append, length_singleton, ← Nat.add_mul, ← Nat.succ_mul]
    have hlength := congrArg List.length hdrop
    rw [length_drop, hsize] at hlength
    rw [hend]
    omega

/-! ### The tail sealed and read back -/

theorem Represents.sealed (hst : Represents c st data) (hopen : st.tailBlock = none)
    (hid : BlockOf c id st.tail) :
    Represents c { st with tailBlock := some id, tail := [] } data := by
  refine ⟨hst.rowBytes, hst.blockRows, hst.length, hst.blocks, hst.full, rfl, ?_⟩
  rw [← hst.tail_eq hopen]
  exact hid

theorem Represents.opened (hst : Represents c st data) :
    Represents c { st with
      tail := data.drop (st.blocks.length * st.blockRows * st.rowBytes)
      tailBlock := none } data :=
  ⟨hst.rowBytes, hst.blockRows, hst.length, hst.blocks, hst.full, rfl⟩

/-! ### The record cut -/

/-- The part of the tail block that a cut keeps. -/
def Snapshot.kept (st : Snapshot) (data : Bytes) (rows : Nat) : Bytes :=
  (data.drop (rows / st.blockRows * st.blockRows * st.rowBytes)).take
    (rows % st.blockRows * st.rowBytes)

/-- A record cut. -/
def Snapshot.cutTo (st : Snapshot) (rows : Nat) (tail : Bytes) : Snapshot :=
  { st with
    blocks := st.blocks.take (rows / st.blockRows)
    tailBlock := none
    tail, position := rows }

variable {rows : Nat}

theorem Represents.cutTo (hst : Represents c st data) (hrows : rows ≤ st.position) :
    Represents c (st.cutTo rows (st.kept data rows)) (data.take (rows * st.rowBytes)) := by
  have hsplit : rows / st.blockRows * st.blockRows + rows % st.blockRows = rows := by
    rw [Nat.mul_comm]
    exact Nat.div_add_mod rows st.blockRows
  have hbytes : rows * st.rowBytes ≤ data.length := by
    rw [hst.length]
    exact Nat.mul_le_mul_right st.rowBytes hrows
  have hcount : (st.blocks.take (rows / st.blockRows)).length = rows / st.blockRows := by
    rw [length_take, hst.blocks]
    exact Nat.min_eq_left (Nat.div_le_div_right hrows)
  refine ⟨hst.rowBytes, hst.blockRows, ?_, hcount, ?_, ?_⟩
  · rw [length_take]
    exact Nat.min_eq_left hbytes
  · intro i id hid
    change (st.blocks.take (rows / st.blockRows))[i]? = some id at hid
    have hi : i < rows / st.blockRows := by
      rw [← hcount]
      exact (List.getElem?_eq_some_iff.mp hid).1
    rw [getElem?_take_of_lt hi] at hid
    have hend : i * st.blockRows * st.rowBytes + st.blockRows * st.rowBytes ≤
        rows * st.rowBytes := by
      rw [← Nat.add_mul, ← Nat.succ_mul]
      refine Nat.mul_le_mul_right st.rowBytes ?_
      calc (i + 1) * st.blockRows ≤ rows / st.blockRows * st.blockRows :=
            Nat.mul_le_mul_right st.blockRows hi
        _ ≤ rows := Nat.div_mul_le_self rows st.blockRows
    have hsame : ((data.take (rows * st.rowBytes)).drop (i * st.blockRows * st.rowBytes)).take
        (st.blockRows * st.rowBytes) =
        (data.drop (i * st.blockRows * st.rowBytes)).take (st.blockRows * st.rowBytes) := by
      rw [drop_take, take_take, Nat.min_eq_left (by omega)]
    change BlockOf c id (((data.take (rows * st.rowBytes)).drop
      (i * st.blockRows * st.rowBytes)).take (st.blockRows * st.rowBytes))
    rw [hsame]
    exact hst.full i id hid
  · show st.kept data rows = (data.take (rows * st.rowBytes)).drop
      ((st.blocks.take (rows / st.blockRows)).length * st.blockRows * st.rowBytes)
    rw [hcount, drop_take]
    unfold Snapshot.kept
    congr 1
    have hscaled := congrArg (fun n => n * st.rowBytes) hsplit
    simp only [Nat.add_mul] at hscaled
    omega

theorem Snapshot.cutTo_pointers {st : Snapshot} {tail : Bytes}
    (h : id ∈ (st.cutTo rows tail).pointers) : id ∈ st.pointers := by
  have hid : id ∈ st.blocks.take (rows / st.blockRows) := by
    simpa [Snapshot.pointers, Snapshot.cutTo] using h
  exact mem_append_left _ (mem_of_mem_take hid)

end TyloQuant.QsaKv
