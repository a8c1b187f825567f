import TyloQuant.QsaKv.Sequence

/-!
# What the store keeps

Three invariants of the store, each about its own fields.  `Places`: the blocks and the free
places take disjoint parts of the file.  `Recency`: the hot entries and the recency lists
name the same blocks.  `Contents`: a block that a client points to can be read, from its
pending payload, from the RAM or from the file, and each of them holds what the block was
written with.
-/

namespace TyloQuant.QsaKv

open Lib List

/-! ### The file -/

/-- The file holds `data` at `offset`. -/
def Holds (file : Bytes) (offset : Nat) (data : Bytes) : Prop :=
  ∀ i < data.length, file[offset + i]? = data[i]?

/-- Two stretches of the file do not overlap. -/
def Apart (offset size offset' size' : Nat) : Prop :=
  offset + size ≤ offset' ∨ offset' + size' ≤ offset

theorem Apart.symm {o n o' n' : Nat} (h : Apart o n o' n') : Apart o' n' o n := Or.symm h

theorem writeFile_getElem? (file : Bytes) (offset : Nat) (data : Bytes) (i : Nat) :
    (QsaKvStore.writeFile file offset data)[i]? =
      if i < offset then (file ++ List.replicate (offset - file.length) 0)[i]?
      else if i < offset + data.length then data[i - offset]?
      else file[i]? := by
  unfold QsaKvStore.writeFile
  have hlength : ((file ++ List.replicate (offset - file.length) 0).take offset).length =
      offset := by
    rw [length_take, length_append, length_replicate]
    omega
  rw [List.append_assoc]
  by_cases hi : i < offset
  · rw [if_pos hi, getElem?_append_left (by omega), getElem?_take_of_lt hi]
  · rw [if_neg hi, getElem?_append_right (by omega), hlength]
    by_cases hd : i < offset + data.length
    · rw [if_pos hd, getElem?_append_left (by omega)]
    · rw [if_neg hd, getElem?_append_right (by omega), getElem?_drop]
      congr 1
      omega

variable {data file : Bytes} {offset : Nat}

theorem Holds.writeFile {written : Bytes} {place : Nat} (h : Holds file offset data)
    (hapart : Apart place written.length offset data.length) :
    Holds (QsaKvStore.writeFile file place written) offset data := by
  intro i hi
  have hold := h i hi
  have hlt : offset + i < file.length := by
    rw [getElem?_eq_getElem hi] at hold
    exact (List.getElem?_eq_some_iff.mp hold).1
  rw [writeFile_getElem?]
  rcases hapart with hbelow | habove
  · rw [if_neg (by omega), if_neg (by omega), hold]
  · rw [if_pos (by omega), getElem?_append_left hlt, hold]

variable {payload : Bytes} {count done : Nat}

theorem Holds.extend (h : Holds file offset (payload.take done))
    (hdone : done + count ≤ payload.length) :
    Holds (QsaKvStore.writeFile file (offset + done) ((payload.drop done).take count)) offset
      (payload.take (done + count)) := by
  have hcount : ((payload.drop done).take count).length = count := by
    rw [length_take, length_drop]
    omega
  intro i hi
  rw [length_take] at hi
  have hdata : (payload.take (done + count))[i]? = payload[i]? :=
    getElem?_take_of_lt (by omega)
  rw [writeFile_getElem?, hcount, hdata]
  by_cases hlow : i < done
  · have hold := h i (by rw [length_take]; omega)
    rw [getElem?_take_of_lt hlow] at hold
    have hlt : offset + i < file.length := by
      rw [getElem?_eq_getElem (l := payload) (by omega)] at hold
      exact (List.getElem?_eq_some_iff.mp hold).1
    rw [if_pos (by omega), getElem?_append_left hlt, hold]
  · rw [if_neg (by omega), if_pos (by omega), getElem?_take_of_lt (by omega),
      getElem?_drop]
    congr 1
    omega

/-- A read of a stretch the file holds gets it whole. -/
theorem Holds.readFile (h : Holds file offset data) :
    QsaKvStore.readFile file offset data.length = data := by
  refine ext_getElem? fun i => ?_
  unfold QsaKvStore.readFile
  by_cases hi : i < data.length
  · rw [getElem?_take_of_lt hi, getElem?_drop, h i hi]
  · rw [getElem?_eq_none (l := data) (by omega), getElem?_eq_none]
    rw [length_take]
    omega

/-! ### The three invariants -/

/-- Blocks and free places take disjoint parts of the file, all below its end. -/
structure Places (c : QsaKvStore) : Prop where
  named : ∀ id b, c.blocks.lookup id = some b → id ≤ c.nextId
  within : ∀ id b, c.blocks.lookup id = some b → b.offset + b.bytes ≤ c.nextOffset
  apart : ∀ id id' b b', c.blocks.lookup id = some b → c.blocks.lookup id' = some b' →
    id ≠ id' → Apart b.offset b.bytes b'.offset b'.bytes
  freeWithin : ∀ n o, o ∈ c.freeOffsets n → o + n ≤ c.nextOffset
  freeApart : ∀ n o id b, o ∈ c.freeOffsets n → c.blocks.lookup id = some b →
    Apart o n b.offset b.bytes
  freesApart : ∀ n o n' o', o ∈ c.freeOffsets n → o' ∈ c.freeOffsets n' →
    ¬(n = n' ∧ o = o') → Apart o n o' n'
  freeNodup : ∀ n, (c.freeOffsets n).Nodup
  counted : c.liveBlocks = c.blocks.entries.length

/-- Hot entries and recency lists name the same blocks, and a hot entry is its block's
    payload. -/
structure Recency (c : QsaKvStore) : Prop where
  hot : ∀ id p, c.hot.lookup id = some p →
    ∃ b, c.blocks.lookup id = some b ∧ p = b.payload ∧ id ∈ c.lru b.priority
  listed : ∀ p id, id ∈ c.lru p → ∃ b, c.blocks.lookup id = some b ∧ b.priority = p ∧ id ∈ c.hot
  lruNodup : ∀ p, (c.lru p).Nodup

/-- The blocks in the worker's hands, the one it is writing first. -/
def QsaKvStore.waiting (c : QsaKvStore) : List Nat := (c.writing.map Prod.fst).toList ++ c.queue

def QsaKvStore.sizeOf (c : QsaKvStore) (id : Nat) : Nat :=
  ((c.blocks.lookup id).map Block.bytes).getD 0

/-- The block is on file, or its payload is pending. -/
def Block.safe (b : Block) : Prop := b.ready = true ∨ b.pending.isSome = true

/-- A block that a client points to can be read, and what is read is what was written. -/
structure Contents (held : Nat → Prop) (c : QsaKvStore) : Prop where
  live : ∀ id, held id → id ∈ c.blocks
  sized : ∀ id b, c.blocks.lookup id = some b →
    b.payload.length = b.bytes ∧ 0 < b.bytes ∧ b.bytes ≤ c.bufferBytes / 2 ∧ b.priority < 3
  pending : ∀ id b p, c.blocks.lookup id = some b → b.pending = some p →
    p = b.payload ∧ b.queued = true ∧ b.ready = false
  onFile : ∀ id b, c.blocks.lookup id = some b → b.ready = true →
    b.queued = true ∧ Holds c.file b.offset b.payload
  queued : c.error = none → ∀ id b, c.blocks.lookup id = some b → b.queued = true → b.safe
  available : c.error = none → ∀ id b, held id → c.blocks.lookup id = some b → b.safe ∨ id ∈ c.hot
  waiting : ∀ id b, c.blocks.lookup id = some b → (b.pending.isSome = true ↔ id ∈ c.waiting)
  waitingLive : ∀ id, id ∈ c.waiting → id ∈ c.blocks
  waitingNodup : c.waiting.Nodup
  progress : ∀ id done, c.writing = some (id, done) → ∀ b, c.blocks.lookup id = some b →
    done ≤ b.bytes ∧ Holds c.file b.offset (b.payload.take done)
  counted : c.pendingBytes = (c.waiting.map c.sizeOf).sum

structure StoreInv (held : Nat → Prop) (c : QsaKvStore) : Prop where
  places : Places c
  recency : Recency c
  contents : Contents held c

variable {held : Nat → Prop} {c : QsaKvStore} {id : Nat} {block block' : Block}

/-- A block that is neither pending nor in the RAM is on file, whole. -/
theorem Contents.cold (hc : Contents held c) (he : c.error = none) (hheld : held id)
    (hblock : c.blocks.lookup id = some block) (hpending : block.pending = none)
    (hhot : c.hot.lookup id = none) :
    block.ready = true ∧
      QsaKvStore.readFile c.file block.offset block.bytes = block.payload := by
  have hready : block.ready = true := by
    rcases hc.available he id block hheld hblock with (hready | hsome) | hmem
    · exact hready
    · rw [hpending] at hsome
      cases hsome
    · obtain ⟨payload, hpayload⟩ := (Table.mem_iff _ _).mp hmem
      rw [hhot] at hpayload
      cases hpayload
  rw [← (hc.sized id block hblock).1]
  exact ⟨hready, (hc.onFile id block hblock hready).2.readFile⟩

/-! ### Changing the record of a block -/

theorem QsaKvStore.setBlock_lookup (c : QsaKvStore) (id : Nat) (block : Block) (id' : Nat) :
    (c.setBlock id block).blocks.lookup id' =
      if id' = id then some block else c.blocks.lookup id' :=
  Table.lookup_insert_ite c.blocks id id' block

theorem QsaKvStore.setBlock_cases {id' : Nat} {b : Block}
    (h : (c.setBlock id block').blocks.lookup id' = some b) :
    (id' = id ∧ b = block') ∨ (id' ≠ id ∧ c.blocks.lookup id' = some b) :=
  Table.lookup_insert_cases h

/-- A record of the same block, in the same place. -/
structure Block.Same (b b' : Block) : Prop where
  payload : b'.payload = b.payload
  offset : b'.offset = b.offset
  bytes : b'.bytes = b.bytes
  priority : b'.priority = b.priority

theorem Table.length_insert_of_mem {V : Type} {t : Table Nat V} {id : Nat} {v w : V}
    (h : t.lookup id = some v) : (t.insert id w).entries.length = t.entries.length := by
  rw [AList.entries_insert, length_cons]
  exact Table.length_erase h

theorem Places.setBlock (hc : Places c) (hblock : c.blocks.lookup id = some block)
    (hsame : block.Same block') : Places (c.setBlock id block') := by
  have hold : ∀ {id' b}, (c.setBlock id block').blocks.lookup id' = some b →
      ∃ b₀, c.blocks.lookup id' = some b₀ ∧ b.offset = b₀.offset ∧ b.bytes = b₀.bytes := by
    intro id' b hb
    rcases QsaKvStore.setBlock_cases hb with ⟨rfl, rfl⟩ | ⟨-, hb'⟩
    · exact ⟨block, hblock, hsame.offset, hsame.bytes⟩
    · exact ⟨b, hb', rfl, rfl⟩
  refine ⟨?_, ?_, ?_, hc.freeWithin, ?_, hc.freesApart, hc.freeNodup, ?_⟩
  · intro id' b hb
    obtain ⟨b₀, hb₀, -, -⟩ := hold hb
    exact hc.named id' b₀ hb₀
  · intro id' b hb
    obtain ⟨b₀, hb₀, ho, hn⟩ := hold hb
    rw [ho, hn]
    exact hc.within id' b₀ hb₀
  · intro i i' b b' hb hb' hne
    obtain ⟨b₀, hb₀, ho, hn⟩ := hold hb
    obtain ⟨b₁, hb₁, ho', hn'⟩ := hold hb'
    rw [ho, hn, ho', hn']
    exact hc.apart i i' b₀ b₁ hb₀ hb₁ hne
  · intro n o id' b ho hb
    obtain ⟨b₀, hb₀, hoff, hn⟩ := hold hb
    rw [hoff, hn]
    exact hc.freeApart n o id' b₀ ho hb₀
  · exact hc.counted.trans (Table.length_insert_of_mem hblock).symm

theorem Recency.setBlock (hc : Recency c) (hblock : c.blocks.lookup id = some block)
    (hsame : block.Same block') : Recency (c.setBlock id block') := by
  have hnew : ∀ {id' b₀}, c.blocks.lookup id' = some b₀ →
      ∃ b, (c.setBlock id block').blocks.lookup id' = some b ∧ b.payload = b₀.payload ∧
        b.priority = b₀.priority := by
    intro id' b₀ hb₀
    rw [QsaKvStore.setBlock_lookup]
    by_cases hid : id' = id
    · subst hid
      obtain rfl := Option.some.inj (hblock.symm.trans hb₀)
      exact ⟨block', if_pos rfl, hsame.payload, hsame.priority⟩
    · exact ⟨b₀, (if_neg hid).trans hb₀, rfl, rfl⟩
  refine ⟨?_, ?_, hc.lruNodup⟩
  · intro id' p hp
    obtain ⟨b₀, hb₀, hpayload, hlru⟩ := hc.hot id' p hp
    obtain ⟨b, hb, hpay, hprio⟩ := hnew hb₀
    exact ⟨b, hb, hpayload.trans hpay.symm, hprio ▸ hlru⟩
  · intro p id' hid
    obtain ⟨b₀, hb₀, hprio₀, hhot⟩ := hc.listed p id' hid
    obtain ⟨b, hb, -, hprio⟩ := hnew hb₀
    exact ⟨b, hb, hprio.trans hprio₀, hhot⟩

theorem setBlock_sizeOf (hblock : c.blocks.lookup id = some block)
    (hbytes : block'.bytes = block.bytes) (id' : Nat) :
    (c.setBlock id block').sizeOf id' = c.sizeOf id' := by
  unfold QsaKvStore.sizeOf
  rw [QsaKvStore.setBlock_lookup]
  split
  · rename_i hid
    rw [hid, hblock]
    exact hbytes
  · rfl

/-! ### The worker -/

variable {c' : QsaKvStore}

theorem Places.congr (hc : Places c) (hblocks : c'.blocks = c.blocks)
    (hfree : c'.freeOffsets = c.freeOffsets) (hoffset : c'.nextOffset = c.nextOffset)
    (hid : c'.nextId = c.nextId) (hlive : c'.liveBlocks = c.liveBlocks) : Places c' := by
  refine ⟨?_, ?_, ?_, ?_, ?_, ?_, ?_, ?_⟩
  · simpa only [hblocks, hid] using hc.named
  · simpa only [hblocks, hoffset] using hc.within
  · simpa only [hblocks] using hc.apart
  · simpa only [hfree, hoffset] using hc.freeWithin
  · simpa only [hfree, hblocks] using hc.freeApart
  · simpa only [hfree] using hc.freesApart
  · simpa only [hfree] using hc.freeNodup
  · simpa only [hblocks, hlive] using hc.counted

theorem Recency.congr (hc : Recency c) (hblocks : c'.blocks = c.blocks) (hhot : c'.hot = c.hot)
    (hlru : c'.lru = c.lru) : Recency c' := by
  refine ⟨?_, ?_, ?_⟩
  · simpa only [hblocks, hhot, hlru] using hc.hot
  · simpa only [hblocks, hhot, hlru] using hc.listed
  · simpa only [hlru] using hc.lruNodup

theorem StoreInv.take (hc : StoreInv held c) {rest : List Nat} (hidle : c.writing = none)
    (hqueue : c.queue = id :: rest) :
    StoreInv held { c with writing := some (id, 0), queue := rest } := by
  have hwaiting : QsaKvStore.waiting { c with writing := some (id, 0), queue := rest } =
      c.waiting := by
    simp [QsaKvStore.waiting, hidle, hqueue]
  have hcc := hc.contents
  refine ⟨hc.places.congr rfl rfl rfl rfl rfl, hc.recency.congr rfl rfl rfl,
    ⟨hcc.live, hcc.sized, hcc.pending, hcc.onFile, hcc.queued, hcc.available, ?_, ?_, ?_, ?_, ?_⟩⟩
  · rw [hwaiting]
    exact hcc.waiting
  · rw [hwaiting]
    exact hcc.waitingLive
  · rw [hwaiting]
    exact hcc.waitingNodup
  · intro id' done h b hb
    cases h
    refine ⟨Nat.zero_le _, fun i hi => ?_⟩
    rw [take_zero] at hi
    exact absurd hi (Nat.not_lt_zero i)
  · rw [hwaiting]
    exact hcc.counted

theorem StoreInv.writeChunk (hc : StoreInv held c) (hwriting : c.writing = some (id, done))
    (hblock : c.blocks.lookup id = some block) (hpending : block.pending = some payload)
    (hroom : done + count ≤ block.bytes) :
    StoreInv held { c with
      file := QsaKvStore.writeFile c.file (block.offset + done) ((payload.drop done).take count)
      writing := some (id, done + count) } := by
  have hcc := hc.contents
  obtain ⟨rfl, -, hunready⟩ := hcc.pending id block payload hblock hpending
  have hsize := (hcc.sized id block hblock).1
  obtain ⟨-, hwritten⟩ := hcc.progress id done hwriting block hblock
  have hlength : ((block.payload.drop done).take count).length = count := by
    rw [length_take, length_drop]
    omega
  have hwaiting : QsaKvStore.waiting { c with
      file := QsaKvStore.writeFile c.file (block.offset + done)
        ((block.payload.drop done).take count)
      writing := some (id, done + count) } = c.waiting := by
    simp [QsaKvStore.waiting, hwriting]
  refine ⟨hc.places.congr rfl rfl rfl rfl rfl, hc.recency.congr rfl rfl rfl,
    ⟨hcc.live, hcc.sized, hcc.pending, ?_, hcc.queued, hcc.available, ?_, ?_, ?_, ?_, ?_⟩⟩
  · intro id' b hb hready
    obtain ⟨hqueued, hholds⟩ := hcc.onFile id' b hb hready
    refine ⟨hqueued, hholds.writeFile ?_⟩
    have hne : id' ≠ id := by
      rintro rfl
      obtain rfl := Option.some.inj (hblock.symm.trans hb)
      rw [hready] at hunready
      cases hunready
    rw [hlength, (hcc.sized id' b hb).1]
    rcases hc.places.apart id id' block b hblock hb (Ne.symm hne) with hbelow | habove
    · exact Or.inl (by omega)
    · exact Or.inr (by omega)
  · rw [hwaiting]
    exact hcc.waiting
  · rw [hwaiting]
    exact hcc.waitingLive
  · rw [hwaiting]
    exact hcc.waitingNodup
  · intro id' done' h b hb
    cases h
    obtain rfl := Option.some.inj (hblock.symm.trans hb)
    exact ⟨hroom, hwritten.extend (by omega)⟩
  · rw [hwaiting]
    exact hcc.counted

/-- Writing the record of a block leaves the contents, when the new record agrees with the file
    and with what the worker waits for. -/
theorem Contents.setBlock (hc : Contents held c) (hblock : c.blocks.lookup id = some block)
    (hsame : block.Same block') (hblocks : c'.blocks = (c.setBlock id block').blocks)
    (hkept : c'.bufferBytes = c.bufferBytes ∧ c'.file = c.file ∧ c'.hot = c.hot)
    (herror : c'.error = none → c.error = none ∧ block'.safe)
    (hpending : ∀ p, block'.pending = some p →
      p = block.payload ∧ block'.queued = true ∧ block'.ready = false)
    (honFile : block'.ready = true →
      block'.queued = true ∧ Holds c.file block.offset block.payload)
    (hwaits : block'.pending.isSome = true ↔ id ∈ c'.waiting)
    (hothers : ∀ i, i ≠ id → (i ∈ c'.waiting ↔ i ∈ c.waiting)) (hnodup : c'.waiting.Nodup)
    (hwriting : ∀ i done, c'.writing = some (i, done) → i ≠ id ∧ c.writing = some (i, done))
    (hcounted : c'.pendingBytes = (c'.waiting.map c.sizeOf).sum) : Contents held c' := by
  obtain ⟨hbuffer, hfile, hhot⟩ := hkept
  have hcases : ∀ {i b}, c'.blocks.lookup i = some b →
      (i = id ∧ b = block') ∨ (i ≠ id ∧ c.blocks.lookup i = some b) := by
    intro i b h
    rw [hblocks] at h
    exact QsaKvStore.setBlock_cases h
  have hmem : ∀ {i}, i ∈ c.blocks → i ∈ c'.blocks := by
    intro i h
    rw [hblocks]
    exact (AList.mem_insert c.blocks).mpr (Or.inr h)
  have hsizes : c'.sizeOf = c.sizeOf := by
    funext i
    rw [← setBlock_sizeOf hblock hsame.bytes, QsaKvStore.sizeOf, hblocks]
    rfl
  refine ⟨fun i h => hmem (hc.live i h), ?_, ?_, ?_, ?_, ?_, ?_, ?_, hnodup, ?_, ?_⟩
  · intro i b hb
    rw [hbuffer]
    rcases hcases hb with ⟨rfl, rfl⟩ | ⟨-, hb'⟩
    · rw [hsame.payload, hsame.bytes, hsame.priority]
      exact hc.sized i block hblock
    · exact hc.sized i b hb'
  · intro i b p hb hp
    rcases hcases hb with ⟨rfl, rfl⟩ | ⟨-, hb'⟩
    · rw [hsame.payload]
      exact hpending p hp
    · exact hc.pending i b p hb' hp
  · intro i b hb hready
    rw [hfile]
    rcases hcases hb with ⟨rfl, rfl⟩ | ⟨-, hb'⟩
    · rw [hsame.payload, hsame.offset]
      exact honFile hready
    · exact hc.onFile i b hb' hready
  · intro he i b hb hq
    rcases hcases hb with ⟨rfl, rfl⟩ | ⟨-, hb'⟩
    · exact (herror he).2
    · exact hc.queued (herror he).1 i b hb' hq
  · intro he i b hheld hb
    rw [hhot]
    rcases hcases hb with ⟨rfl, rfl⟩ | ⟨-, hb'⟩
    · exact Or.inl (herror he).2
    · exact hc.available (herror he).1 i b hheld hb'
  · intro i b hb
    rcases hcases hb with ⟨rfl, rfl⟩ | ⟨hne, hb'⟩
    · exact hwaits
    · exact (hc.waiting i b hb').trans (hothers i hne).symm
  · intro i h
    by_cases hid : i = id
    · exact hmem (hid ▸ Table.mem_of_lookup hblock)
    · exact hmem (hc.waitingLive i ((hothers i hid).mp h))
  · intro i done h b hb
    obtain ⟨hne, h'⟩ := hwriting i done h
    rw [hfile]
    exact hc.progress i done h' b ((hcases hb).resolve_left fun heq => hne heq.1).2
  · rw [hsizes]
    exact hcounted

/-- The worker ends with its block, having written it all unless it failed. -/
theorem StoreInv.settle (hc : StoreInv held c) {failure : Option String}
    (hwriting : c.writing = some (id, done)) (hblock : c.blocks.lookup id = some block)
    (hend : failure.isSome = true ∨ done = block.bytes) :
    StoreInv held (c.settle id block failure) := by
  have hcc := hc.contents
  have hwas : c.waiting = id :: c.queue := by simp [QsaKvStore.waiting, hwriting]
  have hnow : (c.settle id block failure).waiting = c.queue := by
    simp [QsaKvStore.waiting, QsaKvStore.settle, QsaKvStore.setBlock]
  have hnodup := hcc.waitingNodup
  rw [hwas, nodup_cons] at hnodup
  have hsome : block.pending.isSome = true := by
    rw [hcc.waiting id block hblock, hwas]
    exact mem_cons_self
  obtain ⟨payload, hpayload⟩ := Option.isSome_iff_exists.mp hsome
  obtain ⟨rfl, hqueued, -⟩ := hcc.pending id block payload hblock hpayload
  have hsame : block.Same { block with ready := failure.isNone, pending := none } :=
    ⟨rfl, rfl, rfl, rfl⟩
  refine ⟨(hc.places.setBlock hblock hsame).congr rfl rfl rfl rfl rfl,
    (hc.recency.setBlock hblock hsame).congr rfl rfl rfl,
    hcc.setBlock hblock hsame rfl ⟨rfl, rfl, rfl⟩ ?_ nofun ?_ ?_ ?_ ?_ nofun ?_⟩
  · intro h
    unfold QsaKvStore.settle at h
    dsimp only at h
    split at h
    · cases h
    · rename_i hnone
      exact ⟨hnone, Or.inl (Option.isNone_iff_eq_none.mpr h)⟩
  · intro hready
    refine ⟨hqueued, ?_⟩
    have hdone : done = block.bytes := by
      rcases hend with hfailed | hdone
      · rw [Option.isNone_iff_eq_none.mp hready] at hfailed
        cases hfailed
      · exact hdone
    obtain ⟨-, hwritten⟩ := hcc.progress _ done hwriting block hblock
    rw [hdone, ← (hcc.sized _ block hblock).1, take_length] at hwritten
    exact hwritten
  · rw [hnow]
    exact ⟨fun h => absurd h Bool.false_ne_true, fun h => absurd h hnodup.1⟩
  · intro i hne
    rw [hnow, hwas, mem_cons, or_iff_right hne]
  · rw [hnow]
    exact hnodup.2
  · show c.pendingBytes - block.bytes = _
    have hsize : c.sizeOf id = block.bytes := by simp [QsaKvStore.sizeOf, hblock]
    rw [hnow, hcc.counted, hwas, map_cons, sum_cons, hsize, Nat.add_sub_cancel_left]

/-! ### The RAM tier -/

/-- Changing the RAM tier leaves the contents, as long as every held block stays readable. -/
theorem Contents.congr (hc : Contents held c) (hblocks : c'.blocks = c.blocks)
    (hqueue : c'.queue = c.queue) (hwriting : c'.writing = c.writing) (hfile : c'.file = c.file)
    (herror : c'.error = c.error) (hpending : c'.pendingBytes = c.pendingBytes)
    (hbuffer : c'.bufferBytes = c.bufferBytes)
    (havailable : c.error = none → ∀ id b, held id → c.blocks.lookup id = some b →
      b.safe ∨ id ∈ c'.hot) : Contents held c' := by
  have hwaiting : c'.waiting = c.waiting := by
    unfold QsaKvStore.waiting
    rw [hwriting, hqueue]
  have hsizes : c'.sizeOf = c.sizeOf := by
    unfold QsaKvStore.sizeOf
    rw [hblocks]
  refine ⟨?_, ?_, ?_, ?_, ?_, ?_, ?_, ?_, ?_, ?_, ?_⟩
  · simpa only [hblocks] using hc.live
  · simpa only [hblocks, hbuffer] using hc.sized
  · simpa only [hblocks] using hc.pending
  · simpa only [hblocks, hfile] using hc.onFile
  · simpa only [hblocks, herror] using hc.queued
  · simpa only [hblocks, herror] using havailable
  · simpa only [hblocks, hwaiting] using hc.waiting
  · simpa only [hblocks, hwaiting] using hc.waitingLive
  · simpa only [hwaiting] using hc.waitingNodup
  · simpa only [hblocks, hwriting, hfile] using hc.progress
  · simpa only [hpending, hwaiting, hsizes] using hc.counted

/-- The hot entry of a block that is safe without it (or that nobody points to) goes. -/
theorem StoreInv.dropHot (hc : StoreInv held c) (hblock : c.blocks.lookup id = some block)
    (hsafe : c.error = none → held id → block.safe) :
    StoreInv held (c.dropHot id block.priority) := by
  unfold QsaKvStore.dropHot
  split
  · exact hc
  refine ⟨hc.places.congr rfl rfl rfl rfl rfl, ⟨?_, ?_, ?_⟩,
    hc.contents.congr rfl rfl rfl rfl rfl rfl rfl ?_⟩
  · intro id' p hp
    have hp' : (c.hot.erase id).lookup id' = some p := hp
    rw [Table.lookup_erase_ite] at hp'
    split at hp'
    · cases hp'
    · rename_i hne
      obtain ⟨b, hb, hpayload, hlru⟩ := hc.recency.hot id' p hp'
      refine ⟨b, hb, hpayload, ?_⟩
      show id' ∈ Function.update c.lru block.priority _ b.priority
      rw [Function.update_apply]
      split
      · rename_i hprio
        rw [← hprio]
        exact (mem_erase_of_ne hne).mpr hlru
      · exact hlru
  · intro p id' hid
    have hid' : id' ∈ Function.update c.lru block.priority
        ((c.lru block.priority).erase id) p := hid
    rw [Function.update_apply] at hid'
    have hold : id' ∈ c.lru p ∧ id' ≠ id := by
      split at hid'
      · rename_i hprio
        obtain ⟨hne, hmem⟩ := ((hc.recency.lruNodup _).mem_erase_iff).mp hid'
        exact ⟨hprio ▸ hmem, hne⟩
      · rename_i hprio
        refine ⟨hid', ?_⟩
        rintro rfl
        obtain ⟨b, hb, hbp, -⟩ := hc.recency.listed p id' hid'
        obtain rfl := Option.some.inj (hblock.symm.trans hb)
        exact hprio hbp.symm
    obtain ⟨b, hb, hbp, hhot⟩ := hc.recency.listed p id' hold.1
    exact ⟨b, hb, hbp, AList.mem_erase.mpr ⟨hold.2, hhot⟩⟩
  · intro p
    show (Function.update c.lru block.priority _ p).Nodup
    rw [Function.update_apply]
    split
    · exact (hc.recency.lruNodup _).erase id
    · exact hc.recency.lruNodup p
  · intro he id' b hheld hb
    by_cases hid : id' = id
    · subst hid
      obtain rfl := Option.some.inj (hblock.symm.trans hb)
      exact Or.inl (hsafe he hheld)
    · rcases hc.contents.available he id' b hheld hb with hb' | hhot
      · exact Or.inl hb'
      · exact Or.inr (AList.mem_erase.mpr ⟨hid, hhot⟩)

theorem StoreInv.promote (hc : StoreInv held c) {p : Nat} (hmem : id ∈ c.lru p) :
    StoreInv held { c with lru := Function.update c.lru p (id :: (c.lru p).erase id) } := by
  have hperm : ∀ q, (Function.update c.lru p (id :: (c.lru p).erase id) q).Perm (c.lru q) := by
    intro q
    rw [Function.update_apply]
    split
    · rename_i hq
      rw [hq]
      exact (perm_cons_erase hmem).symm
    · exact List.Perm.refl _
  refine ⟨hc.places.congr rfl rfl rfl rfl rfl, ⟨?_, ?_, ?_⟩,
    hc.contents.congr rfl rfl rfl rfl rfl rfl rfl hc.contents.available⟩
  · intro id' q hq
    obtain ⟨b, hb, hpayload, hlru⟩ := hc.recency.hot id' q hq
    exact ⟨b, hb, hpayload, (hperm _).mem_iff.mpr hlru⟩
  · intro q id' hid
    exact hc.recency.listed q id' ((hperm q).mem_iff.mp hid)
  · intro q
    exact (hperm q).nodup_iff.mpr (hc.recency.lruNodup q)

theorem StoreInv.warm (hc : StoreInv held c) (hblock : c.blocks.lookup id = some block)
    (hcold : c.hot.lookup id = none) : StoreInv held (Op.warm c id block block.payload) := by
  have hout : ∀ p, id ∉ c.lru p := by
    intro p hmem
    obtain ⟨-, -, -, hhot⟩ := hc.recency.listed p id hmem
    exact AList.lookup_eq_none.mp hcold hhot
  refine ⟨hc.places.congr rfl rfl rfl rfl rfl, ⟨?_, ?_, ?_⟩,
    hc.contents.congr rfl rfl rfl rfl rfl rfl rfl ?_⟩
  · intro id' p hp
    have hp' : (c.hot.insert id block.payload).lookup id' = some p := hp
    rw [Table.lookup_insert_ite] at hp'
    split at hp'
    · rename_i hid
      subst hid
      refine ⟨block, hblock, (Option.some.inj hp').symm, ?_⟩
      show id' ∈ Function.update c.lru block.priority _ block.priority
      rw [Function.update_self]
      exact mem_cons_self
    · obtain ⟨b, hb, hpayload, hlru⟩ := hc.recency.hot id' p hp'
      refine ⟨b, hb, hpayload, ?_⟩
      show id' ∈ Function.update c.lru block.priority _ b.priority
      rw [Function.update_apply]
      split
      · rename_i hprio
        exact mem_cons_of_mem id (hprio ▸ hlru)
      · exact hlru
  · intro p id' hid
    have hid' : id' ∈ Function.update c.lru block.priority (id :: c.lru block.priority) p := hid
    rw [Function.update_apply] at hid'
    have hhot : ∀ {i}, i ∈ c.hot → i ∈ c.hot.insert id block.payload :=
      fun h => (AList.mem_insert c.hot).mpr (Or.inr h)
    split at hid'
    · rename_i hprio
      rcases mem_cons.mp hid' with rfl | hmem
      · exact ⟨block, hblock, hprio.symm, (AList.mem_insert c.hot).mpr (Or.inl rfl)⟩
      · obtain ⟨b, hb, hbp, hh⟩ := hc.recency.listed _ id' hmem
        exact ⟨b, hb, hbp.trans hprio.symm, hhot hh⟩
    · obtain ⟨b, hb, hbp, hh⟩ := hc.recency.listed p id' hid'
      exact ⟨b, hb, hbp, hhot hh⟩
  · intro p
    show (Function.update c.lru block.priority _ p).Nodup
    rw [Function.update_apply]
    split
    · exact nodup_cons.mpr ⟨hout _, hc.recency.lruNodup _⟩
    · exact hc.recency.lruNodup p
  · intro he id' b hheld hb
    rcases hc.contents.available he id' b hheld hb with hb' | hhot
    · exact Or.inl hb'
    · exact Or.inr ((AList.mem_insert c.hot).mpr (Or.inr hhot))

/-! ### Handing a block to the worker -/

theorem StoreInv.enqueue (hc : StoreInv held c) (hblock : c.blocks.lookup id = some block)
    (hunqueued : block.queued = false) (hunready : block.ready = false) :
    StoreInv held (Op.enqueue c id block block.payload) := by
  have hcc := hc.contents
  have hidle : id ∉ c.waiting := by
    rw [← hcc.waiting id block hblock]
    intro hsome
    obtain ⟨p, hp⟩ := Option.isSome_iff_exists.mp hsome
    have hqueued := (hcc.pending id block p hblock hp).2.1
    rw [hunqueued] at hqueued
    cases hqueued
  have hwaiting : (Op.enqueue c id block block.payload).waiting = c.waiting ++ [id] := by
    simp [QsaKvStore.waiting, Op.enqueue, QsaKvStore.setBlock]
  have hsame : block.Same { block with pending := some block.payload, queued := true } :=
    ⟨rfl, rfl, rfl, rfl⟩
  refine ⟨(hc.places.setBlock hblock hsame).congr rfl rfl rfl rfl rfl,
    (hc.recency.setBlock hblock hsame).congr rfl rfl rfl,
    hcc.setBlock hblock hsame rfl ⟨rfl, rfl, rfl⟩ (fun he => ⟨he, Or.inr rfl⟩) ?_ ?_ ?_ ?_ ?_ ?_ ?_⟩
  · exact fun p hp => ⟨(Option.some.inj hp).symm, rfl, hunready⟩
  · intro hready
    cases hunready.symm.trans hready
  · rw [hwaiting, mem_append, mem_singleton]
    exact ⟨fun _ => Or.inr rfl, fun _ => rfl⟩
  · intro i hne
    rw [hwaiting, mem_append, mem_singleton, or_iff_left hne]
  · rw [hwaiting, nodup_append]
    refine ⟨hcc.waitingNodup, nodup_singleton id, ?_⟩
    rintro i hi j hj rfl
    rw [mem_singleton] at hj
    exact hidle (hj ▸ hi)
  · intro i done h
    have hwriting : c.writing = some (i, done) := h
    refine ⟨?_, hwriting⟩
    rintro rfl
    exact hidle (by simp [QsaKvStore.waiting, hwriting])
  · have hsize : c.sizeOf id = block.bytes := by simp [QsaKvStore.sizeOf, hblock]
    show c.pendingBytes + block.bytes = _
    rw [hwaiting, map_append, sum_append, hcc.counted, map_singleton,
      sum_singleton, hsize]

/-! ### Deleting a block -/

/-- A block that is not hot, that nobody points to and that the worker does not have goes, and
    its place becomes free. -/
theorem StoreInv.bury (hc : StoreInv held c) (hblock : c.blocks.lookup id = some block)
    (hcold : id ∉ c.hot) (hunheld : ¬held id) (hidle : id ∉ c.waiting) (diskBytes : Nat) :
    StoreInv held { c with
      blocks := c.blocks.erase id
      freeOffsets :=
        Function.update c.freeOffsets block.bytes (c.freeOffsets block.bytes ++ [block.offset])
      diskBytes
      liveBlocks := c.liveBlocks - 1 } := by
  have hcc := hc.contents
  have hp := hc.places
  have hold : ∀ {id' b}, (c.blocks.erase id).lookup id' = some b →
      id' ≠ id ∧ c.blocks.lookup id' = some b := by
    intro id' b hb
    rw [Table.lookup_erase_ite] at hb
    split at hb
    · cases hb
    · rename_i hne
      exact ⟨hne, hb⟩
  have hnew : ∀ {id' b}, id' ≠ id → c.blocks.lookup id' = some b →
      (c.blocks.erase id).lookup id' = some b := by
    intro id' b hne hb
    rw [Table.lookup_erase_ite, if_neg hne, hb]
  have hfree : ∀ {n o}, o ∈ Function.update c.freeOffsets block.bytes
      (c.freeOffsets block.bytes ++ [block.offset]) n →
      o ∈ c.freeOffsets n ∨ (n = block.bytes ∧ o = block.offset) := by
    intro n o ho
    rw [Function.update_apply] at ho
    split at ho
    · rename_i hn
      rcases mem_append.mp ho with h | h
      · exact Or.inl (hn ▸ h)
      · exact Or.inr ⟨hn, mem_singleton.mp h⟩
    · exact Or.inl ho
  have hpositive := (hcc.sized id block hblock).2.1
  refine ⟨⟨?_, ?_, ?_, ?_, ?_, ?_, ?_, ?_⟩, ⟨?_, ?_, hc.recency.lruNodup⟩,
    ⟨?_, ?_, ?_, ?_, ?_, ?_, ?_, ?_, hcc.waitingNodup, ?_, ?_⟩⟩
  · exact fun id' b hb => hp.named id' b (hold hb).2
  · exact fun id' b hb => hp.within id' b (hold hb).2
  · exact fun i i' b b' hb hb' => hp.apart i i' b b' (hold hb).2 (hold hb').2
  · intro n o ho
    rcases hfree ho with h | ⟨rfl, rfl⟩
    · exact hp.freeWithin n o h
    · exact hp.within id block hblock
  · intro n o id' b ho hb
    obtain ⟨hne, hb'⟩ := hold hb
    rcases hfree ho with h | ⟨rfl, rfl⟩
    · exact hp.freeApart n o id' b h hb'
    · exact hp.apart id id' block b hblock hb' (Ne.symm hne)
  · intro n o n' o' ho ho' hne
    rcases hfree ho with h | ⟨rfl, rfl⟩
    · rcases hfree ho' with h' | ⟨rfl, rfl⟩
      · exact hp.freesApart n o n' o' h h' hne
      · exact hp.freeApart n o id block h hblock
    · rcases hfree ho' with h' | ⟨rfl, rfl⟩
      · exact (hp.freeApart n' o' id block h' hblock).symm
      · exact absurd ⟨rfl, rfl⟩ hne
  · intro n
    show (Function.update c.freeOffsets block.bytes _ n).Nodup
    rw [Function.update_apply]
    split
    · rw [nodup_append]
      refine ⟨hp.freeNodup _, nodup_singleton _, ?_⟩
      rintro o ho o' ho' rfl
      rw [mem_singleton] at ho'
      subst ho'
      have hapart := hp.freeApart _ _ id block ho hblock
      rcases hapart with h | h <;> omega
    · exact hp.freeNodup n
  · have hlength : (c.blocks.erase id).entries.length + 1 = c.blocks.entries.length :=
      Table.length_erase hblock
    have hcounted := hp.counted
    show c.liveBlocks - 1 = (c.blocks.erase id).entries.length
    omega
  · intro id' p hpay
    obtain ⟨b, hb, hpayload, hlru⟩ := hc.recency.hot id' p hpay
    refine ⟨b, hnew ?_ hb, hpayload, hlru⟩
    rintro rfl
    exact hcold (Table.mem_of_lookup hpay)
  · intro p id' hid
    obtain ⟨b, hb, hbp, hhot⟩ := hc.recency.listed p id' hid
    refine ⟨b, hnew ?_ hb, hbp, hhot⟩
    rintro rfl
    exact hcold hhot
  · intro id' hheld
    refine AList.mem_erase.mpr ⟨?_, hcc.live id' hheld⟩
    rintro rfl
    exact hunheld hheld
  · exact fun id' b hb => hcc.sized id' b (hold hb).2
  · exact fun id' b p hb => hcc.pending id' b p (hold hb).2
  · exact fun id' b hb => hcc.onFile id' b (hold hb).2
  · exact fun he id' b hb => hcc.queued he id' b (hold hb).2
  · exact fun he id' b hheld hb => hcc.available he id' b hheld (hold hb).2
  · exact fun id' b hb => hcc.waiting id' b (hold hb).2
  · intro id' h
    refine AList.mem_erase.mpr ⟨?_, hcc.waitingLive id' h⟩
    rintro rfl
    exact hidle h
  · exact fun id' done h b hb => hcc.progress id' done h b (hold hb).2
  · refine hcc.counted.trans (congrArg List.sum (map_congr_left fun i hi => ?_))
    have hne : i ≠ id := by
      rintro rfl
      exact hidle hi
    show ((c.blocks.lookup i).map Block.bytes).getD 0 =
      (((c.blocks.erase id).lookup i).map Block.bytes).getD 0
    rw [Table.lookup_erase_ite, if_neg hne]

/-- With no block left the file starts over. -/
theorem StoreInv.truncate (hc : StoreInv held c) (hempty : c.liveBlocks = 0) :
    StoreInv held { c with file := [], freeOffsets := fun _ => [], nextOffset := 0 } := by
  have hnone : ∀ id b, c.blocks.lookup id ≠ some b := by
    intro id b hb
    have hlength := Table.length_erase hb
    have hcounted := hc.places.counted
    omega
  have hcc := hc.contents
  refine ⟨⟨hc.places.named, ?_, hc.places.apart, ?_, ?_, ?_, ?_, hc.places.counted⟩,
    hc.recency.congr rfl rfl rfl,
    ⟨hcc.live, hcc.sized, hcc.pending, ?_, hcc.queued, hcc.available, hcc.waiting,
      hcc.waitingLive, hcc.waitingNodup, ?_, hcc.counted⟩⟩
  · exact fun id b hb => absurd hb (hnone id b)
  · exact fun n o ho => absurd ho not_mem_nil
  · exact fun n o id b ho => absurd ho not_mem_nil
  · exact fun n o n' o' ho => absurd ho not_mem_nil
  · exact fun n => nodup_nil
  · exact fun id b hb => absurd hb (hnone id b)
  · exact fun id done h b hb => absurd hb (hnone id b)

theorem StoreInv.release (hc : StoreInv held c) (hblock : c.blocks.lookup id = some block)
    (hunheld : ¬held id) (hidle : id ∉ c.waiting) (truncates : Bool) :
    StoreInv held (c.release id block truncates) := by
  have hinv := hc.dropHot hblock fun _ hheld => absurd hheld hunheld
  have hsame : (c.dropHot id block.priority).blocks = c.blocks ∧
      (c.dropHot id block.priority).waiting = c.waiting ∧
      id ∉ (c.dropHot id block.priority).hot := by
    unfold QsaKvStore.dropHot
    split
    · rename_i hnone
      exact ⟨rfl, rfl, AList.lookup_eq_none.mp hnone⟩
    · exact ⟨rfl, rfl, fun hmem => (AList.mem_erase.mp hmem).1 rfl⟩
  obtain ⟨hblocks, hwaiting, hout⟩ := hsame
  unfold QsaKvStore.release
  have hburied := hinv.bury (hblocks ▸ hblock) hout hunheld (hwaiting ▸ hidle)
    (if block.queued then (c.dropHot id block.priority).diskBytes - block.bytes
      else (c.dropHot id block.priority).diskBytes)
  dsimp only
  split
  · rename_i hlast
    exact hburied.truncate hlast.1
  · exact hburied

/-! ### A new block -/

variable {bytes : Bytes} {priority : Nat}

theorem StoreInv.addBlock (hc : StoreInv held c)
    (hsize : 0 < bytes.length ∧ bytes.length ≤ c.bufferBytes / 2) (hpriority : priority < 3)
    {freeOffsets : Nat → List Nat} {nextOffset : Nat}
    (hfree : ∀ n o, o ∈ freeOffsets n → o ∈ c.freeOffsets n ∧ Apart o n offset bytes.length)
    (hnodup : ∀ n, (freeOffsets n).Nodup) (hnext : c.nextOffset ≤ nextOffset)
    (hend : offset + bytes.length ≤ nextOffset)
    (hplace : ∀ id b, c.blocks.lookup id = some b → Apart offset bytes.length b.offset b.bytes) :
    StoreInv (fun id => id = c.nextId + 1 ∨ held id) { c with
      nextId := c.nextId + 1
      liveBlocks := c.liveBlocks + 1
      lru := Function.update c.lru priority ((c.nextId + 1) :: c.lru priority)
      hot := c.hot.insert (c.nextId + 1) bytes
      hotBytes := c.hotBytes + bytes.length
      blocks := c.blocks.insert (c.nextId + 1)
        { payload := bytes, offset, bytes := bytes.length, priority }
      freeOffsets, nextOffset } := by
  have hcc := hc.contents
  have hp := hc.places
  have hfresh : c.nextId + 1 ∉ c.blocks := by
    intro hmem
    obtain ⟨b, hb⟩ := (Table.mem_iff _ _).mp hmem
    have hle := hp.named _ b hb
    omega
  have hnone := AList.lookup_eq_none.mpr hfresh
  have hcold : ∀ p, c.nextId + 1 ∉ c.lru p := by
    intro p hmem
    obtain ⟨b, hb, -, -⟩ := hc.recency.listed p _ hmem
    exact hfresh (Table.mem_of_lookup hb)
  have hcases : ∀ {id' b}, (c.blocks.insert (c.nextId + 1)
      { payload := bytes, offset, bytes := bytes.length, priority }).lookup id' = some b →
      (id' = c.nextId + 1 ∧ b = { payload := bytes, offset, bytes := bytes.length, priority }) ∨
        (id' ≠ c.nextId + 1 ∧ c.blocks.lookup id' = some b) :=
    fun h => QsaKvStore.setBlock_cases (c := c) h
  have hkept : ∀ {id' b}, c.blocks.lookup id' = some b → (c.blocks.insert (c.nextId + 1)
      { payload := bytes, offset, bytes := bytes.length, priority }).lookup id' = some b := by
    intro id' b hb
    rw [Table.lookup_insert_ite, if_neg, hb]
    rintro rfl
    rw [hnone] at hb
    cases hb
  have hsizeOf : ∀ i ∈ c.waiting, c.sizeOf i = (((c.blocks.insert (c.nextId + 1)
      { payload := bytes, offset, bytes := bytes.length, priority }).lookup i).map
        Block.bytes).getD 0 := by
    intro i hi
    obtain ⟨b, hb⟩ := (Table.mem_iff _ _).mp (hcc.waitingLive i hi)
    rw [hkept hb]
    unfold QsaKvStore.sizeOf
    rw [hb]
  refine ⟨⟨?_, ?_, ?_, ?_, ?_, ?_, hnodup, ?_⟩, ⟨?_, ?_, ?_⟩,
    ⟨?_, ?_, ?_, ?_, ?_, ?_, ?_, ?_, hcc.waitingNodup, ?_, ?_⟩⟩
  · intro id' b hb
    rcases hcases hb with ⟨rfl, rfl⟩ | ⟨-, hb'⟩
    · exact Nat.le_refl _
    · exact Nat.le_succ_of_le (hp.named id' b hb')
  · intro id' b hb
    rcases hcases hb with ⟨rfl, rfl⟩ | ⟨-, hb'⟩
    · exact hend
    · exact Nat.le_trans (hp.within id' b hb') hnext
  · intro i i' b b' hb hb' hne
    rcases hcases hb with ⟨rfl, rfl⟩ | ⟨-, hb₀⟩
    · rcases hcases hb' with ⟨rfl, rfl⟩ | ⟨-, hb₁⟩
      · exact absurd rfl hne
      · exact hplace i' b' hb₁
    · rcases hcases hb' with ⟨rfl, rfl⟩ | ⟨-, hb₁⟩
      · exact (hplace i b hb₀).symm
      · exact hp.apart i i' b b' hb₀ hb₁ hne
  · exact fun n o ho => Nat.le_trans (hp.freeWithin n o (hfree n o ho).1) hnext
  · intro n o id' b ho hb
    rcases hcases hb with ⟨rfl, rfl⟩ | ⟨-, hb'⟩
    · exact (hfree n o ho).2
    · exact hp.freeApart n o id' b (hfree n o ho).1 hb'
  · exact fun n o n' o' ho ho' =>
      hp.freesApart n o n' o' (hfree n o ho).1 (hfree n' o' ho').1
  · show c.liveBlocks + 1 = _
    rw [AList.entries_insert, length_cons, hp.counted]
    exact congrArg (fun es : List (Sigma fun _ : Nat => Block) => es.length + 1)
      (kerase_of_notMem_keys hfresh).symm
  · intro id' p hpay
    have hpay' : (c.hot.insert (c.nextId + 1) bytes).lookup id' = some p := hpay
    rw [Table.lookup_insert_ite] at hpay'
    split at hpay'
    · rename_i hid
      subst hid
      refine ⟨_, AList.lookup_insert c.blocks, (Option.some.inj hpay').symm, ?_⟩
      show c.nextId + 1 ∈ Function.update c.lru priority _ priority
      rw [Function.update_self]
      exact mem_cons_self
    · obtain ⟨b, hb, hpayload, hlru⟩ := hc.recency.hot id' p hpay'
      refine ⟨b, hkept hb, hpayload, ?_⟩
      show id' ∈ Function.update c.lru priority _ b.priority
      rw [Function.update_apply]
      split
      · rename_i hprio
        exact mem_cons_of_mem _ (hprio ▸ hlru)
      · exact hlru
  · intro p id' hid
    have hid' : id' ∈ Function.update c.lru priority ((c.nextId + 1) :: c.lru priority) p := hid
    rw [Function.update_apply] at hid'
    have hold : ∀ {q}, id' ∈ c.lru q → ∃ b, (c.blocks.insert (c.nextId + 1)
        { payload := bytes, offset, bytes := bytes.length, priority }).lookup id' = some b ∧
        b.priority = q ∧ id' ∈ c.hot.insert (c.nextId + 1) bytes := by
      intro q hmem
      obtain ⟨b, hb, hbp, hh⟩ := hc.recency.listed q id' hmem
      exact ⟨b, hkept hb, hbp, (AList.mem_insert c.hot).mpr (Or.inr hh)⟩
    split at hid'
    · rename_i hprio
      subst hprio
      rcases mem_cons.mp hid' with rfl | hmem
      · exact ⟨_, AList.lookup_insert c.blocks, rfl, (AList.mem_insert c.hot).mpr (Or.inl rfl)⟩
      · exact hold hmem
    · exact hold hid'
  · intro p
    show (Function.update c.lru priority _ p).Nodup
    rw [Function.update_apply]
    split
    · exact nodup_cons.mpr ⟨hcold _, hc.recency.lruNodup _⟩
    · exact hc.recency.lruNodup p
  · rintro id' (rfl | hheld)
    · exact (AList.mem_insert c.blocks).mpr (Or.inl rfl)
    · exact (AList.mem_insert c.blocks).mpr (Or.inr (hcc.live id' hheld))
  · intro id' b hb
    rcases hcases hb with ⟨rfl, rfl⟩ | ⟨-, hb'⟩
    · exact ⟨rfl, hsize.1, hsize.2, hpriority⟩
    · exact hcc.sized id' b hb'
  · intro id' b p hb hpend
    rcases hcases hb with ⟨rfl, rfl⟩ | ⟨-, hb'⟩
    · cases hpend
    · exact hcc.pending id' b p hb' hpend
  · intro id' b hb hready
    rcases hcases hb with ⟨rfl, rfl⟩ | ⟨-, hb'⟩
    · cases hready
    · exact hcc.onFile id' b hb' hready
  · intro he id' b hb hq
    rcases hcases hb with ⟨rfl, rfl⟩ | ⟨-, hb'⟩
    · cases hq
    · exact hcc.queued he id' b hb' hq
  · intro he id' b hheld hb
    rcases hcases hb with ⟨rfl, rfl⟩ | ⟨hne, hb'⟩
    · exact Or.inr ((AList.mem_insert c.hot).mpr (Or.inl rfl))
    · rcases hcc.available he id' b (hheld.resolve_left hne) hb' with hsafe | hh
      · exact Or.inl hsafe
      · exact Or.inr ((AList.mem_insert c.hot).mpr (Or.inr hh))
  · intro id' b hb
    rcases hcases hb with ⟨rfl, rfl⟩ | ⟨-, hb'⟩
    · refine ⟨fun h => absurd h Bool.false_ne_true, fun h => ?_⟩
      exact absurd (hcc.waitingLive _ h) hfresh
    · exact hcc.waiting id' b hb'
  · exact fun id' h => (AList.mem_insert c.blocks).mpr (Or.inr (hcc.waitingLive id' h))
  · intro id' done h b hb
    rcases hcases hb with ⟨rfl, rfl⟩ | ⟨-, hb'⟩
    · refine absurd (hcc.waitingLive (c.nextId + 1) ?_) hfresh
      have hwriting : c.writing = some (c.nextId + 1, done) := h
      simp [QsaKvStore.waiting, hwriting]
    · exact hcc.progress id' done h b hb'
  · exact hcc.counted.trans (congrArg List.sum (map_congr_left hsizeOf))

theorem StoreInv.allocate (hc : StoreInv held c)
    (hsize : 0 < bytes.length ∧ bytes.length ≤ c.bufferBytes / 2) (hpriority : priority < 3) :
    StoreInv (fun id => id = c.nextId + 1 ∨ held id) (Op.allocate c bytes priority) := by
  unfold Op.allocate
  dsimp only
  split
  · refine hc.addBlock hsize hpriority (fun n o ho => ⟨ho, ?_⟩) hc.places.freeNodup
      (Nat.le_add_right _ _) (Nat.le_refl _) fun id b hb => ?_
    · exact Or.inl (hc.places.freeWithin n o ho)
    · exact Or.inr (hc.places.within id b hb)
  · rename_i offset hlast
    have hsplit : (c.freeOffsets bytes.length).dropLast ++ [offset] =
        c.freeOffsets bytes.length :=
      dropLast_append_getLast? offset (by rw [hlast]; rfl)
    have hmem : offset ∈ c.freeOffsets bytes.length := by
      rw [← hsplit]
      exact mem_append_right _ mem_cons_self
    have hnodup : ((c.freeOffsets bytes.length).dropLast ++ [offset]).Nodup := by
      rw [hsplit]
      exact hc.places.freeNodup _
    obtain ⟨hrest, -, hdisjoint⟩ := nodup_append.mp hnodup
    refine hc.addBlock hsize hpriority (fun n o ho => ?_) (fun n => ?_) (Nat.le_refl _)
      (hc.places.freeWithin _ _ hmem) fun id b hb => hc.places.freeApart _ _ id b hmem hb
    · rw [Function.update_apply] at ho
      split at ho
      · rename_i hn
        subst hn
        have hold : o ∈ c.freeOffsets bytes.length := by
          rw [← hsplit]
          exact mem_append_left _ ho
        refine ⟨hold, hc.places.freesApart _ _ _ _ hold hmem ?_⟩
        rintro ⟨-, rfl⟩
        exact hdisjoint o ho o mem_cons_self rfl
      · rename_i hn
        exact ⟨ho, hc.places.freesApart _ _ _ _ ho hmem fun h => hn h.1⟩
    · rw [Function.update_apply]
      split
      · exact hrest
      · exact hc.places.freeNodup n

/-! ### Fewer pointers -/

theorem StoreInv.mono (hc : StoreInv held c) {held' : Nat → Prop}
    (hless : ∀ id, held' id → held id) : StoreInv held' c :=
  ⟨hc.places, hc.recency, { hc.contents with
    live := fun id h => hc.contents.live id (hless id h)
    available := fun he id b h => hc.contents.available he id b (hless id h) }⟩

end TyloQuant.QsaKv
