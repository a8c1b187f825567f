import Mathlib.Data.List.Dedup
import Mathlib.Data.List.Sort
import TyloQuant.NintRowPipeline.Pieces

/-!
# Gathering rows

The shared row cache (`nint_row_cache.h`) and `gather` (`nint_row_pipeline.cpp`): the ids are
looked up once each, the missing rows read table by table, single rows published in the cache, and
all of them joined in the order of their ids.  Other sources use the cache in between.
-/

namespace TyloQuant.NintRowPipeline

open Lib List

/-! ### The cache -/

/-- `entries` from the most recently used on. -/
structure NintRowCache where
  capacity : Nat
  entries : List (Nat × NintRowBatch) := []

namespace NintRowCache

variable {c : NintRowCache} {key : Nat} {e : Nat × NintRowBatch}

def splice (c : NintRowCache) (e : Nat × NintRowBatch) : NintRowCache :=
  { c with entries := e :: c.entries.filter fun other => other.1 ≠ e.1 }

def find (c : NintRowCache) (key : Nat) : Option NintRowBatch × NintRowCache :=
  match c.entries.find? fun e => e.1 = key with
  | none => (none, c)
  | some e => (some e.2, c.splice e)

def insert (c : NintRowCache) (key : Nat) (value : NintRowBatch) : NintRowCache :=
  if c.capacity = 0 then c else
  match c.entries.find? fun e => e.1 = key with
  | some e => c.splice e
  | none =>
    let entries := (key, value) :: c.entries
    { c with entries := if entries.length > c.capacity then entries.dropLast else entries }

theorem mem_splice (he : e ∈ c.entries) {other : Nat × NintRowBatch}
    (h : other ∈ (c.splice e).entries) : other ∈ c.entries := by
  rcases mem_cons.mp h with rfl | hmem
  · exact he
  · exact mem_of_mem_filter hmem

theorem mem_find (h : e ∈ (c.find key).2.entries) : e ∈ c.entries := by
  rw [find] at h
  split at h
  · exact h
  next found hfound => exact mem_splice (mem_of_find?_eq_some hfound) h

theorem find_some {value : NintRowBatch} (h : (c.find key).1 = some value) :
    (key, value) ∈ c.entries := by
  rw [find] at h
  split at h
  · cases h
  next found hfound =>
    obtain rfl : found.2 = value := Option.some.inj h
    obtain rfl : found.1 = key := by simpa using find?_some hfound
    exact mem_of_find?_eq_some hfound

theorem mem_insert {value : NintRowBatch} (h : e ∈ (c.insert key value).entries) :
    e = (key, value) ∨ e ∈ c.entries := by
  rw [insert] at h
  split at h
  · exact Or.inr h
  · split at h
    next found hfound => exact Or.inr (mem_splice (mem_of_find?_eq_some hfound) h)
    next =>
      simp only at h
      split at h
      · exact mem_cons.mp (dropLast_subset _ h)
      · exact mem_cons.mp h

end NintRowCache

/-! ### Sources -/

/-- The tables of a pipeline, with what its constructor checks. -/
structure Source where
  front : NintRows
  rest : List NintRows
  sourceId : Nat
  opened : ∀ t ∈ front :: rest, t.Opened
  same : ∀ t ∈ rest, t.rows = front.rows ∧ t.width = front.width
  keys : front.rows * (rest.length + 1) ≤ uint32Max
  source_le : sourceId ≤ uint32Max

/-- What a call on the pipeline throws. -/
inductive Error where
  | rowId (id : Int)
  | read (id : Nat)
  | anchors (id : Nat)
  | exceedsBounds
  | batchSize
  | mappedRow
  | widths
  | cacheIndex
  | wireBounds
  | nullRow
  | location
  | shapeOverflow
  | inputMismatch
  | stageDiffers
  | stageExceeded
deriving DecidableEq

/-- A key of the cache. -/
def cacheKey (sourceId : Nat) (id : Nat) : Nat := sourceId <<< 32 ||| id % 2 ^ 32

theorem cacheKey_eq (sourceId id : Nat) : cacheKey sourceId id = sourceId * 2 ^ 32 + id % 2 ^ 32 := by
  rw [cacheKey, ← Nat.shiftLeft_add_eq_or_of_lt (Nat.mod_lt _ (by decide)), Nat.shiftLeft_eq]

/-- What another source does with the cache: it looks a row up, or inserts one. -/
structure ForeignOp (sourceId : Nat) where
  source : Nat
  id : Nat
  value : Option NintRowBatch
  foreign : source ≠ sourceId

def ForeignOp.run {sourceId : Nat} (c : NintRowCache) (op : ForeignOp sourceId) : NintRowCache :=
  match op.value with
  | none => (c.find (cacheKey op.source op.id)).2
  | some value => c.insert (cacheKey op.source op.id) value

/-- What happens during a gather: which rows cannot be read, and what others do with the cache
before a row is looked up or inserted. -/
structure Conditions (sourceId : Nat) where
  unreadable : Nat → Bool := fun _ => false
  beforeFind : Nat → List (ForeignOp sourceId) := fun _ => []
  beforeInsert : Nat → List (ForeignOp sourceId) := fun _ => []

structure Gathered where
  batch : NintRowBatch := {}
  inverse : List Nat := []
deriving DecidableEq

namespace Source

variable (p : Source)

def tables : List NintRows := p.front :: p.rest

def rows : Nat := p.front.rows

def width : Nat := p.front.width

def shard (id : Nat) : Nat := id / p.rows

/-- The row of an id in its table. -/
def item (id : Nat) : NintRows × Nat := (p.tables.getD (p.shard id) p.front, id % p.rows)

/-- The row that an id names. -/
def row (id : Nat) : List Code := (p.item id).1.row (p.item id).2

def InRange (id : Int) : Prop := 0 ≤ id ∧ p.shard id.toNat < p.tables.length

instance (id : Int) : Decidable (p.InRange id) := inferInstanceAs (Decidable (_ ∧ _))

def ofRowError (shard : Nat) : RowError → Error
  | .mappedRow _ => .mappedRow
  | .anchors row => .anchors (shard * p.rows + row)
  | .read row => .read (shard * p.rows + row)
  | .widths => .widths
  | .exceedsBounds => .exceedsBounds
  | .batchSize => .batchSize
  | .cacheIndex => .cacheIndex
  | .wireBounds => .wireBounds

/-- The cache, and `selected` in the order in which the ids are met. -/
abbrev Selection : Type := NintRowCache × List (Nat × Option NintRowBatch)

def lookUp (at' : Conditions p.sourceId) (s : Selection) (id : Int) :
    Except (Error × NintRowCache) Selection :=
  if ¬p.InRange id then .error (.rowId id, s.1) else
  if id.toNat ∈ s.2.map Prod.fst then .ok s else
  let looked := ((at'.beforeFind id.toNat).foldl ForeignOp.run s.1).find (cacheKey p.sourceId id.toNat)
  .ok (looked.2, s.2 ++ [(id.toNat, looked.1)])

/-- `misses[shard]` -/
def misses (selected : List (Nat × Option NintRowBatch)) (shard : Nat) : List Nat :=
  ((selected.filter fun e => e.2.isNone ∧ p.shard e.1 = shard).map Prod.fst).map (· % p.rows)

/-- The reads, table by table; where several fail, the first error stands for the one that the
workers report. -/
def fetch (at' : Conditions p.sourceId) (selected : List (Nat × Option NintRowBatch))
    (fetched : List NintRowBatch) (shard : Nat) : Except Error (List NintRowBatch) := do
  let batch ← ((p.tables.getD shard p.front).appendRows
    (fun row => at'.unreadable (shard * p.rows + row)) (p.misses selected shard) {}).mapError
      (p.ofRowError shard)
  .ok (fetched ++ [batch])

/-- A row that was read: its id, its table's batch and its place there. -/
abbrev Fetched : Type := Nat × NintRowBatch × Nat

def fetchedRows (selected : List (Nat × Option NintRowBatch)) (fetched : List NintRowBatch) :
    List Fetched :=
  fetched.zipIdx.flatMap fun shard =>
    (p.misses selected shard.2).zipIdx.map fun row =>
      (shard.2 * p.rows + row.1, shard.1, row.2)

def publish (at' : Conditions p.sourceId) (s : Selection) (row : Fetched) :
    Except (Error × NintRowCache) Selection := do
  let value ← (row.2.1.copyRow row.2.2 {}).mapError fun e => (p.ofRowError (p.shard row.1) e, s.1)
  .ok (((at'.beforeInsert row.1).foldl ForeignOp.run s.1).insert (cacheKey p.sourceId row.1) value,
    s.2.map fun e => if e.1 = row.1 then (e.1, some value) else e)

/-- One round of the loop over `selected`, with `locations`. -/
def join (s : NintRowBatch × List (Nat × Nat)) (e : Nat × Option NintRowBatch) :
    Except Error (NintRowBatch × List (Nat × Nat)) :=
  match e.2 with
  | none => .error .nullRow
  | some value => do
      let batch ← (s.1.appendBatch value).mapError (p.ofRowError (p.shard e.1))
      .ok (batch, s.2 ++ [(e.1, s.1.descriptors.length)])

def locate (locations : List (Nat × Nat)) (inverse : List Nat) (id : Int) :
    Except Error (List Nat) :=
  match locations.find? fun e => e.1 = id.toNat with
  | none => .error .location
  | some e => .ok (inverse ++ [e.2])

def gather (at' : Conditions p.sourceId) (c : NintRowCache) (ids : List Int) :
    Except (Error × NintRowCache) (Gathered × NintRowCache) := do
  let looked ← ids.foldlM (p.lookUp at') (c, [])
  let fetched ← ((List.range p.tables.length).foldlM (p.fetch at' looked.2) []).mapError
    fun e => (e, looked.1)
  let selected ← (p.fetchedRows looked.2 fetched).foldlM (p.publish at') looked
  let joined ← ((selected.2.mergeSort fun e e' => e.1 ≤ e'.1).foldlM p.join ({}, [])).mapError
    fun e => (e, selected.1)
  let inverse ← (ids.foldlM (locate joined.2) []).mapError fun e => (e, selected.1)
  .ok ({ batch := joined.1, inverse }, selected.1)

end Source

end TyloQuant.NintRowPipeline
