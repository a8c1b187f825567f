import Mathlib.Algebra.GroupWithZero.Nat
import Mathlib.Algebra.Order.BigOperators.Group.List
import Mathlib.Algebra.Order.Ring.Nat
import Mathlib.Data.Fin.VecNotation
import Mathlib.Data.List.FinRange
import Mathlib.Data.List.Sort
import Mathlib.Data.Nat.ModEq
import TyloQuant.Lib.Transition

/-!
# The preload of the TQ expert cache

An expert has three packed projections, each kept in a pool of its own.  A pool is cut in chunks and
hands out its free ranges by best fit.  Its full capacity is what its experts take packed in order,
where one that does not fit in the rest of a chunk starts the next.  A cache with full capacities
loads every expert, and evicts where best fit finds no range.  Reads are taken to succeed.
-/

namespace TyloQuant.TqExpertCache

open Lib List

/-! ### Pools -/

def aligned (size : Nat) : Nat := (size + 255) / 256 * 256

def roundUp (page bytes : Nat) : Nat := (bytes + page - 1) / page * page

structure Range where
  offset : Nat
  bytes : Nat
  deriving DecidableEq

/-- What stays of a pool while it hands out ranges. -/
structure Pool where
  capacity : Nat
  chunkBytes : Nat

/-- A range enters behind those of its size, as in the multimap `sizes`. -/
def emplace (range : Range) (free : List Range) : List Range :=
  free.takeWhile (·.bytes ≤ range.bytes) ++ range :: free.dropWhile (·.bytes ≤ range.bytes)

namespace Pool

variable (pool : Pool)

/-- The loop of `insert_free`, which inserts a range for each chunk. -/
def insertParts : Nat → List Range → Range → List Range
  | 0, free, _ => free
  | rounds + 1, free, range =>
    if range.bytes = 0 then free
    else
      let part := min range.bytes (pool.chunkBytes - range.offset % pool.chunkBytes)
      insertParts rounds (emplace ⟨range.offset, part⟩ free)
        ⟨range.offset + part, range.bytes - part⟩

-- a round takes at least one byte
def insertFree (free : List Range) (range : Range) : List Range :=
  pool.insertParts range.bytes free range

/-- The free ranges that live ranges, listed by their offsets, leave from `next` on. -/
def gaps (free : List Range) : Nat → List Range → List Range
  | next, [] =>
    if next < pool.capacity then pool.insertFree free ⟨next, pool.capacity - next⟩ else free
  | next, range :: live =>
    gaps (if next < range.offset then pool.insertFree free ⟨next, range.offset - next⟩ else free)
      (range.offset + range.bytes) live

def release (free : List Range) (range : Range) : List Range :=
  let sameChunk (other : Range) :=
    decide (other.offset / pool.chunkBytes = range.offset / pool.chunkBytes)
  let previous := free.filter fun r => sameChunk r && r.offset + r.bytes == range.offset
  let next := free.filter fun r => sameChunk r && range.offset + range.bytes == r.offset
  pool.insertFree (free.filter fun r => r ∉ previous ∧ r ∉ next)
    ⟨(previous.map (·.offset)).headD range.offset,
      (previous.map (·.bytes)).sum + range.bytes + (next.map (·.bytes)).sum⟩

end Pool

def fits (free : List Range) (bytes : Nat) : Bool := free.any (bytes ≤ ·.bytes)

/-- Best fit: the first of the smallest free ranges with room. -/
def take (free : List Range) (bytes : Nat) : Option (Range × List Range) :=
  (free.find? (bytes ≤ ·.bytes)).map fun range =>
    (⟨range.offset, bytes⟩,
      if range.bytes = bytes then free.erase range
      else emplace ⟨range.offset + bytes, range.bytes - bytes⟩ (free.erase range))

/-- Where a range goes when `next` bytes are packed before it. -/
def packStart (chunkBytes next bytes : Nat) : Nat :=
  if chunkBytes - next % chunkBytes < bytes then (next / chunkBytes + 1) * chunkBytes else next

def pack (chunkBytes : Nat) : Nat → List Nat → List Range
  | _, [] => []
  | next, bytes :: rest =>
    let start := packStart chunkBytes next bytes
    ⟨start, bytes⟩ :: pack chunkBytes (start + bytes) rest

def packed (chunkBytes : Nat) (sizes : List Nat) (next : Nat) : Nat :=
  sizes.foldl (fun next bytes => packStart chunkBytes next bytes + bytes) next

/-! ### The constructor -/

/-- What the constructor reads: the packed bytes of each layer's experts in the three projections,
the bytes of descriptors and scales, the page and the longest buffer of the device. -/
structure Source where
  layers : List (List (Fin 3 → Nat))
  metadata : Nat
  page : Nat
  maxBufferLength : Nat
  layers_ne : [] ∉ layers
  page_pos : 0 < page
  page_le : page ≤ maxBufferLength

def total (f : Fin 3 → Nat) : Nat := f 0 + f 1 + f 2

namespace Source

variable (src : Source) (p : Fin 3)

-- the bytes in a pool of each layer's experts
def banks : List (List Nat) :=
  src.layers.map fun layer => layer.map fun expert => aligned (expert p)

def bankLargest : Nat := (src.banks p).flatten.foldl max 0

def chunkBytes : Nat :=
  min (src.maxBufferLength / src.page * src.page)
    (max src.page (roundUp src.page (((src.banks p).map List.sum).foldl max 0)))

def bankCapacity : Nat := roundUp src.page (packed (src.chunkBytes p) (src.banks p).flatten 0)

/-- `share extra part room` is the floating point `extra * part / room`. -/
def poolCapacities (share : Nat → Nat → Nat → Nat) (budget : Nat) : Option (Fin 3 → Nat) :=
  let smallest p := roundUp src.page (src.bankLargest p)
  let extra := budget - src.metadata - total smallest
  if ∃ p, src.bankCapacity p < smallest p then none
  else if budget < src.metadata ∨ budget - src.metadata < total smallest then none
  else if total src.bankCapacity ≤ budget - src.metadata then some src.bankCapacity
  else some fun p => smallest p + share extra (src.bankCapacity p - smallest p)
    (total src.bankCapacity - total smallest) / src.page * src.page

def pools (capacities : Fin 3 → Nat) (p : Fin 3) : Pool :=
  ⟨capacities p / src.page * src.page, src.chunkBytes p⟩

end Source

/-! ### Admission -/

structure Entry where
  layer : Nat
  expert : Nat
  allocations : Fin 3 → Range

def Entry.key (entry : Entry) : Nat × Nat := (entry.layer, entry.expert)

/-- The cache, its entries as `order` lists them, the one used last first. -/
structure State where
  free : Fin 3 → List Range
  entries : List Entry
  evictions : Nat

namespace State

def keys (s : State) : List (Nat × Nat) := s.entries.map Entry.key

/-- `layers[index].cached`. -/
def cached (s : State) (index : Nat) : Nat := s.keys.countP (·.1 = index)

abbrev Fits (s : State) (sizes : Fin 3 → Nat) : Prop := ∀ p, fits (s.free p) (sizes p) = true

variable (pools : Fin 3 → Pool)

def fresh : State := ⟨fun p => (pools p).gaps [] 0 [], [], 0⟩

/-- `erase`, of an entry that makes room. -/
def evict (s : State) (victim : Entry) : State where
  free p := (pools p).release (s.free p) (victim.allocations p)
  entries := s.entries.filter (·.key ≠ victim.key)
  evictions := s.evictions + 1

def compact (p : Fin 3) (s : State) : State :=
  let sorted := s.entries.insertionSort fun a b =>
    (a.allocations p).offset ≤ (b.allocations p).offset
  let ranges := pack (pools p).chunkBytes 0 (sorted.map fun entry => (entry.allocations p).bytes)
  if ranges.all (fun range => range.offset + range.bytes ≤ (pools p).capacity) then
    { s with
      free := Function.update s.free p ((pools p).gaps [] 0 ranges)
      entries := s.entries.map fun entry =>
        { entry with
          allocations := Function.update entry.allocations p
            ((((sorted.map Entry.key).zip ranges).lookup entry.key).getD (entry.allocations p)) } }
  else s

def compacted (s : State) : State := compact pools 2 (compact pools 1 (compact pools 0 s))

/-- The loop of `admit` over the entries it may evict, those used longest ago first. -/
def makeRoom (sizes : Fin 3 → Nat) : State → List Entry → Option State
  | s, [] =>
    if s.Fits sizes then some s
    else if (s.compacted pools).Fits sizes then some (s.compacted pools)
    else none
  | s, victim :: victims =>
    if s.Fits sizes then some s else makeRoom sizes (s.evict pools victim) victims

def insert (s : State) (layer expert : Nat) (sizes : Fin 3 → Nat) : Option State :=
  (take (s.free 0) (sizes 0)).bind fun gate =>
  (take (s.free 1) (sizes 1)).bind fun up =>
  (take (s.free 2) (sizes 2)).map fun down =>
    { s with
      free := ![gate.2, up.2, down.2]
      entries := ⟨layer, expert, ![gate.1, up.1, down.1]⟩ :: s.entries }

end State

namespace Source

variable (src : Source) (pools : Fin 3 → Pool) (i : Fin src.layers.length)

def sizes (e : Fin src.layers[i].length) (p : Fin 3) : Nat := aligned (src.layers[i][e] p)

/-- The window is the whole layer, so `protected_keys` are all of the layer's. -/
def victims (s : State) : List Entry := (s.entries.filter (·.layer ≠ i.1)).reverse

/-- `admit`. -/
def admitExpert (s : State) (e : Fin src.layers[i].length) : Option State :=
  if ∃ entry ∈ s.entries, entry.key = (i.1, e.1) then
    some { s with
      entries := s.entries.filter (·.key = (i.1, e.1)) ++ s.entries.filter (·.key ≠ (i.1, e.1)) }
  else
    (State.makeRoom pools (src.sizes i e) s (src.victims i s)).bind fun room =>
      room.insert i e (src.sizes i e)

def applyLocked (s : State) (i : Fin src.layers.length) : Option State :=
  if ∀ p, (src.layers[i].map fun expert => aligned (expert p)).sum ≤ (pools p).capacity then
    run (src.admitExpert pools i) s (List.finRange src.layers[i].length)
  else none

def preloadComplete (s : State) : Option State :=
  if ∃ p, (pools p).capacity < src.bankCapacity p then some s
  else run (src.applyLocked pools) s (List.finRange src.layers.length)

def construct (share : Nat → Nat → Nat → Nat) (budget : Nat) : Option State :=
  if ∃ p, ∃ size ∈ (src.banks p).flatten, src.chunkBytes p < size then none
  else
    (src.poolCapacities share budget).bind fun capacities =>
      if ∃ p, (src.pools capacities p).capacity = 0 ∨
          2 ^ 31 ≤ (src.pools capacities p).capacity / 4096 then none
      else src.preloadComplete (src.pools capacities) (State.fresh (src.pools capacities))

/-- Every expert of every layer is cached, and nothing was evicted on the way. -/
def Complete (before : State) (result : Option State) : Prop :=
  ∃ s ∈ result,
    (∀ i : Fin src.layers.length, s.cached i = src.layers[i].length) ∧
      s.evictions = before.evictions

abbrev Expert : Type := (i : Fin src.layers.length) × Fin src.layers[i].length

/-- All experts, in the order in which the preload loads them. -/
def experts : List src.Expert :=
  (List.finRange src.layers.length).flatMap fun i =>
    (List.finRange src.layers[i].length).map (Sigma.mk i)

/-- What those that are not cached take in a pool. -/
def pending (s : State) (experts : List src.Expert) (p : Fin 3) : List Nat :=
  (experts.filter fun x => !s.keys.contains (x.1.1, x.2.1)).map fun x => src.sizes x.1 x.2 p

instance (before : State) (result : Option State) : Decidable (src.Complete before result) :=
  inferInstanceAs (Decidable (∃ s ∈ result, _ ∧ _))

end Source

/-- Counted in a unit that divides the sizes: when the turn of one comes, those before it have left
more free than its ranges can hold if each is too short for it. -/
def Roomy (free : List Range) (sizes : List Nat) (unit : Nat) : Prop :=
  ∀ n (_ : n < sizes.length), unit ∣ sizes[n] ∧
    ((sizes.take n).map (· / unit)).sum + free.length * (sizes[n] / unit - 1) <
      (free.map (·.bytes / unit)).sum

instance (free : List Range) (sizes : List Nat) (unit : Nat) : Decidable (Roomy free sizes unit) :=
  inferInstanceAs (Decidable (∀ n (_ : n < sizes.length), _ ∧ _))

/-! ### What one expert does -/

section

variable {src : Source} {pools : Fin 3 → Pool} {i : Fin src.layers.length} {s t : State}
  {e : Fin src.layers[i].length} {sizes : Fin 3 → Nat}

theorem take_of_fits {free : List Range} {bytes : Nat} (h : fits free bytes) :
    ∃ taken, take free bytes = some taken := by
  obtain ⟨range, hrange, hroom⟩ := any_eq_true.mp h
  cases hfind : free.find? (bytes ≤ ·.bytes) with
  | none => exact absurd hroom (find?_eq_none.mp hfind range hrange)
  | some found => exact ⟨_, by rw [take, hfind]; rfl⟩

theorem State.insert_of_fits (layer expert : Nat) (h : s.Fits sizes) :
    ∃ t, s.insert layer expert sizes = some t ∧
      ∀ p, ∃ range, take (s.free p) (sizes p) = some (range, t.free p) := by
  obtain ⟨gate, hgate⟩ := take_of_fits (h 0)
  obtain ⟨up, hup⟩ := take_of_fits (h 1)
  obtain ⟨down, hdown⟩ := take_of_fits (h 2)
  refine ⟨_, by rw [State.insert, hgate, hup, hdown]; rfl, fun p => ?_⟩
  match p with
  | 0 => exact ⟨gate.1, hgate⟩
  | 1 => exact ⟨up.1, hup⟩
  | 2 => exact ⟨down.1, hdown⟩

theorem emplace_perm (range : Range) (free : List Range) :
    (emplace range free).Perm (range :: free) := by
  unfold emplace
  exact perm_middle.trans (by rw [takeWhile_append_dropWhile])

/-- Taking a range cuts one of the free ranges shorter. -/
theorem take_units {free rest : List Range} {range : Range} {bytes unit : Nat}
    (h : take free bytes = some (range, rest)) (hunit : unit ∣ bytes) :
    rest.length ≤ free.length ∧
      bytes / unit + (rest.map (·.bytes / unit)).sum = (free.map (·.bytes / unit)).sum := by
  obtain ⟨found, hfind, hrest⟩ := Option.map_eq_some_iff.mp h
  obtain rfl : _ = rest := congrArg Prod.snd hrest
  have hroom : bytes ≤ found.bytes := by simpa using find?_some hfind
  have hperm := perm_cons_erase (mem_of_find?_eq_some hfind)
  have hlength := hperm.length_eq
  have hsum := (hperm.map (·.bytes / unit)).sum_nat
  rw [length_cons] at hlength
  rw [map_cons, sum_cons] at hsum
  dsimp only
  split
  · next hexact => exact ⟨by omega, by rw [hsum, hexact]⟩
  · have hcut := emplace_perm ⟨found.offset + bytes, found.bytes - bytes⟩ (free.erase found)
    have hparts : found.bytes / unit = bytes / unit + (found.bytes - bytes) / unit := by
      rw [← Nat.add_div_of_dvd_right hunit, Nat.add_sub_cancel' hroom]
    rw [hcut.length_eq, (hcut.map _).sum_nat, length_cons, map_cons, sum_cons, hsum,
      hparts]
    exact ⟨hlength.ge, (Nat.add_assoc _ _ _).symm⟩

theorem Roomy.fits {free : List Range} {bytes unit : Nat} {rest : List Nat}
    (h : Roomy free (bytes :: rest) unit) : fits free bytes := by
  obtain ⟨hunit, hmore⟩ := h 0 (Nat.succ_pos _)
  by_contra hnone
  -- otherwise every range is a unit too short, and together they have less than is free
  have hshort : ∀ part ∈ free.map (·.bytes / unit), part ≤ bytes / unit - 1 := by
    simp only [forall_mem_map]
    intro range hrange
    have hless : range.bytes < bytes :=
      not_le.mp fun hle => hnone (any_eq_true.mpr ⟨range, hrange, decide_eq_true hle⟩)
    exact Nat.le_sub_one_of_lt (Nat.div_lt_div_of_lt_of_dvd hunit hless)
  have hsum : (free.map (·.bytes / unit)).sum ≤ free.length * (bytes / unit - 1) :=
    (sum_le_card_nsmul _ _ hshort).trans_eq (by rw [length_map, Nat.nsmul_eq_mul])
  simp only [take_zero, map_nil, sum_nil, getElem_cons_zero] at hmore
  omega

theorem Roomy.take {free left : List Range} {range : Range} {bytes unit : Nat} {rest : List Nat}
    (h : Roomy free (bytes :: rest) unit) (htake : take free bytes = some (range, left)) :
    Roomy left rest unit := by
  obtain ⟨hlength, hsum⟩ := take_units htake (h 0 (Nat.succ_pos _)).1
  intro n hn
  obtain ⟨hunit, hmore⟩ := h (n + 1) (Nat.succ_lt_succ hn)
  refine ⟨hunit, ?_⟩
  have := Nat.mul_le_mul_right (rest[n] / unit - 1) hlength
  simp only [take_succ_cons, map_cons, sum_cons, getElem_cons_succ] at hmore
  omega

theorem State.insert_eq {layer expert : Nat} (h : s.insert layer expert sizes = some t) :
    t.keys = (layer, expert) :: s.keys ∧ t.evictions = s.evictions := by
  simp only [State.insert, Option.bind_eq_some_iff, Option.map_eq_some_iff] at h
  obtain ⟨gate, -, up, -, down, -, rfl⟩ := h
  exact ⟨rfl, rfl⟩

theorem State.compact_keys (p : Fin 3) :
    (s.compact pools p).keys = s.keys ∧ (s.compact pools p).evictions = s.evictions := by
  dsimp only [State.compact]
  split
  · exact ⟨by simp [State.keys, Entry.key, Function.comp_def], rfl⟩
  · exact ⟨rfl, rfl⟩

theorem State.compacted_keys :
    (s.compacted pools).keys = s.keys ∧ (s.compacted pools).evictions = s.evictions := by
  simp only [State.compacted, State.compact_keys, and_self]

theorem State.makeRoom_eq {victims : List Entry} (h : s.makeRoom pools sizes victims = some t) :
    t.keys.Sublist s.keys ∧
      (s.evictions < t.evictions ∨ t.evictions = s.evictions ∧ t.keys = s.keys) := by
  induction victims generalizing s with
  | nil =>
    unfold State.makeRoom at h
    split at h
    · cases h
      exact ⟨.refl _, .inr ⟨rfl, rfl⟩⟩
    · split at h <;> cases h
      obtain ⟨hkeys, hsame⟩ := @State.compacted_keys pools s
      exact ⟨hkeys ▸ .refl _, .inr ⟨hsame, hkeys⟩⟩
  | cons victim victims ih =>
    unfold State.makeRoom at h
    split at h
    · cases h
      exact ⟨.refl _, .inr ⟨rfl, rfl⟩⟩
    · obtain ⟨hsub, hmore⟩ := ih h
      have hevict : (s.evict pools victim).evictions = s.evictions + 1 := rfl
      exact ⟨hsub.trans (filter_sublist.map _), .inl (by omega)⟩

/-- The invariant: no expert is cached twice, and only experts of the source are. -/
structure Source.Held (src : Source) (s : State) : Prop where
  nodup : s.keys.Nodup
  known : ∀ k ∈ s.keys, ∃ (i : Fin src.layers.length) (e : Fin src.layers[i].length), k = (i.1, e.1)

/-- What loading does: it evicts, or keeps what is cached and adds the new keys. -/
structure Source.Loads (src : Source) (s t : State) (new : Nat × Nat → Prop) : Prop where
  held : src.Held t
  evictions : s.evictions ≤ t.evictions
  keys : t.evictions = s.evictions → ∀ k, k ∈ s.keys ∨ new k → k ∈ t.keys

theorem Source.Held.cached (h : src.Held s)
    (hall : ∀ e : Fin src.layers[i].length, (i.1, e.1) ∈ s.keys) :
    s.cached i = src.layers[i].length := by
  have hperm : (s.keys.filter (·.1 = i.1)).Perm
      ((List.range src.layers[i].length).map (Prod.mk i.1)) := by
    refine (perm_ext_iff_of_nodup (h.nodup.filter _)
      (nodup_range.map (Prod.mk_right_injective i.1))).mpr fun k => ?_
    simp only [mem_filter, mem_map, mem_range, decide_eq_true_eq]
    constructor
    · rintro ⟨hk, hlayer⟩
      obtain ⟨j, e, rfl⟩ := h.known k hk
      obtain rfl : j = i := Fin.ext hlayer
      exact ⟨e, e.2, rfl⟩
    · rintro ⟨e, he, rfl⟩
      exact ⟨hall ⟨e, he⟩, rfl⟩
  rw [State.cached, countP_eq_length_filter, hperm.length_eq, length_map,
    List.length_range]

namespace Source

theorem held_fresh : src.Held (.fresh pools) :=
  ⟨nodup_nil, fun _ hk => absurd hk not_mem_nil⟩

theorem reordered_perm (k : Nat × Nat) :
    ((s.entries.filter (·.key = k) ++ s.entries.filter (·.key ≠ k)).map Entry.key).Perm s.keys := by
  simpa only [decide_not, State.keys] using
    (filter_append_perm (·.key = k) s.entries).map Entry.key

theorem admit_loads (hs : src.Held s) (h : src.admitExpert pools i s e = some t) :
    src.Loads s t (· = (i.1, e.1)) := by
  unfold admitExpert at h
  split at h
  · next hcached =>
    replace hcached : (i.1, e.1) ∈ s.keys := mem_map.mpr hcached
    cases h
    have hperm := reordered_perm (s := s) (i.1, e.1)
    refine ⟨⟨hperm.nodup_iff.mpr hs.nodup, fun k hk => hs.known k (hperm.mem_iff.mp hk)⟩, le_rfl,
      fun _ k hk => hperm.mem_iff.mpr ?_⟩
    exact hk.elim id fun hk => hk ▸ hcached
  · next hnew =>
    replace hnew : (i.1, e.1) ∉ s.keys := fun hmem => hnew (mem_map.mp hmem)
    obtain ⟨room, hroom, hinsert⟩ := Option.bind_eq_some_iff.mp h
    obtain ⟨hsub, hevicted⟩ := State.makeRoom_eq hroom
    obtain ⟨hkeys, hsame⟩ := State.insert_eq hinsert
    refine ⟨⟨?_, fun k hk => ?_⟩, by omega, fun heq k hk => ?_⟩
    · rw [hkeys]
      exact nodup_cons.mpr ⟨fun hmem => hnew (hsub.subset hmem), hs.nodup.sublist hsub⟩
    · rw [hkeys, mem_cons] at hk
      exact hk.elim (fun hk => ⟨i, e, hk⟩) fun hk => hs.known k (hsub.subset hk)
    · obtain ⟨-, hkept⟩ := hevicted.resolve_left (by omega)
      rw [hkeys, hkept, mem_cons]
      exact hk.symm

theorem expert_ext {x y : src.Expert} (h : (x.1.1, x.2.1) = (y.1.1, y.2.1)) : x = y := by
  obtain ⟨⟨i, hi⟩, e⟩ := x
  obtain ⟨⟨j, hj⟩, f⟩ := y
  obtain ⟨hlayer, hexpert⟩ := Prod.mk.inj h
  obtain rfl : i = j := hlayer
  exact congrArg (Sigma.mk _) (Fin.ext hexpert)

theorem pending_congr {experts : List src.Expert} {p : Fin 3}
    (h : ∀ x ∈ experts, (x.1.1, x.2.1) ∈ t.keys ↔ (x.1.1, x.2.1) ∈ s.keys) :
    src.pending t experts p = src.pending s experts p :=
  congrArg (List.map _) (filter_congr fun x hx => by simp [h x hx])

variable (pools)

/-- An expert for which there is room is loaded and leaves room for those after it. -/
theorem admit_roomy {x : src.Expert} {rest : List src.Expert} (hx : x ∉ rest)
    (h : ∀ p, ∃ unit, Roomy (s.free p) (src.pending s (x :: rest) p) unit) :
    ∃ t, src.admitExpert pools x.1 s x.2 = some t ∧ t.evictions = s.evictions ∧
      ∀ p, ∃ unit, Roomy (t.free p) (src.pending t rest p) unit := by
  unfold admitExpert
  split
  · next hcached =>
    replace hcached : (x.1.1, x.2.1) ∈ s.keys := mem_map.mpr hcached
    refine ⟨_, rfl, rfl, fun p => ?_⟩
    obtain ⟨unit, hroomy⟩ := h p
    rw [pending_congr fun y _ => (reordered_perm (s := s) (x.1.1, x.2.1)).mem_iff]
    have hskip : src.pending s (x :: rest) p = src.pending s rest p := by
      simp [pending, hcached]
    exact ⟨unit, hskip ▸ hroomy⟩
  · next hnew =>
    replace hnew : (x.1.1, x.2.1) ∉ s.keys := fun hmem => hnew (mem_map.mp hmem)
    have hpending (p : Fin 3) : src.pending s (x :: rest) p =
        src.sizes x.1 x.2 p :: src.pending s rest p := by
      simp [pending, hnew]
    have hfits : s.Fits (src.sizes x.1 x.2) := fun p =>
      have ⟨_, hroomy⟩ := h p
      (hpending p ▸ hroomy).fits
    obtain ⟨t, ht, htake⟩ := State.insert_of_fits x.1 x.2 hfits
    obtain ⟨hkeys, hsame⟩ := State.insert_eq ht
    refine ⟨t, ?_, hsame, fun p => ?_⟩
    · have hroom : s.makeRoom pools (src.sizes x.1 x.2) (src.victims x.1 s) = some s := by
        cases src.victims x.1 s <;> exact if_pos hfits
      rw [hroom, Option.bind_some, ht]
    · obtain ⟨unit, hroomy⟩ := h p
      obtain ⟨range, hrange⟩ := htake p
      have hrest : src.pending t rest p = src.pending s rest p := pending_congr fun y hy => by
        rw [hkeys, mem_cons]
        exact or_iff_right fun heq => hx (expert_ext heq ▸ hy)
      exact ⟨unit, hrest ▸ (hpending p ▸ hroomy).take hrange⟩

theorem run_roomy {experts : List src.Expert} (hnodup : experts.Nodup)
    (h : ∀ p, ∃ unit, Roomy (s.free p) (src.pending s experts p) unit) :
    ∃ t, run (fun s x => src.admitExpert pools x.1 s x.2) s experts = some t ∧
      t.evictions = s.evictions := by
  induction experts generalizing s with
  | nil => exact ⟨s, rfl, rfl⟩
  | cons x rest ih =>
    obtain ⟨hx, hnodup⟩ := nodup_cons.mp hnodup
    obtain ⟨m, hm, hsame, hroomy⟩ := admit_roomy pools hx h
    obtain ⟨t, ht, hrest⟩ := ih hnodup hroomy
    exact ⟨t, run_cons.mpr ⟨m, hm, ht⟩, hrest.trans hsame⟩

variable {pools}

theorem experts_nodup : src.experts.Nodup :=
  (nodup_finRange _).sigma fun _ => nodup_finRange _

/-! ### What the preload does -/

/-- A run loads what its steps load. -/
theorem run_loads {α : Type} {step : State → α → Option State} {new : α → Nat × Nat → Prop}
    (hstep : ∀ s a t, src.Held s → step s a = some t → src.Loads s t (new a)) {as : List α}
    (hs : src.Held s) (h : run step s as = some t) : src.Loads s t fun k => ∃ a ∈ as, new a k := by
  induction as generalizing s with
  | nil =>
    cases h
    exact ⟨hs, le_rfl, fun _ k hk => hk.elim id fun ⟨_, ha, _⟩ => absurd ha not_mem_nil⟩
  | cons a as ih =>
    obtain ⟨m, hm, hrest⟩ := run_cons.mp h
    have hhead := hstep s a m hs hm
    have htail := ih hhead.held hrest
    have hle := hhead.evictions
    have hle' := htail.evictions
    refine ⟨htail.held, hle.trans hle', fun heq k hk => htail.keys (by omega) k ?_⟩
    have hfirst := hhead.keys (by omega) k
    obtain hk | ⟨b, hb, hk⟩ := hk
    · exact .inl (hfirst (.inl hk))
    · obtain rfl | hb := mem_cons.mp hb
      · exact .inl (hfirst (.inr hk))
      · exact .inr ⟨b, hb, hk⟩

theorem applyLocked_loads (s : State) (i : Fin src.layers.length) (t : State) (hs : src.Held s)
    (h : src.applyLocked pools s i = some t) :
    src.Loads s t fun k => ∃ e : Fin src.layers[i].length, k = (i.1, e.1) := by
  unfold applyLocked at h
  split at h
  · have hrun := run_loads (fun s e t hs ht => admit_loads (e := e) hs ht) hs h
    exact ⟨hrun.held, hrun.evictions, fun heq k hk => hrun.keys heq k
      (hk.imp_right fun ⟨e, he⟩ => ⟨e, mem_finRange e, he⟩)⟩
  · cases h

theorem le_roundUp {page : Nat} (hpage : 0 < page) (bytes : Nat) : bytes ≤ roundUp page bytes := by
  have := Nat.lt_div_mul_add (a := bytes + page - 1) hpage
  unfold roundUp
  omega

theorem le_packed {chunkBytes : Nat} (hchunk : 0 < chunkBytes) (sizes : List Nat) (next : Nat) :
    next + sizes.sum ≤ packed chunkBytes sizes next := by
  induction sizes generalizing next with
  | nil => exact le_rfl
  | cons bytes sizes ih =>
    have hstart : next ≤ packStart chunkBytes next bytes := by
      unfold packStart
      split
      · exact (Nat.lt_mul_of_div_lt (Nat.lt_succ_self _) hchunk).le
      · exact le_rfl
    have := ih (packStart chunkBytes next bytes + bytes)
    rw [sum_cons]
    exact le_trans (by omega) this

/-- A full pool has room for the window of every layer. -/
theorem window_le (i : Fin src.layers.length) (p : Fin 3) :
    (src.layers[i].map fun expert => aligned (expert p)).sum ≤ src.bankCapacity p := by
  have hchunk : 0 < src.chunkBytes p :=
    lt_min (Nat.mul_pos (Nat.div_pos src.page_le src.page_pos) src.page_pos)
      (src.page_pos.trans_le (le_max_left _ _))
  have hbank : (src.layers[i].map fun expert => aligned (expert p)) ∈ src.banks p :=
    mem_map_of_mem (getElem_mem i.2)
  obtain ⟨front, back, hsplit⟩ := append_of_mem hbank
  calc _ ≤ (src.banks p).flatten.sum := by
        rw [hsplit, flatten_append, flatten_cons, sum_append, sum_append]
        omega
    _ ≤ packed (src.chunkBytes p) (src.banks p).flatten 0 := by
      simpa using le_packed hchunk (src.banks p).flatten 0
    _ ≤ src.bankCapacity p := le_roundUp src.page_pos _

/-- At a full budget the pools get their full capacities. -/
theorem full_pools {share : Nat → Nat → Nat → Nat} {budget : Nat} {capacities : Fin 3 → Nat}
    (hbudget : src.metadata + total src.bankCapacity ≤ budget)
    (hcap : src.poolCapacities share budget = some capacities) (p : Fin 3) :
    (src.pools capacities p).capacity = src.bankCapacity p := by
  have hfull : capacities = src.bankCapacity := by
    dsimp only [poolCapacities] at hcap
    rw [if_pos (show total src.bankCapacity ≤ budget - src.metadata by omega)] at hcap
    split_ifs at hcap
    exact (Option.some.inj hcap).symm
  rw [hfull]
  exact congrArg (· * src.page) (Nat.mul_div_cancel _ src.page_pos)

/-- A full budget completes the cache, and nothing is evicted, when in each pool there is room for
the experts still to load. -/
theorem full_budget_completes (src : Source) (share : Nat → Nat → Nat → Nat) (budget : Nat)
    (hbudget : src.metadata + total src.bankCapacity ≤ budget) (capacities : Fin 3 → Nat)
    (hcap : src.poolCapacities share budget = some capacities) (s : State) (hs : src.Held s)
    (hroomy : ∀ p, ∃ unit, Roomy (s.free p) (src.pending s src.experts p) unit) :
    src.Complete s (src.preloadComplete (src.pools capacities) s) := by
  have hfull := full_pools hbudget hcap
  have hlayer : src.applyLocked (src.pools capacities) = fun s i =>
      run (src.admitExpert (src.pools capacities) i) s (List.finRange src.layers[i].length) := by
    funext s i
    exact if_pos fun p => (hfull p).symm ▸ window_le i p
  obtain ⟨t, ht, hsame⟩ := run_roomy (src.pools capacities) experts_nodup hroomy
  replace ht : run (src.applyLocked (src.pools capacities)) s
      (List.finRange src.layers.length) = some t := by
    simpa only [experts, run_flatMap, run_map, hlayer] using ht
  rw [preloadComplete, if_neg (by simp [hfull])]
  have h := run_loads applyLocked_loads hs ht
  exact ⟨t, ht, fun i => h.held.cached fun e => h.keys hsame _
    (.inr ⟨i, mem_finRange i, e, rfl⟩), hsame⟩

end Source

/-- Two layers of two experts, all three projections alike. -/
def sample (first second : Nat) : Source where
  layers := [first, second].map fun bytes => List.replicate 2 fun _ => bytes
  metadata := 64
  page := 4096
  maxBufferLength := 2 ^ 33
  layers_ne := by simp
  page_pos := by decide
  page_le := by decide

/-- Two experts of two pages and two of three, in two chunks of six. -/
theorem full_budget_completes_growing :
    (sample 8192 12288).Complete
      (.fresh ((sample 8192 12288).pools (sample 8192 12288).bankCapacity))
      ((sample 8192 12288).preloadComplete
        ((sample 8192 12288).pools (sample 8192 12288).bankCapacity)
        (.fresh ((sample 8192 12288).pools (sample 8192 12288).bankCapacity))) :=
  Source.full_budget_completes (sample 8192 12288) (fun _ _ _ => 0) 147520 (by decide +kernel) _ rfl
    _ Source.held_fresh fun p => ⟨4096, by revert p; decide +kernel⟩

/-- Two experts of three pages and two of two: the first goes to the short last chunk, and the last
finds no range although its layer would fit. -/
theorem full_budget_evicts :
    (sample 12288 8192).metadata + total (sample 12288 8192).bankCapacity = 122944 ∧
      ¬(sample 12288 8192).Complete
        (.fresh ((sample 12288 8192).pools (sample 12288 8192).bankCapacity))
        ((sample 12288 8192).construct (fun _ _ _ => 0) 122944) := by
  decide +kernel

end

end TyloQuant.TqExpertCache
