import TyloQuant.NintRowPipeline.Gather

/-!
# What a gather returns

In the cache the keys of a source stand for its rows.  A gather keeps that; it returns a batch and
places in it, at which the kernel decodes the rows asked for, and it throws only for an id that is
out of range, for a row that cannot be read, or for too many bytes.
-/

namespace TyloQuant.NintRowPipeline

open Lib List

namespace Source

variable {p : Source} {c : NintRowCache} {ids : List Int} {n m shard : Nat}

/-! ### Ids -/

theorem rows_pos : 0 < p.rows := (p.opened p.front mem_cons_self).rows_pos

theorem mem_tables (p : Source) (shard : Nat) : p.tables.getD shard p.front ∈ p.tables := by
  rw [getD_eq_getElem?_getD]
  cases h : p.tables[shard]? with
  | none => exact mem_cons_self
  | some t => exact mem_of_getElem? h

theorem table_opened (p : Source) (shard : Nat) : (p.tables.getD shard p.front).Opened :=
  p.opened _ (p.mem_tables shard)

theorem table_same (p : Source) (shard : Nat) :
    (p.tables.getD shard p.front).rows = p.rows ∧ (p.tables.getD shard p.front).width = p.width := by
  rcases mem_cons.mp (p.mem_tables shard) with h | h
  · rw [h]
    exact ⟨rfl, rfl⟩
  · exact p.same _ h

theorem item_opened (p : Source) (n : Nat) :
    (p.item n).1.Opened ∧ (p.item n).2 < (p.item n).1.rows ∧ (p.item n).1.width = p.width := by
  refine ⟨p.table_opened _, ?_, (p.table_same _).2⟩
  rw [item, (p.table_same _).1]
  exact Nat.mod_lt _ rows_pos

variable {row : Nat}

theorem logical (p : Source) (shard : Nat) (hrow : row < p.rows) :
    p.shard (shard * p.rows + row) = shard ∧ (shard * p.rows + row) % p.rows = row := by
  rw [Source.shard, Nat.mul_comm, Nat.mul_add_mod, Nat.mod_eq_of_lt hrow,
    Nat.mul_add_div rows_pos, Nat.div_eq_of_lt hrow]
  exact ⟨rfl, rfl⟩

theorem shard_row (p : Source) (n : Nat) : p.shard n * p.rows + n % p.rows = n :=
  Nat.div_add_mod' n p.rows

theorem cacheKey_inj (hn : p.shard n < p.tables.length) (hm : p.shard m < p.tables.length)
    (h : cacheKey p.sourceId n = cacheKey p.sourceId m) : n = m := by
  have hlt : ∀ {k}, p.shard k < p.tables.length → k < 2 ^ 32 := by
    intro k hk
    have hmul : k < p.tables.length * p.rows := (Nat.div_lt_iff_lt_mul rows_pos).mp hk
    have hkeys : p.rows * p.tables.length ≤ uint32Max := p.keys
    rw [Nat.mul_comm] at hmul
    exact (hmul.trans_le hkeys).trans (by decide)
  rw [cacheKey_eq, cacheKey_eq, Nat.mod_eq_of_lt (hlt hn), Nat.mod_eq_of_lt (hlt hm)] at h
  omega

/-! ### The cache -/

/-- A batch of the one row of an id. -/
def Single (p : Source) (n : Nat) (value : NintRowBatch) : Prop :=
  Carries value [p.item n] ∧ value.width = p.width

/-- The keys of the source stand for its rows. -/
def CacheOk (p : Source) (c : NintRowCache) : Prop :=
  ∀ e ∈ c.entries, ∀ n, p.shard n < p.tables.length → e.1 = cacheKey p.sourceId n → p.Single n e.2

theorem CacheOk.find (h : p.CacheOk c) (key : Nat) : p.CacheOk (c.find key).2 :=
  fun e he => h e (NintRowCache.mem_find he)

theorem CacheOk.insert (h : p.CacheOk c) {key : Nat} {value : NintRowBatch}
    (hvalue : ∀ n, p.shard n < p.tables.length → key = cacheKey p.sourceId n → p.Single n value) :
    p.CacheOk (c.insert key value) := by
  intro e he
  rcases NintRowCache.mem_insert he with rfl | hmem
  · exact hvalue
  · exact h e hmem

theorem CacheOk.foreign (h : p.CacheOk c) (op : ForeignOp p.sourceId) : p.CacheOk (op.run c) := by
  rw [ForeignOp.run]
  split
  · exact h.find _
  · refine h.insert fun n _ hkey => absurd ?_ op.foreign
    rw [cacheKey_eq, cacheKey_eq] at hkey
    have hlow := Nat.mod_lt op.id (show 0 < 2 ^ 32 by decide)
    have hlow' := Nat.mod_lt n (show 0 < 2 ^ 32 by decide)
    omega

theorem CacheOk.foreigns (h : p.CacheOk c) (ops : List (ForeignOp p.sourceId)) :
    p.CacheOk (ops.foldl ForeignOp.run c) := by
  induction ops generalizing c with
  | nil => exact h
  | cons op ops ih => exact ih (h.foreign op)

/-! ### Faults -/

/-- The different ids, in some order. -/
def wanted (ids : List Int) : List Nat := (ids.map Int.toNat).dedup

/-- Why gathering these ids may fail, when some rows cannot be read. -/
def Fault (p : Source) (unreadable : Nat → Bool) (ids : List Int) : Error → Prop
  | .rowId id => id ∈ ids ∧ ¬p.InRange id
  | .read n => (n : Int) ∈ ids ∧ unreadable n = true
  | .anchors n => (n : Int) ∈ ids ∧ (p.item n).1.Unanchored (p.item n).2
  | .exceedsBounds => TooMany p.width ((wanted ids).map p.item)
  | .batchSize => TooMany p.width ((wanted ids).map p.item)
  | _ => False

theorem tooMany_perm {xs ys : List (NintRows × Nat)} {width : Nat} (h : xs.Perm ys)
    (hmany : TooMany width xs) : TooMany width ys := by
  rw [TooMany, ← h.length_eq, ← (h.map rowBytes).sum_eq]
  exact hmany

/-! ### Looking up -/

/-- What the lookups have found for the ids so far. -/
structure Looked (p : Source) (done : List Int) (s : Selection) : Prop where
  cache : p.CacheOk s.1
  nodup : (s.2.map Prod.fst).Nodup
  inRange : ∀ id ∈ done, p.InRange id
  mem : ∀ n, n ∈ s.2.map Prod.fst ↔ (n : Int) ∈ done
  found : ∀ e ∈ s.2, ∀ value, e.2 = some value → p.Single e.1 value

namespace Looked

variable {s : Selection}

theorem shard_lt (h : p.Looked ids s) (hn : n ∈ s.2.map Prod.fst) : p.shard n < p.tables.length :=
  (h.inRange n ((h.mem n).mp hn)).2

theorem perm (h : p.Looked ids s) : (s.2.map Prod.fst).Perm (wanted ids) := by
  refine (perm_ext_iff_of_nodup h.nodup (nodup_dedup _)).mpr fun n => ?_
  rw [h.mem, mem_dedup, mem_map]
  constructor
  · intro hn
    exact ⟨n, hn, Int.toNat_natCast n⟩
  · rintro ⟨id, hid, rfl⟩
    rwa [Int.toNat_of_nonneg (h.inRange id hid).1]

end Looked

theorem lookUp_loop (at' : Conditions p.sourceId) (hc : p.CacheOk c) :
    Obeys (p.Looked ids) (fun e => p.Fault at'.unreadable ids e.1 ∧ p.CacheOk e.2)
      (ids.foldlM (p.lookUp at') (c, [])) := by
  refine Obeys.foldlM (fun done id rest s hsplit hs => ?_)
    ⟨hc, nodup_nil, by simp, by simp, by simp⟩
  have hmem : id ∈ ids := by
    rw [hsplit]
    simp
  refine Obeys.guard (fun hrange => ⟨⟨hmem, hrange⟩, hs.cache⟩) fun hrange => ?_
  rw [not_not] at hrange
  have hnat : ((id.toNat : Nat) : Int) = id := Int.toNat_of_nonneg hrange.1
  have hall : ∀ other ∈ done ++ [id], p.InRange other :=
    forall_mem_append.mpr ⟨hs.inRange, forall_mem_singleton.mpr hrange⟩
  by_cases hold : id.toNat ∈ s.2.map Prod.fst
  · rw [if_pos hold]
    refine ⟨hs.cache, hs.nodup, hall, fun n => ?_, hs.found⟩
    rw [hs.mem, mem_append, mem_singleton]
    constructor
    · exact Or.inl
    · rintro (hn | hn)
      · exact hn
      · rw [hn, ← hnat]
        exact (hs.mem _).mp hold
  · rw [if_neg hold]
    have hcache := hs.cache.foreigns (at'.beforeFind id.toNat)
    refine ⟨hcache.find _, ?_, hall, fun n => ?_, ?_⟩
    · rw [map_append, map_singleton]
      exact hs.nodup.append (nodup_singleton _)
        (disjoint_singleton.mpr hold)
    · rw [map_append, mem_append, hs.mem, mem_append, map_singleton,
        mem_singleton, mem_singleton, ← hnat]
      simp only [Int.toNat_natCast, Nat.cast_inj]
    · intro e he value hvalue
      rcases mem_append.mp he with hdone | hlast
      · exact hs.found e hdone value hvalue
      · obtain rfl := mem_singleton.mp hlast
        exact hcache _ (NintRowCache.find_some hvalue) _ hrange.2 rfl

/-! ### Reading -/

variable {fetched : List NintRowBatch}

section Reading

variable {sel : List (Nat × Option NintRowBatch)}

theorem mem_misses :
    row ∈ p.misses sel shard ↔ ∃ n, (n, none) ∈ sel ∧ p.shard n = shard ∧ n % p.rows = row := by
  simp only [misses, mem_map, mem_filter, decide_eq_true_eq]
  constructor
  · rintro ⟨_, ⟨⟨n, value⟩, ⟨he, hnone, hshard⟩, rfl⟩, rfl⟩
    obtain rfl : value = none := Option.isNone_iff_eq_none.mp hnone
    exact ⟨n, he, hshard, rfl⟩
  · rintro ⟨n, he, hshard, rfl⟩
    exact ⟨n, ⟨(n, none), ⟨he, rfl, hshard⟩, rfl⟩, rfl⟩

theorem misses_lt (h : row ∈ p.misses sel shard) : row < p.rows := by
  obtain ⟨n, -, -, rfl⟩ := mem_misses.mp h
  exact Nat.mod_lt _ rows_pos

/-- The rows that a table is asked for are rows of the ids. -/
theorem misses_sublist :
    ((p.tables.getD shard p.front).items (p.misses sel shard)).Sublist
      ((sel.map Prod.fst).map p.item) := by
  have hitems : (p.tables.getD shard p.front).items (p.misses sel shard) =
      ((sel.filter fun e => e.2.isNone ∧ p.shard e.1 = shard).map Prod.fst).map p.item := by
    rw [NintRows.items, misses, map_map]
    refine map_congr_left fun n hn => ?_
    obtain ⟨e, he, rfl⟩ := mem_map.mp hn
    have hshard := (of_decide_eq_true (mem_filter.mp he).2).2
    rw [item, hshard]
    rfl
  rw [hitems]
  exact (filter_sublist.map _).map _

theorem Looked.tooMany {s : Selection} (h : p.Looked ids s) {items : List (NintRows × Nat)}
    (hsub : items.Sublist ((s.2.map Prod.fst).map p.item)) (hmany : TooMany p.width items) :
    TooMany p.width ((wanted ids).map p.item) :=
  tooMany_perm (h.perm.map _) (hmany.of_sublist hsub)

/-- The batches of the tables read so far. -/
def FetchedOk (p : Source) (sel : List (Nat × Option NintRowBatch)) (shards : List Nat)
    (fetched : List NintRowBatch) : Prop :=
  List.Forall₂ (fun shard b => (p.tables.getD shard p.front).Filled (p.misses sel shard) b)
    shards fetched

theorem fetch_loop {s : Selection} (h : p.Looked ids s) (at' : Conditions p.sourceId) :
    Obeys (p.FetchedOk s.2 (List.range p.tables.length)) (p.Fault at'.unreadable ids)
      ((List.range p.tables.length).foldlM (p.fetch at' s.2) []) := by
  refine Obeys.foldlM (fun done shard rest fetched _ hfetched => ?_) .nil
  have hrows : ∀ row ∈ p.misses s.2 shard, row < (p.tables.getD shard p.front).rows := by
    intro row hrow
    rw [(p.table_same shard).1]
    exact misses_lt hrow
  have hread := @NintRows.appendRows_obeys _ (fun row => at'.unreadable (shard * p.rows + row)) _
    (p.table_opened shard) hrows
  refine (hread.mapError fun e he =>
    (?_ : p.Fault at'.unreadable ids (p.ofRowError shard e))).bind fun b hb => ?_
  · have hid : ∀ row ∈ p.misses s.2 shard, ((shard * p.rows + row : Nat) : Int) ∈ ids ∧
        p.item (shard * p.rows + row) = (p.tables.getD shard p.front, row) := by
      intro row hrow
      obtain ⟨hshard, hlocal⟩ := p.logical shard (misses_lt hrow)
      refine ⟨?_, by rw [item, hshard, hlocal]⟩
      obtain ⟨n, hn, rfl, rfl⟩ := mem_misses.mp hrow
      rw [p.shard_row]
      exact (h.mem n).mp (mem_map_of_mem hn)
    cases e with
    | read row => exact ⟨(hid row he.1).1, he.2⟩
    | anchors row =>
      obtain ⟨hids, hitem⟩ := hid row he.1
      refine ⟨hids, ?_⟩
      rw [hitem]
      exact he.2
    | exceedsBounds =>
      have hmany : TooMany p.width ((p.tables.getD shard p.front).items (p.misses s.2 shard)) := by
        rw [← (p.table_same shard).2]
        exact he
      exact h.tooMany misses_sublist hmany
    | _ => exact False.elim he
  · exact rel_append hfetched (.cons hb .nil)

theorem mem_fetchedRows (h : p.FetchedOk sel (List.range p.tables.length) fetched) {row : Fetched}
    (hrow : row ∈ p.fetchedRows sel fetched) :
    p.shard row.1 < p.tables.length ∧ row.2.1.width = p.width ∧
      ∃ d, row.2.1.descriptors[row.2.2]? = some d ∧
        Holds row.2.1.packed d (p.item row.1).1 (p.item row.1).2 := by
  obtain ⟨⟨b, shard⟩, hb, hrow⟩ := mem_flatMap.mp hrow
  obtain ⟨⟨place, i⟩, hplace, rfl⟩ := mem_map.mp hrow
  have hmiss := mem_zipIdx_iff_getElem?.mp hplace
  have hbatch := mem_zipIdx_iff_getElem?.mp hb
  simp only at hmiss hbatch
  obtain ⟨hi, hget⟩ := List.getElem?_eq_some_iff.mp hmiss
  obtain ⟨hshardLt, hbGet⟩ := List.getElem?_eq_some_iff.mp hbatch
  have hlength : fetched.length = p.tables.length := by
    rw [← h.length_eq, List.length_range]
  obtain ⟨hshard, hlocal⟩ := p.logical shard
    (misses_lt (mem_of_getElem? hmiss))
  have hfilled := h.get (show shard < (List.range p.tables.length).length by simp; omega) hshardLt
  simp only [get_eq_getElem, getElem_range, hbGet] at hfilled
  obtain ⟨hcarries, -, hwidth⟩ := hfilled
  have hne : p.misses sel shard ≠ [] := ne_nil_of_mem (mem_of_getElem? hmiss)
  refine ⟨by rw [hshard]; omega, (hwidth hne).trans (p.table_same shard).2, ?_⟩
  have hlt : i < ((p.tables.getD shard p.front).items (p.misses sel shard)).length := by
    rw [NintRows.items, length_map]
    exact hi
  obtain ⟨d, hd, hholds⟩ := hcarries.at_index hlt
  refine ⟨d, hd, ?_⟩
  simp only [NintRows.items, getElem_map, hget] at hholds
  rw [item, hshard, hlocal]
  exact hholds

theorem fetchedRows_complete (h : p.FetchedOk sel (List.range p.tables.length) fetched)
    (hn : (n, none) ∈ sel) (hrange : p.shard n < p.tables.length) :
    n ∈ (p.fetchedRows sel fetched).map Prod.fst := by
  have hmiss : n % p.rows ∈ p.misses sel (p.shard n) := mem_misses.mpr ⟨n, hn, rfl, rfl⟩
  obtain ⟨i, hi⟩ := getElem?_of_mem hmiss
  have hlength : p.shard n < fetched.length := by
    rw [← h.length_eq, List.length_range]
    exact hrange
  refine mem_map.mpr ⟨(n, fetched[p.shard n], i), ?_, rfl⟩
  refine mem_flatMap.mpr ⟨(fetched[p.shard n], p.shard n), ?_, ?_⟩
  · exact mem_zipIdx_iff_getElem?.mpr (getElem?_eq_getElem hlength)
  · refine mem_map.mpr ⟨(n % p.rows, i), mem_zipIdx_iff_getElem?.mpr hi, ?_⟩
    rw [p.shard_row]

end Reading

/-! ### Publishing -/

/-- The selection when some rows are published. -/
structure Published (p : Source) (sel : List (Nat × Option NintRowBatch)) (done : List Fetched)
    (s : Selection) : Prop where
  cache : p.CacheOk s.1
  ids : s.2.map Prod.fst = sel.map Prod.fst
  entries : ∀ e ∈ s.2, (∃ value, e.2 = some value ∧ p.Single e.1 value) ∨
    (e.1, none) ∈ sel ∧ e.1 ∉ done.map Prod.fst

theorem publish_loop {s : Selection} (h : p.Looked ids s) (at' : Conditions p.sourceId)
    (hf : p.FetchedOk s.2 (List.range p.tables.length) fetched) :
    Obeys (p.Published s.2 (p.fetchedRows s.2 fetched))
      (fun e => p.Fault at'.unreadable ids e.1 ∧ p.CacheOk e.2)
      ((p.fetchedRows s.2 fetched).foldlM (p.publish at') s) := by
  refine Obeys.foldlM (fun done row rest sNow hsplit hNow => ?_) ⟨h.cache, rfl, fun e he => ?_⟩
  · have hmem : row ∈ p.fetchedRows s.2 fetched := by
      rw [hsplit]
      simp
    obtain ⟨hrange, hwidth, d, hd, hholds⟩ := mem_fetchedRows hf hmem
    obtain ⟨hopened, hlocal, hsame⟩ := p.item_opened row.1
    have hcopy := NintRowBatch.copyRow_obeys hopened hlocal hd hholds
      (hwidth.trans hsame.symm)
    refine (hcopy.mapError fun e he =>
      (?_ : p.Fault at'.unreadable ids (p.ofRowError (p.shard row.1) e) ∧ p.CacheOk sNow.1)).bind ?_
    · obtain ⟨he, hmany⟩ := he
      have hone : [p.item row.1].Sublist ((s.2.map Prod.fst).map p.item) := by
        refine singleton_sublist.mpr (mem_map_of_mem ?_)
        obtain ⟨⟨b, shard⟩, hb, hrow⟩ := mem_flatMap.mp hmem
        obtain ⟨⟨place, i⟩, hplace, rfl⟩ := mem_map.mp hrow
        have hplaceMem := mem_of_getElem? (mem_zipIdx_iff_getElem?.mp hplace)
        obtain ⟨m, hm, rfl, rfl⟩ := mem_misses.mp hplaceMem
        rw [p.shard_row]
        exact mem_map_of_mem hm
      rw [hsame] at hmany
      have hfault := h.tooMany hone hmany
      rcases he with rfl | rfl
      · exact ⟨hfault, hNow.cache⟩
      · exact ⟨hfault, hNow.cache⟩
    · rintro value ⟨hcarries, hvalueWidth⟩
      have hsingle : p.Single row.1 value := ⟨hcarries, hvalueWidth.trans hsame⟩
      refine ⟨?_, ?_, ?_⟩
      · refine (hNow.cache.foreigns _).insert fun n hn hkey => ?_
        rw [← cacheKey_inj hrange hn hkey]
        exact hsingle
      · rw [← hNow.ids, map_map]
        refine map_congr_left fun e _ => ?_
        change (if e.1 = row.1 then (e.1, some value) else e).1 = e.1
        split <;> rfl
      · intro e he
        obtain ⟨e', he', rfl⟩ := mem_map.mp he
        by_cases heq : e'.1 = row.1
        · rw [if_pos heq]
          exact Or.inl ⟨value, rfl, heq ▸ hsingle⟩
        · rw [if_neg heq]
          refine (hNow.entries e' he').imp id fun hnone => ⟨hnone.1, ?_⟩
          rw [map_append, mem_append, map_singleton, mem_singleton]
          exact not_or.mpr ⟨hnone.2, heq⟩
  · obtain ⟨n, value⟩ := e
    cases value with
    | none => exact Or.inr ⟨he, not_mem_nil⟩
    | some value => exact Or.inl ⟨value, rfl, h.found _ he value rfl⟩

/-! ### Joining -/

/-- The rows joined so far, with their places. -/
structure Joined (p : Source) (done : List (Nat × Option NintRowBatch))
    (s : NintRowBatch × List (Nat × Nat)) : Prop where
  carries : Carries s.1 (done.map fun e => p.item e.1)
  width : s.1.width = 0 ∨ s.1.width = p.width
  places : s.2 = (done.map Prod.fst).zipIdx

variable {sorted : List (Nat × Option NintRowBatch)} {unreadable : Nat → Bool}

theorem join_loop {s : Selection} (h : p.Looked ids s)
    (hperm : (sorted.map Prod.fst).Perm (s.2.map Prod.fst))
    (hsorted : ∀ e ∈ sorted, ∃ value, e.2 = some value ∧ p.Single e.1 value) :
    Obeys (p.Joined sorted) (p.Fault unreadable ids) (sorted.foldlM p.join ({}, [])) := by
  refine Obeys.foldlM (fun done e rest sNow hsplit hNow => ?_) ⟨Carries.empty 0, Or.inl rfl, rfl⟩
  obtain ⟨value, hvalue, hcarries, hwidth⟩ := hsorted e (by rw [hsplit]; simp)
  rw [join, hvalue]
  have happend := NintRowBatch.appendBatch_obeys hNow.carries hcarries hNow.width hwidth (by simp)
  refine (happend.mapError fun error herror =>
    (?_ : p.Fault unreadable ids (p.ofRowError (p.shard e.1) error))).bind ?_
  · obtain ⟨he, hmany⟩ := herror
    have hfault : TooMany p.width ((wanted ids).map p.item) := by
      refine tooMany_perm ((hperm.trans h.perm).map p.item) (hmany.of_sublist ?_)
      rw [hsplit, map_append, map_append, map_map, map_cons, map_cons]
      exact (List.Sublist.refl _).append (.cons_cons _ (nil_sublist _))
    rcases he with rfl | rfl
    · exact hfault
    · exact hfault
  · rintro b ⟨hb, hbWidth⟩
    refine ⟨?_, Or.inr hbWidth, ?_⟩
    · rw [map_append]
      exact hb
    · have hlength : sNow.1.descriptors.length = (done.map Prod.fst).length := by
        rw [hNow.carries.length, length_map, length_map]
      rw [hNow.places, hlength, map_append, zipIdx_append]
      simp

theorem locate_loop {names : List Nat} (hnames : ∀ id ∈ ids, id.toNat ∈ names) :
    Obeys (List.Forall₂ (fun (id : Int) (place : Nat) => names[place]? = some id.toNat) ids)
      (p.Fault unreadable ids) (ids.foldlM (locate names.zipIdx) []) := by
  refine Obeys.foldlM (fun done id rest inverse hsplit hNow => ?_) .nil
  have hmem := hnames id (by rw [hsplit]; simp)
  rw [locate]
  split
  next hnone =>
    obtain ⟨i, hi⟩ := getElem?_of_mem hmem
    have hin : (id.toNat, i) ∈ names.zipIdx := mem_zipIdx_iff_getElem?.mpr hi
    have hno := find?_eq_none.mp hnone _ hin
    simp at hno
  next e he =>
    refine rel_append hNow (.cons ?_ .nil)
    have hplace := mem_zipIdx_iff_getElem?.mp (mem_of_find?_eq_some he)
    have hname : e.1 = id.toNat := by simpa using find?_some he
    rw [hplace, hname]

/-! ### The whole gather -/

/-- The batch and the places give the rows that the ids name, and the batch has no others. -/
structure Serves (p : Source) (ids : List Int) (g : Gathered) : Prop where
  rows : List.Forall₂ (fun (id : Int) (place : Nat) => ∃ d, g.batch.descriptors[place]? = some d ∧
    g.batch.decode d p.width = p.row id.toNat) ids g.inverse
  carried : ∃ items, items.Perm ((wanted ids).map p.item) ∧ Carries g.batch items
  width : g.batch.width = 0 ∨ g.batch.width = p.width

theorem Joined.decode {s : NintRowBatch × List (Nat × Nat)} (h : p.Joined sorted s) {place : Nat}
    (hplace : (sorted.map Prod.fst)[place]? = some n) :
    ∃ d, s.1.descriptors[place]? = some d ∧ s.1.decode d p.width = p.row n := by
  obtain ⟨hlt, hget⟩ := List.getElem?_eq_some_iff.mp hplace
  rw [length_map] at hlt
  have hlt' : place < (sorted.map fun e => p.item e.1).length := by
    rw [length_map]
    exact hlt
  obtain ⟨d, hd, hholds⟩ := h.carries.at_index hlt'
  refine ⟨d, hd, ?_⟩
  rw [getElem_map] at hget
  simp only [getElem_map, hget] at hholds
  obtain ⟨hopened, hlocal, hwidth⟩ := p.item_opened n
  rw [← hwidth]
  exact hholds.decode hopened hlocal

/-- **A gather** returns the rows asked for, or throws for one of its own ids. -/
theorem gather_obeys (hc : p.CacheOk c) (at' : Conditions p.sourceId) :
    Obeys (fun r => p.Serves ids r.1 ∧ p.CacheOk r.2)
      (fun e => p.Fault at'.unreadable ids e.1 ∧ p.CacheOk e.2) (p.gather at' c ids) := by
  refine (lookUp_loop at' hc).bind fun looked hlooked => ?_
  refine ((fetch_loop hlooked at').mapError fun e he => ⟨he, hlooked.cache⟩).bind fun fetched hf => ?_
  refine (publish_loop hlooked at' hf).bind fun selected hselected => ?_
  have hfull : ∀ e ∈ selected.2, ∃ value, e.2 = some value ∧ p.Single e.1 value := by
    intro e he
    rcases hselected.entries e he with hsome | ⟨hnone, hmissing⟩
    · exact hsome
    · have hlt := hlooked.shard_lt (mem_map_of_mem (f := Prod.fst) hnone)
      exact absurd (fetchedRows_complete hf hnone hlt) hmissing
  have hperm := mergeSort_perm selected.2 fun e e' => decide (e.1 ≤ e'.1)
  have hids : ((selected.2.mergeSort fun e e' => decide (e.1 ≤ e'.1)).map Prod.fst).Perm
      (looked.2.map Prod.fst) := hselected.ids ▸ hperm.map Prod.fst
  have hjoin := @join_loop p _ _ at'.unreadable _ hlooked hids
    fun e he => hfull e (hperm.mem_iff.mp he)
  refine (hjoin.mapError fun e he => ⟨he, hselected.cache⟩).bind fun joined hjoined => ?_
  have hnames : ∀ id ∈ ids, id.toNat ∈
      (selected.2.mergeSort fun e e' => decide (e.1 ≤ e'.1)).map Prod.fst := by
    intro id hid
    rw [hids.mem_iff, hlooked.mem, Int.toNat_of_nonneg (hlooked.inRange id hid).1]
    exact hid
  have hlocate := @locate_loop p _ at'.unreadable _ hnames
  rw [← hjoined.places] at hlocate
  refine (hlocate.mapError fun e he => ⟨he, hselected.cache⟩).bind fun inverse hinverse => ?_
  refine ⟨⟨hinverse.imp fun id place hplace => hjoined.decode hplace, ⟨_, ?_, hjoined.carries⟩,
    hjoined.width⟩, hselected.cache⟩
  have hperm := (hids.trans hlooked.perm).map p.item
  rw [map_map] at hperm
  exact hperm

end Source

end TyloQuant.NintRowPipeline
