import Mathlib
import TyloQuant.Lib.Packing
import TyloQuant.Shards.Records

/-!
# MFQ shards: which record goes into which shard

`plan_record_shards` assigns a list of records to shards; `StreamingBlobShardWriter.append` does
the same to tensors that come one by one, while it copies them into payload files.  Both keep the
bytes and the number of tensors of the open shard and open a new one before a tensor that would
exceed a limit: the greedy packing of `Lib/Packing.lean`.
-/

namespace TyloQuant.Shards

open Lib List
open Lib.ByteFile

/-- `validate_split_limits`, as the planner and the writer call it. -/
def validateSplitLimits (splitMaxSize splitMaxTensors : Int) : Except ShardError Unit :=
  if splitMaxSize < 0 ∨ splitMaxTensors < 0 then
    .error (.value "MFQ shard limits must be non-negative")
  else if splitMaxSize ≠ 0 ∧ splitMaxTensors ≠ 0 then
    .error (.value "--split-max-size and --split-max-tensors are mutually exclusive")
  else .ok ()

/-! ### Planning a list of records -/

/-- The three lists of `plan_record_shards`. -/
structure Plan where
  shards : List (List BlobRecord) := [[]]
  payloadSizes : List Int := [0]
  tensorCounts : List Nat := [0]

namespace Plan

/-- The index of the open shard. -/
def current (p : Plan) : Nat := p.shards.length - 1

def exceeds (splitMaxSize splitMaxTensors : Int) (p : Plan) (record : BlobRecord) : Bool :=
  let payloadSize := p.payloadSizes.getD p.current 0
  let tensorCount := p.tensorCounts.getD p.current 0
  decide (splitMaxSize ≠ 0) && decide (tensorCount > 0) &&
      decide (payloadSize + record.nbytes > splitMaxSize) ||
    decide (splitMaxTensors ≠ 0) && decide ((tensorCount : Int) ≥ splitMaxTensors)

def openShard (p : Plan) : Plan where
  shards := p.shards ++ [[]]
  payloadSizes := p.payloadSizes ++ [0]
  tensorCounts := p.tensorCounts ++ [0]

def add (p : Plan) (record : BlobRecord) : Plan where
  shards := p.shards.modify p.current (· ++ [record])
  payloadSizes := p.payloadSizes.modify p.current (· + record.nbytes)
  tensorCounts := p.tensorCounts.modify p.current (· + 1)

/-- The body of the loop over the tensors. -/
def step (splitMaxSize splitMaxTensors : Int) (p : Plan) (record : BlobRecord) : Plan :=
  (if p.exceeds splitMaxSize splitMaxTensors record then p.openShard else p).add record

end Plan

/-- `plan_record_shards`. -/
def planRecordShards (records : List BlobRecord) (splitMaxSize splitMaxTensors : Int) :
    Except ShardError (List (List BlobRecord)) := do
  validateSplitLimits splitMaxSize splitMaxTensors
  if splitMaxSize = 0 ∧ splitMaxTensors = 0 then
    return [records]
  else
    let assets := records.filter fun record => isAssetRecord record.name
    let tensors := records.filter fun record => !isAssetRecord record.name
    let plan := tensors.foldl (Plan.step splitMaxSize splitMaxTensors) {}
    return plan.shards.modify 0 (assets ++ ·)

/-! ### Planning tensor by tensor -/

/-- The state of a `StreamingBlobShardWriter`, with the payload files in its workspace. -/
structure Writer where
  splitMaxSize : Int
  splitMaxTensors : Int
  recordShards : List (List BlobRecord) := []
  payloads : List (List UInt8) := []
  payloadSizes : List Int := []
  finished : Bool := false

namespace Writer

/-- `_new_payload`. -/
def newPayload (w : Writer) : Except ShardError Writer :=
  if w.payloads.length + 1 > 99999 then .error (.value "MFQ shard count exceeds 99999")
  else .ok { w with
    recordShards := w.recordShards ++ [[]]
    payloads := w.payloads ++ [[]]
    payloadSizes := w.payloadSizes ++ [0] }

/-- A payload, if there is none. -/
def ensurePayload (w : Writer) : Except ShardError Writer :=
  if w.payloads = [] then w.newPayload else .ok w

/-- The index of the open payload. -/
def current (w : Writer) : Nat := w.payloads.length - 1

def exceeds (w : Writer) (nbytes : Int) : Bool :=
  let records := w.recordShards.getD w.current []
  decide (w.splitMaxSize ≠ 0) && decide (records ≠ []) &&
      decide (w.payloadSizes.getD w.current 0 + nbytes > w.splitMaxSize) ||
    decide (w.splitMaxTensors ≠ 0) && decide ((records.length : Int) ≥ w.splitMaxTensors)

/-- Append the bytes of the record to the open payload file and book them.  When the copy
    throws, the file is cut back to where it was. -/
def store (copy : BlobRecord → Cursor → Except ShardError Cursor) (w : Writer)
    (record : BlobRecord) : Except ShardError Writer :=
  let payload := w.payloads.getD w.current []
  let start := w.payloadSizes.getD w.current 0
  match copy record ⟨payload, payload.length⟩ with
  | .error e => .error e
  | .ok target =>
    if (target.bytes.length : Int) ≠ start + record.nbytes then
      .error (.runtime s!"streamed MFQ blob size mismatch for {record.name}")
    else .ok { w with
      recordShards := w.recordShards.modify w.current (· ++ [record])
      payloads := w.payloads.set w.current target.bytes
      payloadSizes := w.payloadSizes.modify w.current (· + record.nbytes) }

/-- A new payload, if the open one has no room for so many bytes. -/
def makeRoom (w : Writer) (nbytes : Int) : Except ShardError Writer :=
  if w.exceeds nbytes then w.newPayload else .ok w

/-- The part of `append` after its checks. -/
def place (copy : BlobRecord → Cursor → Except ShardError Cursor) (w : Writer)
    (record : BlobRecord) : Except ShardError Writer := do
  let w ← w.ensurePayload
  let w ← w.makeRoom record.nbytes
  w.store copy record

/-- `append`. -/
def append (copy : BlobRecord → Cursor → Except ShardError Cursor) (w : Writer)
    (record : BlobRecord) : Except ShardError Writer :=
  if w.finished then .error (.runtime "streaming MFQ writer is already finalized")
  else if isAssetRecord record.name then
    .error (.value "runtime assets must be passed to finalize()")
  else if record.nbytes < 0 then
    .error (.value s!"negative MFQ blob size for {record.name}: {record.nbytes}")
  else w.place copy record

end Writer

/-! ### The rule -/

/-- The payload bytes of some tensors. -/
def payloadBytes (tensors : List BlobRecord) : Int := (tensors.map BlobRecord.nbytes).sum

/-- The limit rule: these tensors leave no room for one more. -/
def leavesNoRoom (splitMaxSize splitMaxTensors : Int) (tensors : List BlobRecord)
    (record : BlobRecord) : Bool :=
  decide (splitMaxSize ≠ 0) && decide (tensors ≠ []) &&
      decide (payloadBytes tensors + record.nbytes > splitMaxSize) ||
    decide (splitMaxTensors ≠ 0) && decide ((tensors.length : Int) ≥ splitMaxTensors)

variable {size count : Int}

@[simp] theorem payloadBytes_append_one (tensors : List BlobRecord) (record : BlobRecord) :
    payloadBytes (tensors ++ [record]) = payloadBytes tensors + record.nbytes := by
  simp [payloadBytes]

theorem modify_last {α : Type} (xs : List α) (x : α) (f : α → α) :
    (xs ++ [x]).modify xs.length f = xs ++ [f x] := by
  induction xs with
  | nil => rfl
  | cons y xs ih =>
    rw [cons_append, length_cons, modify_succ_cons, ih, cons_append]

theorem modify_sizes (closed : List (List BlobRecord)) (current : List BlobRecord)
    (record : BlobRecord) :
    ((closed ++ [current]).map payloadBytes).modify closed.length (· + record.nbytes)
      = (closed ++ [current ++ [record]]).map payloadBytes := by
  have hlast := modify_last (closed.map payloadBytes) (payloadBytes current) (· + record.nbytes)
  rw [length_map] at hlast
  rw [map_append, map_append, map_singleton, map_singleton, hlast,
    payloadBytes_append_one]

theorem set_last {α : Type} (xs : List α) (x y : α) : (xs ++ [x]).set xs.length y = xs ++ [y] := by
  induction xs with
  | nil => rfl
  | cons z xs ih => rw [cons_append, length_cons, set_cons_succ, ih, cons_append]

theorem getD_last {α : Type} (xs : List α) (x d : α) : (xs ++ [x]).getD xs.length d = x := by
  simp

/-- The planner's lists are those of a packing. -/
structure Plan.Packs (p : Plan) (q : Packing BlobRecord) : Prop where
  shards : p.shards = q.bins
  sizes : p.payloadSizes = q.bins.map payloadBytes
  counts : p.tensorCounts = q.bins.map List.length

namespace Plan.Packs

variable {p : Plan} {q : Packing BlobRecord}

theorem current (h : p.Packs q) : p.current = q.closed.length := by
  unfold Plan.current
  rw [h.shards, Packing.bins, length_append, length_singleton, Nat.add_sub_cancel]

theorem exceeds (h : p.Packs q) (record : BlobRecord) :
    p.exceeds size count record = leavesNoRoom size count q.current record := by
  have hsize : p.payloadSizes.getD p.current 0 = payloadBytes q.current := by
    rw [h.current, h.sizes, Packing.bins, map_append, map_singleton]
    simp
  have hcount : p.tensorCounts.getD p.current 0 = q.current.length := by
    rw [h.current, h.counts, Packing.bins, map_append, map_singleton]
    simp
  unfold Plan.exceeds leavesNoRoom
  dsimp only
  rw [hsize, hcount]
  simp only [gt_iff_lt, length_pos_iff]

theorem openShard (h : p.Packs q) : p.openShard.Packs ⟨q.bins, []⟩ := by
  constructor
  · simp [Plan.openShard, h.shards, Packing.bins]
  · simp [Plan.openShard, h.sizes, Packing.bins, payloadBytes]
  · simp [Plan.openShard, h.counts, Packing.bins]

theorem add (h : p.Packs q) (record : BlobRecord) :
    (p.add record).Packs ⟨q.closed, q.current ++ [record]⟩ := by
  unfold Plan.add
  constructor
  · dsimp only
    rw [h.current, h.shards, Packing.bins, modify_last]
    rfl
  · dsimp only
    rw [h.current, h.sizes, Packing.bins, modify_sizes]
    rfl
  · dsimp only
    rw [h.current, h.counts, Packing.bins, Packing.bins, map_append, map_append]
    have hlast := modify_last (q.closed.map List.length) q.current.length (· + 1)
    rw [length_map] at hlast
    rw [map_singleton, map_singleton, hlast, length_append, length_singleton]

/-- **One tensor** goes where the packing puts it. -/
theorem step (size count : Int) (h : p.Packs q) (record : BlobRecord) :
    (p.step size count record).Packs (q.put (leavesNoRoom size count) record) := by
  unfold Plan.step
  rw [h.exceeds]
  cases hfull : leavesNoRoom size count q.current record with
  | true =>
    rw [if_pos rfl, Packing.put_of_full hfull]
    exact h.openShard.add record
  | false =>
    rw [if_neg (by simp), Packing.put_of_room hfull]
    exact h.add record

theorem foldl (size count : Int) (h : p.Packs q) (tensors : List BlobRecord) :
    (tensors.foldl (Plan.step size count) p).Packs
      (q.putAll (leavesNoRoom size count) tensors) := by
  induction tensors generalizing p q with
  | nil => exact h
  | cons record tensors ih => exact ih (h.step size count record)

end Plan.Packs

/-! ### The writer packs the same way -/

/-- The writer's lists are those of a packing. -/
structure Writer.Packs (w : Writer) (size count : Int) (q : Packing BlobRecord) : Prop where
  shards : w.recordShards = q.bins
  sizes : w.payloadSizes = q.bins.map payloadBytes
  stored : w.payloads.map (fun payload => (payload.length : Int)) = q.bins.map payloadBytes
  maxSize : w.splitMaxSize = size
  maxTensors : w.splitMaxTensors = count
  going : w.finished = false

/-- A writer under these limits to which nothing was appended. -/
def Writer.fresh (splitMaxSize splitMaxTensors : Int) : Writer where
  splitMaxSize := splitMaxSize
  splitMaxTensors := splitMaxTensors

variable {tensors : List BlobRecord}

namespace Writer

variable {w w' : Writer} {q : Packing BlobRecord} {record : BlobRecord}
  {copy : BlobRecord → Cursor → Except ShardError Cursor}

/-- The writer holds a packing, or nothing yet. -/
def Holds (size count : Int) (w : Writer) (q : Packing BlobRecord) : Prop :=
  w.Packs size count q ∨ w = fresh size count ∧ q = {}

theorem Packs.payloads (h : w.Packs size count q) : w.payloads.length = q.bins.length := by
  have hlength := congrArg List.length h.stored
  rwa [length_map, length_map] at hlength

theorem Packs.ne_nil (h : w.Packs size count q) : w.payloads ≠ [] := by
  intro hnil
  have hlength := h.payloads
  rw [hnil, Packing.bins, length_append] at hlength
  simp at hlength

theorem Packs.current (h : w.Packs size count q) : w.current = q.closed.length := by
  unfold Writer.current
  rw [h.payloads, Packing.bins, length_append, length_singleton, Nat.add_sub_cancel]

theorem newPayload_ok (h : w.newPayload = .ok w') : w' = { w with
    recordShards := w.recordShards ++ [[]]
    payloads := w.payloads ++ [[]]
    payloadSizes := w.payloadSizes ++ [0] } := by
  unfold newPayload at h
  exact (Except.ok.inj (guard_eq_ok.mp h).2).symm

theorem ensurePayload_packs (h : Holds size count w q) (hok : w.ensurePayload = .ok w') :
    w'.Packs size count q := by
  rcases h with h | ⟨rfl, rfl⟩
  · unfold ensurePayload at hok
    rw [if_neg h.ne_nil] at hok
    obtain rfl := Except.ok.inj hok
    exact h
  · have hok : (fresh size count).newPayload = .ok w' := hok
    have hnew := newPayload_ok hok
    subst hnew
    exact ⟨rfl, rfl, rfl, rfl, rfl, rfl⟩

theorem Packs.start (h : w.Packs size count q) :
    w.payloadSizes.getD w.current 0 = payloadBytes q.current := by
  rw [h.current, h.sizes, Packing.bins, map_append, map_singleton]
  simp

theorem Packs.exceeds (h : w.Packs size count q) (record : BlobRecord) :
    w.exceeds record.nbytes = leavesNoRoom size count q.current record := by
  have hrecords : w.recordShards.getD w.current [] = q.current := by
    rw [h.current, h.shards, Packing.bins, getD_last]
  unfold Writer.exceeds leavesNoRoom
  dsimp only
  rw [hrecords, h.start, h.maxSize, h.maxTensors]

theorem Packs.newPayload (h : w.Packs size count q)
    (hok : w.newPayload = .ok w') : w'.Packs size count ⟨q.bins, []⟩ := by
  have hnew := newPayload_ok hok
  subst hnew
  constructor
  · simp [h.shards, Packing.bins]
  · simp [h.sizes, Packing.bins, payloadBytes]
  · simp [h.stored, Packing.bins, payloadBytes]
  · exact h.maxSize
  · exact h.maxTensors
  · exact h.going

theorem Packs.store (h : w.Packs size count q)
    (hok : w.store copy record = .ok w') :
    w'.Packs size count ⟨q.closed, q.current ++ [record]⟩ := by
  unfold Writer.store at hok
  dsimp only at hok
  split at hok
  · cases hok
  · rename_i target htarget
    obtain ⟨hsize, hok⟩ := guard_eq_ok.mp hok
    rw [not_not, h.start] at hsize
    obtain rfl := Except.ok.inj hok
    constructor
    · dsimp only
      rw [h.current, h.shards, Packing.bins, modify_last]
      rfl
    · dsimp only
      rw [h.current, h.sizes, Packing.bins, modify_sizes]
      rfl
    · have hset := set_last (q.closed.map payloadBytes) (payloadBytes q.current)
        (payloadBytes q.current + record.nbytes)
      rw [length_map] at hset
      rw [map_set, h.stored, h.current, hsize, Packing.bins, map_append,
        map_singleton, hset, Packing.bins, map_append, map_singleton,
        payloadBytes_append_one]
    · exact h.maxSize
    · exact h.maxTensors
    · exact h.going

/-- **One tensor** goes where the packing puts it. -/
theorem append_packs (h : Holds size count w q) (hok : w.append copy record = .ok w') :
    w'.Packs size count (q.put (leavesNoRoom size count) record) := by
  unfold Writer.append at hok
  obtain ⟨-, hok⟩ := guard_eq_ok.mp hok
  obtain ⟨-, hok⟩ := guard_eq_ok.mp hok
  obtain ⟨-, hok⟩ := guard_eq_ok.mp hok
  obtain ⟨w₁, hensure, hok⟩ := bind_eq_ok.mp hok
  obtain ⟨w₂, hnew, hstore⟩ := bind_eq_ok.mp hok
  have hpacks := ensurePayload_packs h hensure
  unfold makeRoom at hnew
  rw [hpacks.exceeds] at hnew
  cases hfull : leavesNoRoom size count q.current record with
  | true =>
    rw [hfull, if_pos rfl] at hnew
    rw [Packing.put_of_full hfull]
    exact (hpacks.newPayload hnew).store hstore
  | false =>
    rw [hfull, if_neg (by simp)] at hnew
    obtain rfl := Except.ok.inj hnew
    rw [Packing.put_of_room hfull]
    exact hpacks.store hstore

theorem foldlM_holds (h : Holds size count w q)
    (hok : tensors.foldlM (Writer.append copy) w = .ok w') :
    Holds size count w' (q.putAll (leavesNoRoom size count) tensors) := by
  induction tensors generalizing w q with
  | nil =>
    obtain rfl := pure_eq_ok.mp hok
    exact h
  | cons record tensors ih =>
    rw [foldlM_cons] at hok
    obtain ⟨w₁, happend, hrest⟩ := bind_eq_ok.mp hok
    exact ih (Or.inl (append_packs h happend)) hrest

/-- A copy that succeeds on these tensors at the end of a file and adds the bytes each of them
    names. -/
def Copies (copy : BlobRecord → Cursor → Except ShardError Cursor) (tensors : List BlobRecord) :
    Prop :=
  ∀ record ∈ tensors, ∀ payload : List UInt8, ∃ target,
    copy record ⟨payload, payload.length⟩ = .ok target ∧
      (target.bytes.length : Int) = payload.length + record.nbytes

theorem newPayload_returns (h : w.payloads.length < 99999) : ∃ w', w.newPayload = .ok w' := by
  unfold newPayload
  rw [if_neg (by omega)]
  exact ⟨_, rfl⟩

theorem Packs.store_returns (h : w.Packs size count q)
    (hcopy : Copies copy [record]) : ∃ w', w.store copy record = .ok w' := by
  have hpayload : ((w.payloads.getD w.current []).length : Int) = payloadBytes q.current := by
    have hlast : w.payloads.map (fun payload => (payload.length : Int)) =
        q.closed.map payloadBytes ++ [payloadBytes q.current] := by
      rw [h.stored, Packing.bins, map_append, map_singleton]
    have hget := congrArg (fun sizes => sizes.getD w.current 0) hlast
    rw [h.current] at hget ⊢
    have hlength : q.closed.length < w.payloads.length := by
      rw [h.payloads, Packing.bins, length_append, length_singleton]
      exact Nat.lt_succ_self _
    simpa [hlength] using hget
  obtain ⟨target, htarget, hbytes⟩ := hcopy record mem_cons_self
    (w.payloads.getD w.current [])
  have hsize : (target.bytes.length : Int) = w.payloadSizes.getD w.current 0 + record.nbytes := by
    rw [h.start, hbytes]
    exact congrArg (· + record.nbytes) hpayload
  unfold Writer.store
  dsimp only
  rw [htarget]
  dsimp only
  rw [if_neg (not_not_intro hsize)]
  exact ⟨_, rfl⟩

theorem ensurePayload_returns (h : Holds size count w q) : ∃ w', w.ensurePayload = .ok w' := by
  rcases h with h | ⟨rfl, -⟩
  · unfold ensurePayload
    rw [if_neg h.ne_nil]
    exact ⟨w, rfl⟩
  · have hnone : (fresh size count).payloads.length < 99999 := Nat.succ_pos _
    exact newPayload_returns hnone

theorem append_returns (h : Holds size count w q) (hasset : isAssetRecord record.name = false)
    (hnbytes : 0 ≤ record.nbytes) (hcopy : Copies copy [record])
    (hbins : (q.put (leavesNoRoom size count) record).bins.length ≤ 99999) :
    ∃ w', w.append copy record = .ok w' := by
  obtain ⟨w₁, hensure⟩ := ensurePayload_returns h
  have hpacks := ensurePayload_packs h hensure
  have hgoing : w.finished = false := by
    rcases h with h | ⟨rfl, -⟩
    · exact h.going
    · rfl
  have hroom : ∃ w₂, w₁.makeRoom record.nbytes = .ok w₂ := by
    unfold makeRoom
    rw [hpacks.exceeds]
    cases hfull : leavesNoRoom size count q.current record with
    | true =>
      rw [if_pos rfl]
      apply newPayload_returns
      rw [Packing.put_of_full hfull, Packing.bins, length_append,
        length_singleton] at hbins
      rw [hpacks.payloads]
      exact hbins
    | false => exact ⟨w₁, if_neg (by simp)⟩
  obtain ⟨w₂, hroom⟩ := hroom
  have hstored : ∃ q', w₂.Packs size count q' := by
    unfold makeRoom at hroom
    split at hroom
    · exact ⟨_, hpacks.newPayload hroom⟩
    · obtain rfl := Except.ok.inj hroom
      exact ⟨q, hpacks⟩
  obtain ⟨q', hstored⟩ := hstored
  obtain ⟨w₃, hstore⟩ := hstored.store_returns hcopy
  refine ⟨w₃, ?_⟩
  unfold Writer.append
  rw [hgoing, hasset, if_neg (by simp), if_neg (by simp), if_neg (by omega)]
  exact bind_eq_ok.mpr ⟨w₁, hensure, bind_eq_ok.mpr ⟨w₂, hroom, hstore⟩⟩

theorem foldlM_returns (h : Holds size count w q)
    (htensors : ∀ record ∈ tensors, isAssetRecord record.name = false ∧ 0 ≤ record.nbytes)
    (hcopy : Copies copy tensors)
    (hbins : (q.putAll (leavesNoRoom size count) tensors).bins.length ≤ 99999) :
    ∃ w', tensors.foldlM (Writer.append copy) w = .ok w' := by
  induction tensors generalizing w q with
  | nil => exact ⟨w, rfl⟩
  | cons record tensors ih =>
    obtain ⟨hasset, hnbytes⟩ := htensors record mem_cons_self
    have hrest : (q.put (leavesNoRoom size count) record).bins.length ≤ 99999 :=
      (Packing.length_putAll _ tensors).trans hbins
    have hone : Copies copy [record] := by
      intro r hr
      obtain rfl := mem_singleton.mp hr
      exact hcopy r mem_cons_self
    obtain ⟨w₁, happend⟩ := append_returns h hasset hnbytes hone hrest
    obtain ⟨w', hw'⟩ := ih (Or.inl (append_packs h happend))
      (fun r hr => htensors r (mem_cons_of_mem _ hr))
      (fun r hr => hcopy r (mem_cons_of_mem _ hr)) hbins
    refine ⟨w', ?_⟩
    rw [foldlM_cons]
    exact bind_eq_ok.mpr ⟨w₁, happend, hw'⟩

end Writer

/-! ### The plan -/

/-- One limit is set. -/
def SingleLimit (size count : Int) : Prop := 0 < size ∧ count = 0 ∨ size = 0 ∧ 0 < count

instance : Decidable (SingleLimit size count) := inferInstanceAs (Decidable (_ ∨ _))

def withinLimits (size count : Int) (tensors : List BlobRecord) : Prop :=
  (0 < size → payloadBytes tensors ≤ size ∨ tensors.length = 1) ∧
    (0 < count → (tensors.length : Int) ≤ count)

theorem withinLimits_nil : withinLimits size count [] := by
  constructor
  · intro hsize
    left
    simpa [payloadBytes] using Int.le_of_lt hsize
  · intro hcount
    simpa using Int.le_of_lt hcount

theorem withinLimits_append {record : BlobRecord}
    (h : leavesNoRoom size count tensors record = false) :
    withinLimits size count (tensors ++ [record]) := by
  unfold leavesNoRoom at h
  simp only [Bool.or_eq_false_iff, Bool.and_eq_false_iff, decide_eq_false_iff_not, not_not,
    gt_iff_lt, ge_iff_le] at h
  obtain ⟨hsize, hcount⟩ := h
  constructor
  · intro hpos
    rcases hsize with (hzero | hnil) | hfits
    · omega
    · right
      rw [hnil]
      rfl
    · left
      rw [payloadBytes_append_one]
      omega
  · intro hpos
    rcases hcount with hzero | hfits
    · omega
    · rw [length_append, length_singleton]
      omega

/-- With one limit the plan has the assets at the front of the first shard and the tensors packed
    in their order: no shard but one of a single tensor exceeds the size limit, none the tensor
    limit, and no tensor at a boundary had room in the shard before.  A writer to which the same
    tensors are appended packs them the same way. -/
theorem shard_plan_exact (size count : Int) (records : List BlobRecord)
    (h : SingleLimit size count) :
    ∃ first rest, planRecordShards records size count =
        .ok ((records.filter (fun record => isAssetRecord record.name) ++ first) :: rest) ∧
      (first :: rest).flatten = records.filter (fun record => !isAssetRecord record.name) ∧
      (∀ tensors ∈ first :: rest, withinLimits size count tensors) ∧
      Packing.Tight (leavesNoRoom size count) (first :: rest) ∧
      ∀ copy,
        (∀ w w', (first :: rest).flatten.foldlM (Writer.append copy) (Writer.fresh size count) =
            .ok w → w.ensurePayload = .ok w' → w'.recordShards = first :: rest) ∧
        ((∀ record ∈ (first :: rest).flatten, 0 ≤ record.nbytes) →
          Writer.Copies copy (first :: rest).flatten → (first :: rest).length ≤ 99999 →
          ∃ w w', (first :: rest).flatten.foldlM (Writer.append copy) (Writer.fresh size count) =
            .ok w ∧ w.ensurePayload = .ok w') := by
  have hlimits : validateSplitLimits size count = .ok () := by
    unfold validateSplitLimits
    unfold SingleLimit at h
    rw [if_neg (by omega), if_neg (by omega)]
  have hsome : ¬(size = 0 ∧ count = 0) := by
    unfold SingleLimit at h
    omega
  have hstart : ({} : Plan).Packs {} := ⟨rfl, rfl, rfl⟩
  have hplan := hstart.foldl size count
    (records.filter fun record => !isAssetRecord record.name)
  have hflat := Packing.flatten_putAll (leavesNoRoom size count) {}
    (records.filter fun record => !isAssetRecord record.name)
  have hempty : ∀ record, leavesNoRoom size count [] record = false := by
    intro record
    unfold leavesNoRoom
    unfold SingleLimit at h
    simp
    omega
  have hwithin := Packing.forall_putAll withinLimits_nil
    (fun record => withinLimits_append (hempty record))
    (fun tensors record _ hroom => withinLimits_append hroom)
    (records.filter fun record => !isAssetRecord record.name)
  have htight := Packing.tight_putAll (leavesNoRoom size count)
    (records.filter fun record => !isAssetRecord record.name)
  have hfresh : Writer.Holds size count (Writer.fresh size count) {} := Or.inr ⟨rfl, rfl⟩
  have hasset : ∀ record ∈ records.filter (fun record => !isAssetRecord record.name),
      isAssetRecord record.name = false := by
    intro record hrecord
    simpa using (mem_filter.mp hrecord).2
  generalize hq : Packing.putAll (leavesNoRoom size count) {}
    (records.filter fun record => !isAssetRecord record.name) = q at *
  have hbins : ∃ first rest, q.bins = first :: rest := by
    cases hq : q.bins with
    | nil => simp [Packing.bins] at hq
    | cons first rest => exact ⟨first, rest, rfl⟩
  obtain ⟨first, rest, hbins⟩ := hbins
  rw [hbins] at hflat hwithin htight
  have hflat : (first :: rest).flatten =
      records.filter fun record => !isAssetRecord record.name := by
    simpa [Packing.bins] using hflat
  refine ⟨first, rest, ?_, hflat, hwithin, htight, ?_⟩
  · unfold planRecordShards
    rw [hlimits]
    have hshards := hplan.shards
    rw [hbins] at hshards
    simp [hsome, hshards, bind, Except.bind, pure, Except.pure]
  · intro copy
    rw [hflat]
    constructor
    · intro w w' hfed hensure
      have hholds := Writer.foldlM_holds hfresh hfed
      rw [hq] at hholds
      rw [(Writer.ensurePayload_packs hholds hensure).shards, hbins]
    · intro hnbytes hcopy hcount
      have hlength : q.bins.length ≤ 99999 := by
        rw [hbins]
        exact hcount
      obtain ⟨w, hw⟩ := Writer.foldlM_returns hfresh
        (fun record hrecord => ⟨hasset record hrecord, hnbytes record hrecord⟩) hcopy
        (by rw [hq]; exact hlength)
      obtain ⟨w', hw'⟩ := Writer.ensurePayload_returns (Writer.foldlM_holds hfresh hw)
      exact ⟨w, w', hw, hw'⟩

/-- A tensor of so many bytes that writes itself. -/
def sampleTensor (name : String) (nbytes : Nat) : BlobRecord where
  name := name
  dtype := "F16"
  nbytes := nbytes
  blob := .written (List.replicate nbytes 7)

/-- Copying sample tensors onto the end of a file adds their bytes. -/
theorem copies_sample (support : SeekSupport) (sizes : List (String × Nat)) :
    Writer.Copies (copyRecord support) (sizes.map fun size => sampleTensor size.1 size.2) := by
  intro record hrecord payload
  obtain ⟨⟨name, nbytes⟩, -, rfl⟩ := mem_map.mp hrecord
  refine ⟨_, if_neg ?_, ?_⟩
  · simp [sampleTensor]
  · by_cases hzero : nbytes = 0
    · simp [sampleTensor, hzero]
    · simp [sampleTensor, Cursor.length_write, hzero]

/-- Under a limit of ten bytes an asset and three tensors take two shards, and a writer to which
    the tensors are appended packs them the same way. -/
theorem shard_plan_exact_sample : ∃ first rest,
    planRecordShards [sampleTensor "a" 4, sampleTensor "__mfq_asset__/x" 3, sampleTensor "b" 6,
      sampleTensor "c" 12] 10 0 = .ok ((sampleTensor "__mfq_asset__/x" 3 :: first) :: rest) ∧
      (first :: rest).flatten = [sampleTensor "a" 4, sampleTensor "b" 6, sampleTensor "c" 12] ∧
      (∀ tensors ∈ first :: rest, withinLimits 10 0 tensors) ∧
      Packing.Tight (leavesNoRoom 10 0) (first :: rest) ∧ ∃ w w',
      [sampleTensor "a" 4, sampleTensor "b" 6, sampleTensor "c" 12].foldlM
        (Writer.append (copyRecord .full)) (Writer.fresh 10 0) = .ok w ∧
      w.ensurePayload = .ok w' ∧ w'.recordShards = first :: rest := by
  obtain ⟨first, rest, hplan, hflat, hwithin, htight, hwriter⟩ := shard_plan_exact 10 0
    [sampleTensor "a" 4, sampleTensor "__mfq_asset__/x" 3, sampleTensor "b" 6,
      sampleTensor "c" 12] (by decide)
  have htensors : (first :: rest).flatten =
      [sampleTensor "a" 4, sampleTensor "b" 6, sampleTensor "c" 12] := hflat
  have hlength : (planRecordShards [sampleTensor "a" 4, sampleTensor "__mfq_asset__/x" 3,
      sampleTensor "b" 6, sampleTensor "c" 12] 10 0).map List.length = .ok 2 := rfl
  rw [hplan] at hlength
  have hshards : (first :: rest).length = 2 := Except.ok.inj hlength
  obtain ⟨hsame, hreturns⟩ := hwriter (copyRecord .full)
  rw [htensors] at hsame hreturns
  obtain ⟨w, w', hfed, hensure⟩ := hreturns (by simp [sampleTensor])
    (copies_sample .full [("a", 4), ("b", 6), ("c", 12)]) (by omega)
  exact ⟨first, rest, hplan, htensors, hwithin, htight, w, w', hfed, hensure, hsame w w' hfed hensure⟩

end TyloQuant.Shards
