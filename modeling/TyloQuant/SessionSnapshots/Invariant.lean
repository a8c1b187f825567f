import TyloQuant.SessionSnapshots.Cache

/-!
# The invariant of the snapshot cache

`Stocked` is what every operation keeps even between two of its eviction rounds: the byte counter
is exact, stamps are distinct, and no history is empty.  `Within` adds the three limits.
Evictions only remove snapshots; `Removal` says which.
-/

namespace TyloQuant.SessionSnapshots

open Lib List

variable {D : Type}

/-- Bytes of some snapshots. -/
def totalBytes (snapshots : List (String × Entry D)) : Nat :=
  (snapshots.map fun x => x.2.state.bytes).sum

/-- Stamps of some snapshots. -/
def stamps (snapshots : List (String × Entry D)) : List Nat := snapshots.map fun x => x.2.lastUsed

namespace Cache

/-- All snapshots, each with its session. -/
def snapshots (c : Cache D) : List (String × Entry D) := Table.flat c.states

/-- The part of the invariant that does not depend on the limits. -/
structure Stocked (c : Cache D) : Prop where
  bytes : c.bytes = totalBytes c.snapshots
  distinct : (stamps c.snapshots).Nodup
  recent : ∀ k ∈ stamps c.snapshots, 0 < k ∧ k ≤ c.clock
  nonempty : ∀ s h, c.states.lookup s = some h → h ≠ []
  named : "" ∉ c.states

/-- The three limits are kept. -/
structure Within (c : Cache D) : Prop where
  bytes : c.bytes ≤ c.maxBytes
  sessions : c.states.keys.length ≤ c.maxSessions
  histories : ∀ s h, c.states.lookup s = some h → h.length ≤ c.maxSnapshotsPerSession

/-- The invariant of `SessionSnapshotCache`. -/
structure Sound (c : Cache D) : Prop where
  stocked : c.Stocked
  within : c.Within

/-- The snapshots in `gone` are removed, and nothing else changes. -/
structure Removal (gone : List (String × Entry D)) (c c' : Cache D) : Prop where
  limits : c'.maxSessions = c.maxSessions ∧
    c'.maxSnapshotsPerSession = c.maxSnapshotsPerSession ∧ c'.maxBytes = c.maxBytes
  clock : c'.clock = c.clock
  snapshots : c.snapshots.Perm (gone ++ c'.snapshots)
  bytes : c'.bytes = c.bytes - totalBytes gone
  shorter : ∀ s h', c'.states.lookup s = some h' → h' ≠ [] ∧
    ∃ h, c.states.lookup s = some h ∧ h'.length ≤ h.length

/-- The limits that no operation sets are those of the configuration. -/
def SameConfig (c c' : Cache D) : Prop :=
  c'.maxSessions = c.maxSessions ∧ c'.maxSnapshotsPerSession = c.maxSnapshotsPerSession

/-- The session has a snapshot with this stamp. -/
def Has (c : Cache D) (session : String) (clock : Nat) : Prop :=
  ∃ e, (session, e) ∈ c.snapshots ∧ e.lastUsed = clock

end Cache

/-! ### Totals -/

@[simp] theorem totalBytes_append (xs ys : List (String × Entry D)) :
    totalBytes (xs ++ ys) = totalBytes xs + totalBytes ys := by
  simp [totalBytes]

variable {xs : List (String × Entry D)} {ys : List (String × Entry D)}

theorem totalBytes_perm (h : xs.Perm ys) : totalBytes xs = totalBytes ys := (h.map _).sum_eq

theorem totalBytes_history (session : String) (history : History D) :
    totalBytes (history.map (session, ·)) = Cache.historyBytes history := by
  unfold totalBytes Cache.historyBytes
  rw [map_map]
  rfl

theorem stamps_perm (h : xs.Perm ys) : (stamps xs).Perm (stamps ys) := h.map _

@[simp] theorem stamps_append (xs ys : List (String × Entry D)) :
    stamps (xs ++ ys) = stamps xs ++ stamps ys :=
  map_append

theorem mem_stamps {xs : List (String × Entry D)} {x : String × Entry D} (h : x ∈ xs) :
    x.2.lastUsed ∈ stamps xs :=
  mem_map_of_mem h

/-- A snapshot is known by its stamp. -/
theorem eq_of_stamp (hdistinct : (stamps xs).Nodup) {x y : String × Entry D} (hx : x ∈ xs)
    (hy : y ∈ xs) (hstamp : x.2.lastUsed = y.2.lastUsed) : x = y :=
  inj_on_of_nodup_map hdistinct hx hy hstamp

namespace Cache

variable {session : String}

namespace Removal

variable {c c' c'' : Cache D} {gone gone' : List (String × Entry D)}

theorem none (hc : c.Stocked) : Removal [] c c where
  limits := ⟨rfl, rfl, rfl⟩
  clock := rfl
  snapshots := List.Perm.refl _
  bytes := (Nat.sub_zero _).symm
  shorter := fun s h' hh => ⟨hc.nonempty s h' hh, h', hh, le_rfl⟩

theorem trans (h : Removal gone c c') (h' : Removal gone' c' c'') :
    Removal (gone ++ gone') c c'' where
  limits := by
    obtain ⟨h1, h2, h3⟩ := h.limits
    obtain ⟨h1', h2', h3'⟩ := h'.limits
    exact ⟨h1'.trans h1, h2'.trans h2, h3'.trans h3⟩
  clock := h'.clock.trans h.clock
  snapshots := by
    rw [List.append_assoc]
    exact h.snapshots.trans (h'.snapshots.append_left gone)
  bytes := by
    rw [h'.bytes, h.bytes, totalBytes_append, Nat.sub_sub]
  shorter := by
    intro s h₂ hs
    obtain ⟨hne, h₁, hs₁, hle⟩ := h'.shorter s h₂ hs
    obtain ⟨-, h₀, hs₀, hle₀⟩ := h.shorter s h₁ hs₁
    exact ⟨hne, h₀, hs₀, hle.trans hle₀⟩

theorem sameConfig (h : Removal gone c c') : SameConfig c c' := ⟨h.limits.1, h.limits.2.1⟩

theorem stocked (h : Removal gone c c') (hc : c.Stocked) : c'.Stocked := by
  have hstamps := stamps_perm h.snapshots
  rw [stamps_append] at hstamps
  constructor
  · rw [h.bytes, hc.bytes, totalBytes_perm h.snapshots, totalBytes_append, Nat.add_sub_cancel_left]
  · exact (nodup_append.mp (hstamps.nodup_iff.mp hc.distinct)).2.1
  · intro k hk
    rw [h.clock]
    apply hc.recent
    exact hstamps.mem_iff.mpr (mem_append_right _ hk)
  · intro s h' hs
    exact (h.shorter s h' hs).1
  · intro hmem
    obtain ⟨h', hs⟩ := (Table.mem_iff _ _).mp hmem
    obtain ⟨-, h₀, hs₀, -⟩ := h.shorter _ h' hs
    exact hc.named (Table.mem_of_lookup hs₀)

theorem histories (h : Removal gone c c')
    (hc : ∀ s h, c.states.lookup s = some h → h.length ≤ c.maxSnapshotsPerSession) :
    ∀ s h, c'.states.lookup s = some h → h.length ≤ c'.maxSnapshotsPerSession := by
  intro s h' hs
  obtain ⟨-, h₀, hs₀, hle⟩ := h.shorter s h' hs
  rw [h.limits.2.1]
  exact hle.trans (hc s h₀ hs₀)

theorem keys (h : Removal gone c c') : c'.states.keys.length ≤ c.states.keys.length := by
  have hsub : c'.states.keys ⊆ c.states.keys := by
    intro s hs
    obtain ⟨h', hlookup⟩ := (Table.mem_iff _ _).mp (AList.mem_keys.mpr hs)
    obtain ⟨-, h₀, hs₀, -⟩ := h.shorter s h' hlookup
    exact AList.mem_keys.mp (Table.mem_of_lookup hs₀)
  exact (subperm_of_subset (AList.keys_nodup _) hsub).length_le

theorem has (h : Removal gone c c') {clock : Nat} (hc : c.Has session clock)
    (hgone : ∀ x ∈ gone, ¬(x.1 = session ∧ x.2.lastUsed = clock)) :
    c'.Has session clock := by
  obtain ⟨e, he, hclock⟩ := hc
  rcases mem_append.mp (h.snapshots.mem_iff.mp he) with hmem | hmem
  · exact absurd ⟨rfl, hclock⟩ (hgone _ hmem)
  · exact ⟨e, hmem, hclock⟩

end Removal

/-! ### Removing -/

variable {c : Cache D} {e : Entry D}

theorem mem_snapshots :
    (session, e) ∈ c.snapshots ↔ ∃ h, c.states.lookup session = some h ∧ e ∈ h :=
  Table.mem_flat

variable {history : History D}

theorem eraseSnapshot_removal (hc : c.Stocked) {index : Nat}
    (hs : c.states.lookup session = some history) (he : history[index]? = some e) :
    Removal [(session, e)] c (c.eraseSnapshot session index) := by
  obtain ⟨hlt, hget⟩ := List.getElem?_eq_some_iff.mp he
  have hperm : history.Perm (e :: history.eraseIdx index) := by
    rw [← hget]
    exact (getElem_cons_eraseIdx_perm hlt).symm
  have hflat : c.snapshots.Perm ((session, e) ::
      ((history.eraseIdx index).map (session, ·) ++ Table.flat (c.states.erase session))) :=
    (Table.flat_erase hs).trans ((hperm.map (session, ·)).append_right _)
  unfold eraseSnapshot
  rw [hs]
  dsimp only
  rw [he]
  dsimp only
  constructor
  · exact ⟨rfl, rfl, rfl⟩
  · rfl
  · unfold snapshots
    dsimp only
    split
    · rename_i hempty
      have hnil : history.eraseIdx index = [] := by simpa using hempty
      rw [hnil] at hflat
      exact hflat
    · rw [Table.flat_insert]
      exact hflat
  · simp [totalBytes]
  · intro s h' hlookup
    dsimp only at hlookup
    split at hlookup
    · have hold := Table.lookup_of_erase hlookup
      exact ⟨hc.nonempty s h' hold, h', hold, le_rfl⟩
    · rename_i hsome
      rcases Table.lookup_insert_cases hlookup with ⟨rfl, rfl⟩ | ⟨-, hold⟩
      · exact ⟨by simpa using hsome, history, hs, length_eraseIdx_le ..⟩
      · exact ⟨hc.nonempty s h' hold, h', hold, le_rfl⟩

theorem close_removal (hc : c.Stocked) (hs : c.states.lookup session = some history) :
    Removal (history.map (session, ·)) c (c.close session).1 := by
  unfold close
  rw [hs]
  constructor
  · exact ⟨rfl, rfl, rfl⟩
  · rfl
  · exact Table.flat_erase hs
  · rw [totalBytes_history]
  · intro s h' hlookup
    have hold := Table.lookup_of_erase hlookup
    exact ⟨hc.nonempty s h' hold, h', hold, le_rfl⟩

/-! ### Scans -/

theorem older_ne_none {α : Type} (victim : Option (α × Nat)) (x : α × Nat) :
    older victim x ≠ none := by
  unfold older
  cases victim with
  | none => simp
  | some v =>
    dsimp only
    split <;> simp

theorem older_some {α : Type} {victim : Option (α × Nat)} {x v : α × Nat}
    (h : older victim x = some v) : v = x ∨ victim = some v := by
  unfold older at h
  cases victim with
  | none => exact Or.inl (Option.some.inj h).symm
  | some w =>
    dsimp only at h
    split at h
    · exact Or.inl (Option.some.inj h).symm
    · exact Or.inr h

theorem foldl_older_some {α : Type} {candidates : List (α × Nat)} {init : Option (α × Nat)}
    {v : α × Nat} (h : candidates.foldl older init = some v) :
    v ∈ candidates ∨ init = some v := by
  induction candidates generalizing init with
  | nil => exact Or.inr h
  | cons x xs ih =>
    rcases ih h with hmem | hfirst
    · exact Or.inl (mem_cons_of_mem x hmem)
    · rcases older_some hfirst with rfl | hinit
      · exact Or.inl mem_cons_self
      · exact Or.inr hinit

theorem foldl_older_none {α : Type} {candidates : List (α × Nat)} {init : Option (α × Nat)}
    (h : candidates.foldl older init = none) : candidates = [] ∧ init = none := by
  induction candidates generalizing init with
  | nil => exact ⟨rfl, h⟩
  | cons x xs ih => exact absurd (ih h).2 (older_ne_none init x)

theorem oldest_some {α : Type} {candidates : List (α × Nat)} {v : α × Nat}
    (h : oldest candidates = some v) : v ∈ candidates :=
  (foldl_older_some h).resolve_right (by simp)

theorem oldest_none {α : Type} {candidates : List (α × Nat)} (h : oldest candidates = none) :
    candidates = [] :=
  (foldl_older_none h).1

variable {i : Nat}

theorem mem_zipIdx {α : Type} {xs : List α} {x : α} : (x, i) ∈ xs.zipIdx ↔ xs[i]? = some x := by
  rw [mem_zipIdx_iff_getElem?]

theorem mem_walk {it : Iteration D} {states : Table String (History D)} {s : String} :
    (s, i, e) ∈ walk it states ↔ ∃ h, states.lookup s = some h ∧ h[i]? = some e := by
  unfold walk
  rw [mem_flatMap]
  constructor
  · rintro ⟨session, -, hmem⟩
    obtain ⟨x, hx, hpair⟩ := mem_map.mp hmem
    obtain ⟨rfl, hrest⟩ := Prod.mk.inj hpair
    obtain ⟨rfl, rfl⟩ := Prod.mk.inj hrest
    have hget := mem_zipIdx.mp hx
    cases hlookup : states.lookup session with
    | none =>
      rw [hlookup] at hget
      simp at hget
    | some h =>
      rw [hlookup] at hget
      exact ⟨h, rfl, hget⟩
  · rintro ⟨h, hlookup, hget⟩
    refine ⟨s, ?_, ?_⟩
    · exact (it.perm states).mem_iff.mpr (AList.mem_keys.mp (Table.mem_of_lookup hlookup))
    · rw [hlookup]
      exact mem_map.mpr ⟨(e, i), mem_zipIdx.mpr hget, rfl⟩

end Cache

end TyloQuant.SessionSnapshots
