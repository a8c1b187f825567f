import TyloQuant.SessionSnapshots.Invariant

/-!
# Evictions

Each eviction loop ends within its limit, and removes only what is not protected.  A loop that
finds no victim has nothing but the protected snapshot left, and that one fits.
-/

namespace TyloQuant.SessionSnapshots.Cache

open Lib List

variable {D : Type} {c : Cache D}

/-! ### Victims -/

variable {session : String} {history : History D}

theorem history_distinct (hc : c.Stocked) (hs : c.states.lookup session = some history) :
    (history.map Entry.lastUsed).Nodup := by
  have hstamps := stamps_perm (Table.flat_erase hs)
  rw [stamps_append] at hstamps
  have hnodup := (nodup_append.mp (hstamps.nodup_iff.mp hc.distinct)).1
  simpa [stamps, Function.comp_def] using hnodup

/-- A history with two snapshots has one that is not protected. -/
theorem historyVictim_spec (hc : c.Stocked) (hs : c.states.lookup session = some history)
    (protectedClock : Nat) (hmany : 1 < history.length) :
    ∃ v e, historyVictim protectedClock history = some v ∧ history[v.1]? = some e ∧
      e.lastUsed ≠ protectedClock := by
  cases hvictim : historyVictim protectedClock history with
  | none =>
    exfalso
    have hnil := oldest_none hvictim
    rw [map_eq_nil_iff, filter_eq_nil_iff] at hnil
    have hall : ∀ i (hi : i < history.length), history[i].lastUsed = protectedClock := by
      intro i hi
      have hmem := mem_zipIdx.mpr (getElem?_eq_getElem hi)
      simpa using hnil _ hmem
    have hdistinct := history_distinct hc hs
    have hsecond : 1 < (history.map Entry.lastUsed).length := by
      rw [length_map]
      exact hmany
    have hfirst : 0 < (history.map Entry.lastUsed).length := by omega
    have hsame : (history.map Entry.lastUsed)[0] = (history.map Entry.lastUsed)[1] := by
      rw [getElem_map, getElem_map, hall 0 (by omega), hall 1 hmany]
    have hindex := (List.Nodup.getElem_inj_iff hdistinct).mp hsame
    exact absurd hindex (by decide)
  | some v =>
    obtain ⟨x, hx, rfl⟩ := mem_map.mp (oldest_some hvictim)
    obtain ⟨hmem, hfree⟩ := mem_filter.mp hx
    refine ⟨_, x.1, rfl, mem_zipIdx.mp hmem, ?_⟩
    simpa using hfree

/-- Where several sessions are, one of them is not protected. -/
theorem sessionVictim_spec (it : Iteration D) (protectedSession : String)
    (hmany : 1 < c.states.keys.length ∨ (0 < c.states.keys.length ∧ protectedSession ∉ c.states)) :
    ∃ v history, sessionVictim it protectedSession c.states = some v ∧
      c.states.lookup v.1 = some history ∧ v.1 ≠ protectedSession := by
  cases hvictim : sessionVictim it protectedSession c.states with
  | none =>
    exfalso
    have hnil := oldest_none hvictim
    rw [map_eq_nil_iff, filter_eq_nil_iff] at hnil
    have hall : ∀ s ∈ c.states.keys, s = protectedSession := by
      intro s hs
      have h := hnil s ((it.perm c.states).mem_iff.mpr hs)
      simpa using h
    have hkeys := AList.keys_nodup c.states
    rcases hmany with hmany | ⟨hsome, hout⟩
    · have hfirst : 0 < c.states.keys.length := by omega
      have hsame : c.states.keys[0] = c.states.keys[1] := by
        rw [hall _ (getElem_mem _), hall _ (getElem_mem _)]
      have hindex := (List.Nodup.getElem_inj_iff hkeys).mp hsame
      exact absurd hindex (by decide)
    · have hfirst := getElem_mem (l := c.states.keys) hsome
      rw [hall _ hfirst] at hfirst
      exact hout (AList.mem_keys.mpr hfirst)
  | some v =>
    obtain ⟨s, hs, rfl⟩ := mem_map.mp (oldest_some hvictim)
    obtain ⟨hmem, hfree⟩ := mem_filter.mp hs
    have hin := AList.mem_keys.mpr ((it.perm c.states).mem_iff.mp hmem)
    obtain ⟨history, hlookup⟩ := (Table.mem_iff _ _).mp hin
    exact ⟨_, history, rfl, hlookup, by simpa using hfree⟩

/-- Where there is more than the protected snapshot, there is a victim. -/
theorem snapshotVictim_spec (it : Iteration D) (protectedSession : String)
    (protectedClock limit : Nat) (hc : c.Stocked) (hmore : limit < c.bytes)
    (hfits : ∀ e, (protectedSession, e) ∈ c.snapshots → e.lastUsed = protectedClock →
      e.state.bytes ≤ limit) :
    ∃ v history e, snapshotVictim it protectedSession protectedClock c.states = some v ∧
      c.states.lookup v.1.1 = some history ∧ history[v.1.2]? = some e ∧
      ¬(v.1.1 = protectedSession ∧ e.lastUsed = protectedClock) := by
  cases hvictim : snapshotVictim it protectedSession protectedClock c.states with
  | none =>
    exfalso
    have hnil := oldest_none hvictim
    rw [map_eq_nil_iff, filter_eq_nil_iff] at hnil
    have hall : ∀ x ∈ c.snapshots,
        x.1 = protectedSession ∧ x.2.lastUsed = protectedClock := by
      rintro ⟨s, e⟩ hx
      obtain ⟨h, hs, he⟩ := mem_snapshots.mp hx
      obtain ⟨i, hi⟩ := mem_iff_getElem?.mp he
      have hwalk := hnil _ (mem_walk.mpr ⟨h, hs, hi⟩)
      simpa using hwalk
    -- All snapshots have the protected stamp, so there is at most one.
    have hfew : totalBytes c.snapshots ≤ limit := by
      cases hsnapshots : c.snapshots with
      | nil => exact Nat.zero_le _
      | cons x xs =>
        have hx := hall x (by rw [hsnapshots]; exact mem_cons_self)
        have hrest : xs = [] := by
          cases xs with
          | nil => rfl
          | cons y ys =>
            exfalso
            have hy := hall y (by rw [hsnapshots]; simp)
            have hdistinct := hc.distinct
            rw [hsnapshots] at hdistinct
            simp [stamps, hx.2, hy.2] at hdistinct
        obtain ⟨s, e⟩ := x
        obtain rfl : s = protectedSession := hx.1
        rw [hrest]
        have hle := hfits e (by rw [hsnapshots]; exact mem_cons_self) hx.2
        simpa [totalBytes] using hle
    rw [hc.bytes] at hmore
    omega
  | some v =>
    obtain ⟨x, hx, rfl⟩ := mem_map.mp (oldest_some hvictim)
    obtain ⟨hmem, hfree⟩ := mem_filter.mp hx
    obtain ⟨s, i, e⟩ := x
    obtain ⟨h, hs, hi⟩ := mem_walk.mp hmem
    refine ⟨_, h, e, rfl, hs, hi, ?_⟩
    rintro ⟨hsession, hclock⟩
    have hsame : s = protectedSession := hsession
    simp [hsame, hclock] at hfree

/-! ### Loops -/

/-- **`evict_history_to_limit`.** -/
theorem evictHistoryLoop_spec (session : String) (protectedClock fuel : Nat) (hc : c.Stocked)
    (hlimit : 0 < c.maxSnapshotsPerSession)
    (hfuel : ∀ h, c.states.lookup session = some h → h.length ≤ fuel) :
    ∃ gone, Removal gone c (evictHistoryLoop session protectedClock fuel c) ∧
      (∀ x ∈ gone, x.2.lastUsed ≠ protectedClock) ∧
      ∀ h, (evictHistoryLoop session protectedClock fuel c).states.lookup session = some h →
        h.length ≤ c.maxSnapshotsPerSession := by
  induction fuel generalizing c with
  | zero =>
    refine ⟨[], Removal.none hc, by simp, ?_⟩
    intro h hh
    exact (hfuel h hh).trans (Nat.zero_le _)
  | succ fuel ih =>
    unfold evictHistoryLoop
    cases hs : c.states.lookup session with
    | none =>
      refine ⟨[], Removal.none hc, by simp, ?_⟩
      intro h hh
      dsimp only at hh
      rw [hs] at hh
      cases hh
    | some history =>
      dsimp only
      by_cases hmany : history.length > c.maxSnapshotsPerSession
      · rw [if_pos hmany]
        obtain ⟨v, e, hv, he, hfree⟩ := historyVictim_spec hc hs protectedClock (by omega)
        rw [hv]
        dsimp only
        have hremoval := eraseSnapshot_removal hc hs he
        have hstocked := hremoval.stocked hc
        have hmaximum := hremoval.limits.2.1
        have hlength : ∀ h, (c.eraseSnapshot session v.1).states.lookup session = some h →
            h.length ≤ fuel := by
          intro h hh
          have hlt := (List.getElem?_eq_some_iff.mp he).1
          have hshort : h = history.eraseIdx v.1 := by
            unfold eraseSnapshot at hh
            rw [hs] at hh
            dsimp only at hh
            rw [he] at hh
            dsimp only at hh
            split at hh
            · rw [AList.lookup_erase] at hh
              cases hh
            · rw [AList.lookup_insert] at hh
              exact (Option.some.inj hh).symm
          have hle := hfuel history hs
          rw [hshort, length_eraseIdx_of_lt hlt]
          omega
        obtain ⟨gone, hrest, hgone, hend⟩ := ih hstocked (by rw [hmaximum]; exact hlimit) hlength
        refine ⟨_, hremoval.trans hrest, ?_, ?_⟩
        · intro x hx
          rcases mem_append.mp hx with hx | hx
          · obtain rfl := mem_singleton.mp hx
            exact hfree
          · exact hgone x hx
        · intro h hh
          rw [← hmaximum]
          exact hend h hh
      · rw [if_neg hmany]
        refine ⟨[], Removal.none hc, by simp, ?_⟩
        intro h hh
        rw [hs] at hh
        obtain rfl := Option.some.inj hh
        omega

/-- **The first loop of `evict_to_budget`.** -/
theorem evictSessions_spec (it : Iteration D) (protectedSession : String) (fuel : Nat)
    (hc : c.Stocked) (hlimit : 0 < c.maxSessions ∨ protectedSession ∉ c.states)
    (hfuel : c.states.keys.length ≤ fuel) :
    ∃ gone, Removal gone c (evictSessions it protectedSession fuel c) ∧
      (∀ x ∈ gone, x.1 ≠ protectedSession) ∧
      (evictSessions it protectedSession fuel c).states.keys.length ≤ c.maxSessions := by
  induction fuel generalizing c with
  | zero =>
    refine ⟨[], Removal.none hc, by simp, ?_⟩
    exact hfuel.trans (Nat.zero_le _)
  | succ fuel ih =>
    unfold evictSessions
    by_cases hmany : c.states.keys.length > c.maxSessions
    · rw [if_pos hmany]
      obtain ⟨v, history, hv, hs, hfree⟩ := sessionVictim_spec (c := c) it protectedSession
        (by
          rcases hlimit with hpos | hout
          · left
            omega
          · right
            exact ⟨by omega, hout⟩)
      rw [hv]
      dsimp only
      have hremoval := close_removal hc hs
      have hstocked := hremoval.stocked hc
      have hmaximum := hremoval.limits.1
      have hstates : (c.close v.1).1.states = c.states.erase v.1 := by
        unfold close
        rw [hs]
      have hshorter : (c.close v.1).1.states.keys.length ≤ fuel := by
        have hlength := Table.length_erase hs
        have hkeys : ∀ t : Table String (History D), t.keys.length = t.entries.length := by
          intro t
          simp [AList.keys, List.keys]
        rw [hstates, hkeys]
        rw [hkeys] at hfuel
        omega
      have hlimit' : 0 < (c.close v.1).1.maxSessions ∨
          protectedSession ∉ (c.close v.1).1.states := by
        rw [hmaximum, hstates]
        rcases hlimit with hpos | hout
        · exact Or.inl hpos
        · exact Or.inr fun hmem => hout (AList.mem_erase.mp hmem).2
      obtain ⟨gone, hrest, hgone, hend⟩ := ih hstocked hlimit' hshorter
      refine ⟨_, hremoval.trans hrest, ?_, ?_⟩
      · intro x hx
        rcases mem_append.mp hx with hx | hx
        · obtain ⟨e, -, rfl⟩ := mem_map.mp hx
          exact hfree
        · exact hgone x hx
      · rw [← hmaximum]
        exact hend
    · rw [if_neg hmany]
      exact ⟨[], Removal.none hc, by simp, by omega⟩

/-- **The second loop of `evict_to_budget`.** -/
theorem evictBytes_spec (it : Iteration D) (protectedSession : String) (protectedClock fuel : Nat)
    (hc : c.Stocked) (hfuel : c.snapshots.length ≤ fuel)
    (hfits : ∀ e, (protectedSession, e) ∈ c.snapshots → e.lastUsed = protectedClock →
      e.state.bytes ≤ c.maxBytes) :
    ∃ gone, Removal gone c (evictBytes it protectedSession protectedClock fuel c) ∧
      (∀ x ∈ gone, ¬(x.1 = protectedSession ∧ x.2.lastUsed = protectedClock)) ∧
      (evictBytes it protectedSession protectedClock fuel c).bytes ≤ c.maxBytes := by
  induction fuel generalizing c with
  | zero =>
    have hnil : c.snapshots = [] := eq_nil_of_length_eq_zero (Nat.le_zero.mp hfuel)
    refine ⟨[], Removal.none hc, by simp, ?_⟩
    show c.bytes ≤ c.maxBytes
    rw [hc.bytes, hnil]
    exact Nat.zero_le _
  | succ fuel ih =>
    unfold evictBytes
    by_cases hmany : c.bytes > c.maxBytes
    · rw [if_pos hmany]
      obtain ⟨v, history, e, hv, hs, he, hfree⟩ :=
        snapshotVictim_spec it protectedSession protectedClock c.maxBytes hc hmany hfits
      rw [hv]
      dsimp only
      have hremoval := eraseSnapshot_removal hc hs he
      have hstocked := hremoval.stocked hc
      have hmaximum := hremoval.limits.2.2
      have hlength := hremoval.snapshots.length_eq
      rw [length_append, length_singleton] at hlength
      have hfits' : ∀ e', (protectedSession, e') ∈ (c.eraseSnapshot v.1.1 v.1.2).snapshots →
          e'.lastUsed = protectedClock →
          e'.state.bytes ≤ (c.eraseSnapshot v.1.1 v.1.2).maxBytes := by
        intro e' he' hclock
        rw [hmaximum]
        apply hfits e' _ hclock
        exact hremoval.snapshots.mem_iff.mpr (mem_append_right _ he')
      obtain ⟨gone, hrest, hgone, hend⟩ := ih hstocked (by omega) hfits'
      refine ⟨_, hremoval.trans hrest, ?_, ?_⟩
      · intro x hx
        rcases mem_append.mp hx with hx | hx
        · obtain rfl := mem_singleton.mp hx
          exact hfree
        · exact hgone x hx
      · rw [← hmaximum]
        exact hend
    · rw [if_neg hmany]
      exact ⟨[], Removal.none hc, by simp, by omega⟩

/-- **`evict_to_budget`** leaves the cache within its limits, and the protected snapshot in it. -/
theorem evictToBudget_spec (it : Iteration D) (protectedSession : String) (protectedClock : Nat)
    (hc : c.Stocked)
    (hhistories : ∀ s h, c.states.lookup s = some h → h.length ≤ c.maxSnapshotsPerSession)
    (hlimit : 0 < c.maxSessions ∨ protectedSession ∉ c.states)
    (hfits : ∀ e, (protectedSession, e) ∈ c.snapshots → e.lastUsed = protectedClock →
      e.state.bytes ≤ c.maxBytes) :
    ∃ gone, Removal gone c (evictToBudget it c protectedSession protectedClock) ∧
      (∀ x ∈ gone, ¬(x.1 = protectedSession ∧ x.2.lastUsed = protectedClock)) ∧
      (evictToBudget it c protectedSession protectedClock).Sound := by
  obtain ⟨gone, hfirst, hgone, hsessions⟩ :=
    evictSessions_spec it protectedSession c.states.keys.length hc hlimit le_rfl
  have hstocked := hfirst.stocked hc
  have hfits' : ∀ e, (protectedSession, e) ∈
      (evictSessions it protectedSession c.states.keys.length c).snapshots →
      e.lastUsed = protectedClock →
      e.state.bytes ≤ (evictSessions it protectedSession c.states.keys.length c).maxBytes := by
    intro e he hclock
    rw [hfirst.limits.2.2]
    apply hfits e _ hclock
    exact hfirst.snapshots.mem_iff.mpr (mem_append_right _ he)
  obtain ⟨gone', hsecond, hgone', hbytes⟩ :=
    evictBytes_spec it protectedSession protectedClock _ hstocked le_rfl hfits'
  have hboth := hfirst.trans hsecond
  refine ⟨_, hboth, ?_, hboth.stocked hc, ?_, ?_, ?_⟩
  · intro x hx
    rcases mem_append.mp hx with hx | hx
    · exact fun h => hgone x hx h.1
    · exact hgone' x hx
  · rw [← hsecond.limits.2.2] at hbytes
    exact hbytes
  · exact (hsecond.keys.trans hsessions).trans hboth.limits.1.ge
  · exact hboth.histories hhistories

end TyloQuant.SessionSnapshots.Cache
