import TyloQuant.SessionSnapshots.Eviction

/-!
# What each operation keeps

Every operation of the cache keeps the invariant.  `store` and `fork` first add snapshots with
new stamps and then evict; what they protect is still there afterwards, so `store` cannot throw.
-/

namespace TyloQuant.SessionSnapshots.Cache

open Lib List

variable {D : Type} {c c' : Cache D}

/-! ### Exchanging snapshots -/

variable {gone : List (String × Entry D)}

/-- Some snapshots go and new ones come, with stamps from the clock's advance. -/
theorem Stocked.exchange {kept new : List (String × Entry D)} (hc : c.Stocked)
    (hgone : c.snapshots.Perm (gone ++ kept)) (hnew : c'.snapshots.Perm (new ++ kept))
    (hbytes : c'.bytes = c.bytes - totalBytes gone + totalBytes new) (hclock : c.clock ≤ c'.clock)
    (hdistinct : (stamps new).Nodup) (hstamps : ∀ k ∈ stamps new, c.clock < k ∧ k ≤ c'.clock)
    (hnonempty : ∀ s h, c'.states.lookup s = some h → h ≠ []) (hnamed : "" ∉ c'.states) :
    c'.Stocked := by
  have hold := stamps_perm hgone
  have hnow := stamps_perm hnew
  rw [stamps_append] at hold hnow
  have hkept : ∀ k ∈ stamps kept, 0 < k ∧ k ≤ c.clock := by
    intro k hk
    apply hc.recent
    exact hold.mem_iff.mpr (mem_append_right _ hk)
  constructor
  · rw [hbytes, hc.bytes, totalBytes_perm hgone, totalBytes_perm hnew, totalBytes_append,
      totalBytes_append, Nat.add_sub_cancel_left, Nat.add_comm]
  · apply hnow.nodup_iff.mpr
    apply nodup_append.mpr
    refine ⟨hdistinct, (nodup_append.mp (hold.nodup_iff.mp hc.distinct)).2.1, ?_⟩
    intro k hk k' hk' heq
    have hlow := (hstamps k hk).1
    have hhigh := (hkept k' hk').2
    omega
  · intro k hk
    rcases mem_append.mp (hnow.mem_iff.mp hk) with hmem | hmem
    · have h := hstamps k hmem
      omega
    · have h := hkept k hmem
      omega
  · exact hnonempty
  · exact hnamed

variable {session : String} {h : History D}

theorem notMem_insert (hc : "" ∉ c.states) (hsession : session ≠ "") :
    "" ∉ c.states.insert session h := by
  intro hmem
  rcases (AList.mem_insert _).mp hmem with heq | hold
  · exact hsession heq.symm
  · exact hc hold

theorem ne_nil_insert (hc : c.Stocked) (hne : h ≠ []) :
    ∀ s h', (c.states.insert session h).lookup s = some h' → h' ≠ [] :=
  Table.forall_insert hc.nonempty hne

variable {e : Entry D} {history : History D} {index : Nat}

theorem replace_perm (e' : Entry D) (hs : c.states.lookup session = some history)
    (he : history[index]? = some e) :
    ∃ kept, c.snapshots.Perm ([(session, e)] ++ kept) ∧
      (Table.flat (c.states.insert session (history.set index e'))).Perm
        ([(session, e')] ++ kept) := by
  obtain ⟨hlt, hget⟩ := List.getElem?_eq_some_iff.mp he
  have hold : history.Perm (e :: history.eraseIdx index) := by
    rw [← hget]
    exact (getElem_cons_eraseIdx_perm hlt).symm
  have hnew : (history.set index e').Perm (e' :: history.eraseIdx index) :=
    set_perm_cons_eraseIdx hlt e'
  refine ⟨(history.eraseIdx index).map (session, ·) ++ Table.flat (c.states.erase session), ?_, ?_⟩
  · exact (Table.flat_erase hs).trans ((hold.map (session, ·)).append_right _)
  · rw [Table.flat_insert]
    exact (hnew.map (session, ·)).append_right _

/-! ### Evicting after an addition -/

/-- The two rounds of evictions of `store` and `fork`. -/
theorem evict_added (it : Iteration D) (session : String) (clock : Nat) (hc : c.Stocked)
    (hsessions : 0 < c.maxSessions) (hsnapshots : 0 < c.maxSnapshotsPerSession)
    (hothers : ∀ s h, s ≠ session → c.states.lookup s = some h →
      h.length ≤ c.maxSnapshotsPerSession)
    (hhas : c.Has session clock)
    (hfits : ∀ e, (session, e) ∈ c.snapshots → e.lastUsed = clock → e.state.bytes ≤ c.maxBytes) :
    ∃ gone, Removal gone c
        (evictToBudget it (c.evictHistoryToLimit session clock) session clock) ∧
      (evictToBudget it (c.evictHistoryToLimit session clock) session clock).Sound ∧
      (evictToBudget it (c.evictHistoryToLimit session clock) session clock).Has session clock := by
  obtain ⟨gone, hfirst, hgone, hhistory⟩ :=
    evictHistoryLoop_spec session clock ((c.states.lookup session).getD []).length hc
      hsnapshots (by
        intro h hh
        rw [hh]
        exact le_rfl)
  have hhistories : ∀ s h, (c.evictHistoryToLimit session clock).states.lookup s = some h →
      h.length ≤ (c.evictHistoryToLimit session clock).maxSnapshotsPerSession := by
    intro s h hs
    show h.length ≤ (evictHistoryLoop session clock _ c).maxSnapshotsPerSession
    rw [hfirst.limits.2.1]
    by_cases hsession : s = session
    · subst hsession
      exact hhistory h hs
    · obtain ⟨-, h₀, hs₀, hle⟩ := hfirst.shorter s h hs
      exact hle.trans (hothers s h₀ hsession hs₀)
  have hfits' : ∀ e, (session, e) ∈ (c.evictHistoryToLimit session clock).snapshots →
      e.lastUsed = clock → e.state.bytes ≤ (c.evictHistoryToLimit session clock).maxBytes := by
    intro e he hclock
    show e.state.bytes ≤ (evictHistoryLoop session clock _ c).maxBytes
    rw [hfirst.limits.2.2]
    exact hfits e (hfirst.snapshots.mem_iff.mpr (mem_append_right _ he)) hclock
  have hsessions' : 0 < (c.evictHistoryToLimit session clock).maxSessions := by
    show 0 < (evictHistoryLoop session clock _ c).maxSessions
    rw [hfirst.limits.1]
    exact hsessions
  obtain ⟨gone', hsecond, hgone', hsound⟩ :=
    evictToBudget_spec it session clock (hfirst.stocked hc) hhistories (Or.inl hsessions') hfits'
  have hboth := hfirst.trans hsecond
  refine ⟨_, hboth, hsound, hboth.has hhas ?_⟩
  intro x hx
  rcases mem_append.mp hx with hx | hx
  · exact fun h => hgone x hx h.2
  · exact hgone' x hx

/-! ### Storing -/

/-- The entry joins its history, and the snapshot it replaces goes. -/
theorem putEntry_spec (hc : c.Stocked) (hsession : session ≠ "") (entry : Entry D)
    (same : State D → Bool) :
    ∃ gone kept, c.snapshots.Perm (gone ++ kept) ∧
      (c.putEntry session entry same).snapshots.Perm ([(session, entry)] ++ kept) ∧
      (c.putEntry session entry same).bytes = c.bytes - totalBytes gone ∧
      (∀ s h, (c.putEntry session entry same).states.lookup s = some h → h ≠ []) ∧
      "" ∉ (c.putEntry session entry same).states ∧
      ∀ s, s ≠ session →
        (c.putEntry session entry same).states.lookup s = c.states.lookup s := by
  unfold putEntry
  dsimp only
  cases hindex : ((c.states.lookup session).getD []).findIdx? fun saved => same saved.state with
  | some index =>
    cases hs : c.states.lookup session with
    | none =>
      rw [hs] at hindex
      simp at hindex
    | some history =>
      rw [hs, Option.getD_some] at hindex
      have hlt := (findIdx?_eq_some_iff_findIdx_eq.mp hindex).1
      obtain ⟨kept, hold, hnew⟩ := replace_perm entry hs
        (getElem?_eq_getElem hlt)
      refine ⟨_, kept, hold, hnew, ?_, ?_, ?_, ?_⟩
      · simp [totalBytes, hlt]
      · apply ne_nil_insert hc
        intro hnil
        have hlength := congrArg List.length hnil
        simp at hlength
        rw [hlength] at hlt
        simp at hlt
      · exact notMem_insert hc.named hsession
      · intro s hne
        exact AList.lookup_insert_ne hne
  | none =>
    have hsplit : c.snapshots.Perm (((c.states.lookup session).getD []).map (session, ·) ++
        Table.flat (c.states.erase session)) := by
      cases hs : c.states.lookup session with
      | none =>
        rw [Table.erase_of_notMem (AList.lookup_eq_none.mp hs)]
        exact List.Perm.refl _
      | some history => exact Table.flat_erase hs
    refine ⟨[], c.snapshots, List.Perm.refl _, ?_, (Nat.sub_zero _).symm, ?_, ?_, ?_⟩
    · show (Table.flat (c.states.insert session _)).Perm _
      rw [Table.flat_insert, map_append, List.append_assoc]
      exact (perm_append_comm_assoc ..).trans (hsplit.symm.append_left [(session, entry)])
    · exact ne_nil_insert hc (by simp)
    · exact notMem_insert hc.named hsession
    · intro s hne
      exact AList.lookup_insert_ne hne

theorem stamped_eq (hc : c.Stocked) (he : (session, e) ∈ c.snapshots) :
    c.stamped session e.lastUsed = some e := by
  obtain ⟨history, hs, hmem⟩ := mem_snapshots.mp he
  unfold stamped
  rw [hs, Option.getD_some]
  cases hfind : history.find? fun x => decide (x.lastUsed = e.lastUsed) with
  | none =>
    have hnone := find?_eq_none.mp hfind e hmem
    simp at hnone
  | some e' =>
    have hmem' := mem_of_find?_eq_some hfind
    have hstamp := find?_some hfind
    have hsame := eq_of_stamp hc.distinct (x := (session, e')) (y := (session, e))
      (mem_snapshots.mpr ⟨history, hs, hmem'⟩) he (of_decide_eq_true hstamp)
    rw [(Prod.mk.inj hsame).2]

variable {x : String × Entry D}

theorem bytes_le_total {xs : List (String × Entry D)} (h : x ∈ xs) :
    x.2.state.bytes ≤ totalBytes xs :=
  single_le_sum (by simp) _ (mem_map_of_mem h)

theorem Sound.fits (hc : c.Sound) (hx : x ∈ c.snapshots) : x.2.state.bytes ≤ c.maxBytes := by
  have hle := bytes_le_total hx
  have hbytes := hc.stocked.bytes
  have hbudget := hc.within.bytes
  omega

/-- **`store`** never throws; it keeps the invariant, and what it stored is there. -/
theorem store_spec (it : Iteration D) (hc : c.Sound) (session : String) (state : State D)
    (same : State D → State D → Bool) :
    ∃ c' result, store it c session state same = .ok (c', result) ∧ c'.Sound ∧ SameConfig c c' ∧
      (result = none → session = "" ∨ c.enabled = false ∨ state.bytes > c.maxBytes) ∧
      ∀ r, result = some r → r.state = state ∧ c'.Has session (c.clock + 1) := by
  unfold store
  by_cases hskip : session = "" ∨ c.enabled = false ∨ state.bytes > c.maxBytes
  · rw [if_pos hskip]
    refine ⟨c, none, rfl, hc, ⟨rfl, rfl⟩, fun _ => hskip, ?_⟩
    intro r hr
    cases hr
  · rw [if_neg hskip]
    simp only [not_or] at hskip
    obtain ⟨hsession, henabled, hsmall⟩ := hskip
    simp only [enabled, Bool.and_eq_false_iff, decide_eq_false_iff_not, not_or, not_not]
      at henabled
    have hticked : ({ c with clock := c.clock + 1 } : Cache D).Stocked :=
      ⟨hc.stocked.bytes, hc.stocked.distinct,
        fun k hk => ⟨(hc.stocked.recent k hk).1, (hc.stocked.recent k hk).2.trans
          (Nat.le_succ _)⟩, hc.stocked.nonempty, hc.stocked.named⟩
    obtain ⟨gone, kept, hold, hnew, hbytes, hnonempty, hnamed, hothers⟩ :=
      putEntry_spec hticked hsession ⟨state, c.clock + 1⟩ fun saved => same saved state
    have hlimits : ∀ d : Cache D, ∀ e f, (d.putEntry session e f).maxSessions = d.maxSessions ∧
        (d.putEntry session e f).maxSnapshotsPerSession = d.maxSnapshotsPerSession ∧
        (d.putEntry session e f).maxBytes = d.maxBytes ∧
        (d.putEntry session e f).clock = d.clock := by
      intro d e f
      unfold putEntry
      dsimp only
      split <;> exact ⟨rfl, rfl, rfl, rfl⟩
    obtain ⟨hmaxSessions, hmaxSnapshots, hmaxBytes, hclock⟩ := hlimits
      { c with clock := c.clock + 1 } ⟨state, c.clock + 1⟩ fun saved => same saved state
    dsimp only
    generalize Cache.putEntry { c with clock := c.clock + 1 } session ⟨state, c.clock + 1⟩
      (fun saved => same saved state) = c₁ at *
    have hadded : ({ c₁ with bytes := c₁.bytes + state.bytes } : Cache D).Stocked := by
      refine hc.stocked.exchange hold hnew ?_ ?_ ?_ ?_ hnonempty hnamed
      · show c₁.bytes + state.bytes = _
        rw [hbytes]
        simp [totalBytes]
      · show c.clock ≤ c₁.clock
        rw [hclock]
        exact Nat.le_succ _
      · simp [stamps]
      · intro k hk
        show c.clock < k ∧ k ≤ c₁.clock
        rw [hclock]
        simp only [stamps, map_cons, map_nil, mem_singleton] at hk
        rw [hk]
        exact ⟨Nat.lt_succ_self _, le_rfl⟩
    have hin : (session, (⟨state, c.clock + 1⟩ : Entry D)) ∈ c₁.snapshots :=
      hnew.mem_iff.mpr mem_cons_self
    have hstamped : c₁.stamped session (c.clock + 1) = some ⟨state, c.clock + 1⟩ :=
      stamped_eq hadded hin
    rw [hstamped]
    dsimp only
    obtain ⟨gone', hremoval, hsound, hhas⟩ := evict_added it session (c.clock + 1)
      hadded (by
        show 0 < c₁.maxSessions
        rw [hmaxSessions]
        exact henabled.1.1) (by
        show 0 < c₁.maxSnapshotsPerSession
        rw [hmaxSnapshots]
        exact henabled.1.2) (by
        intro s h hs hlookup
        show h.length ≤ c₁.maxSnapshotsPerSession
        rw [hmaxSnapshots]
        apply hc.within.histories s h
        rw [← hothers s hs]
        exact hlookup) ⟨_, hin, rfl⟩ (by
        intro e he hstamp
        show e.state.bytes ≤ c₁.maxBytes
        have hsame := eq_of_stamp hadded.distinct (x := (session, e))
          (y := (session, ⟨state, c.clock + 1⟩)) he hin hstamp
        rw [(Prod.mk.inj hsame).2, hmaxBytes]
        exact not_lt.mp hsmall)
    generalize evictToBudget it (evictHistoryToLimit { c₁ with bytes := c₁.bytes + state.bytes }
      session (c.clock + 1)) session (c.clock + 1) = c₃ at *
    obtain ⟨e, he, hstamp⟩ := hhas
    have hkept := hremoval.snapshots.mem_iff.mpr (mem_append_right _ he)
    have hsame := eq_of_stamp hadded.distinct (x := (session, e))
      (y := (session, ⟨state, c.clock + 1⟩)) hkept hin hstamp
    obtain rfl := (Prod.mk.inj hsame).2
    obtain ⟨history, hs, -⟩ := mem_snapshots.mp he
    have hfound : c₃.stamped session (c.clock + 1) = some ⟨state, c.clock + 1⟩ :=
      stamped_eq hsound.stocked he
    rw [hs, hfound]
    refine ⟨c₃, _, rfl, hsound, ?_, fun hnone => absurd hnone (by simp), ?_⟩
    · exact ⟨hremoval.limits.1.trans hmaxSessions, hremoval.limits.2.1.trans hmaxSnapshots⟩
    · intro r hr
      obtain rfl := Option.some.inj hr
      exact ⟨rfl, _, he, rfl⟩

/-! ### Forking -/

theorem stamps_restamp (session : String) (clock : Nat) (history : History D) :
    stamps ((restamp clock history).map (session, ·)) =
      List.range' (clock + 1) history.length := by
  induction history generalizing clock with
  | nil => rfl
  | cons e rest ih =>
    unfold restamp
    rw [map_cons, length_cons, range'_succ]
    show (clock + 1) :: stamps ((restamp (clock + 1) rest).map (session, ·)) = _
    rw [ih]

theorem historyBytes_restamp (clock : Nat) (history : History D) :
    historyBytes (restamp clock history) = historyBytes history := by
  induction history generalizing clock with
  | nil => rfl
  | cons e rest ih =>
    show e.state.bytes + historyBytes (restamp (clock + 1) rest) = _
    rw [ih]
    rfl

theorem mem_restamp {clock : Nat} (he : e ∈ restamp clock history) :
    ∃ e₀ ∈ history, e₀.state = e.state := by
  induction history generalizing clock with
  | nil => simp [restamp] at he
  | cons x rest ih =>
    rcases mem_cons.mp he with rfl | hmem
    · exact ⟨x, mem_cons_self, rfl⟩
    · obtain ⟨e₀, h₀, hstate⟩ := ih hmem
      exact ⟨e₀, mem_cons_of_mem x h₀, hstate⟩

theorem close_spec (hc : c.Sound) (session : String) :
    (∃ gone, Removal gone c (c.close session).1) ∧ session ∉ (c.close session).1.states ∧
      ∀ s, s ≠ session → (c.close session).1.states.lookup s = c.states.lookup s := by
  cases hs : c.states.lookup session with
  | none =>
    have hsame : (c.close session).1 = c := by
      unfold close
      rw [hs]
    rw [hsame]
    exact ⟨⟨[], Removal.none hc.stocked⟩, AList.lookup_eq_none.mp hs, fun _ _ => rfl⟩
  | some history =>
    refine ⟨⟨_, close_removal hc.stocked hs⟩, ?_, ?_⟩
    · unfold close
      rw [hs]
      exact fun hmem => (AList.mem_erase.mp hmem).1 rfl
    · intro s hne
      unfold close
      rw [hs]
      exact AList.lookup_erase_ne hne

theorem Removal.sound (h : Removal gone c c') (hc : c.Sound) : c'.Sound := by
  refine ⟨h.stocked hc.stocked, ?_, ?_, h.histories hc.within.histories⟩
  · rw [h.bytes, h.limits.2.2]
    exact (Nat.sub_le _ _).trans hc.within.bytes
  · rw [h.limits.1]
    exact h.keys.trans hc.within.sessions

/-- **`fork`** keeps the invariant, and the newest copy is there. -/
theorem fork_spec (it : Iteration D) (hc : c.Sound) (source target : String) :
    (fork it c source target).1.Sound ∧ SameConfig c (fork it c source target).1 ∧
      (¬(source = "" ∨ target = "" ∨ source = target ∨ c.enabled = false) →
        ∀ copied, c.states.lookup source = some copied →
          (fork it c source target).1.Has target (c.clock + copied.length)) := by
  unfold fork
  by_cases hskip : source = "" ∨ target = "" ∨ source = target ∨ c.enabled = false
  · rw [if_pos hskip]
    exact ⟨hc, ⟨rfl, rfl⟩, fun h => absurd hskip h⟩
  · rw [if_neg hskip]
    simp only [not_or] at hskip
    obtain ⟨-, htarget, hne, henabled⟩ := hskip
    simp only [enabled, Bool.and_eq_false_iff, decide_eq_false_iff_not, not_or, not_not]
      at henabled
    cases hs : c.states.lookup source with
    | none => exact ⟨hc, ⟨rfl, rfl⟩, fun _ _ h => by cases h⟩
    | some copied =>
      have hcopied : copied ≠ [] := hc.stocked.nonempty source copied hs
      obtain ⟨⟨gone, hremoval⟩, hout, hothers⟩ := close_spec hc target
      have hsound₁ := hremoval.sound hc
      have hempty : copied.isEmpty = false := by simpa using hcopied
      dsimp only
      rw [hempty, if_neg (by simp), ← hremoval.clock]
      obtain ⟨hmaxSessions, hmaxSnapshots, hmaxBytes⟩ := hremoval.limits
      have hsource : (c.close target).1.states.lookup source = some copied := by
        rw [hothers source hne]
        exact hs
      generalize (c.close target).1 = c₁ at *
      have hadded : ({ c₁ with
          clock := c₁.clock + copied.length
          bytes := c₁.bytes + historyBytes copied
          states := c₁.states.insert target
            (restamp c₁.clock copied) } : Cache D).Stocked := by
        have hnew : (Table.flat (c₁.states.insert target (restamp c₁.clock copied))).Perm
            ((restamp c₁.clock copied).map (target, ·) ++ c₁.snapshots) := by
          rw [Table.flat_insert, Table.erase_of_notMem hout]
          exact List.Perm.refl _
        refine hsound₁.stocked.exchange (List.Perm.refl ([] ++ c₁.snapshots)) hnew
          ?_ ?_ ?_ ?_ ?_ ?_
        · show c₁.bytes + historyBytes copied = _
          rw [totalBytes_history, historyBytes_restamp]
          rfl
        · exact Nat.le_add_right _ _
        · rw [stamps_restamp]
          exact nodup_range'
        · intro k hk
          rw [stamps_restamp, mem_range'_1] at hk
          show c₁.clock < k ∧ k ≤ c₁.clock + copied.length
          omega
        · apply ne_nil_insert hsound₁.stocked
          intro hnil
          have hstamps := stamps_restamp target c₁.clock copied
          rw [hnil] at hstamps
          have hlength := congrArg List.length hstamps
          rw [length_range'] at hlength
          exact hcopied (eq_nil_of_length_eq_zero hlength.symm)
        · exact notMem_insert hsound₁.stocked.named htarget
      have hmem : ∀ e, (target, e) ∈ Table.flat (c₁.states.insert target
          (restamp c₁.clock copied)) ↔ e ∈ restamp c₁.clock copied := by
        intro e
        rw [Table.mem_flat]
        constructor
        · rintro ⟨h, hlookup, he⟩
          rw [AList.lookup_insert] at hlookup
          obtain rfl := Option.some.inj hlookup
          exact he
        · intro he
          exact ⟨_, AList.lookup_insert _, he⟩
      have hhas : ∃ e ∈ restamp c₁.clock copied,
          e.lastUsed = c₁.clock + copied.length := by
        have hlast : c₁.clock + copied.length ∈
            stamps ((restamp c₁.clock copied).map (target, ·)) := by
          rw [stamps_restamp, mem_range'_1]
          have hpos := length_pos_of_ne_nil hcopied
          omega
        obtain ⟨x, hx, hstamp⟩ := mem_map.mp hlast
        obtain ⟨e, he, rfl⟩ := mem_map.mp hx
        exact ⟨e, he, hstamp⟩
      obtain ⟨e, he, hstamp⟩ := hhas
      obtain ⟨gone', hremoval', hsound, hhas⟩ := evict_added it target
        (c₁.clock + copied.length) hadded (by
          show 0 < c₁.maxSessions
          rw [hmaxSessions]
          exact henabled.1.1) (by
          show 0 < c₁.maxSnapshotsPerSession
          rw [hmaxSnapshots]
          exact henabled.1.2) (by
          intro s h hsession hlookup
          apply hsound₁.within.histories s h
          rw [← AList.lookup_insert_ne hsession]
          exact hlookup) ⟨e, (hmem e).mpr he, hstamp⟩ (by
          intro e' he' _
          obtain ⟨e₀, h₀, hstate⟩ := mem_restamp ((hmem e').mp he')
          show e'.state.bytes ≤ c₁.maxBytes
          rw [← hstate]
          exact hsound₁.fits (x := (source, e₀))
            (mem_snapshots.mpr ⟨copied, hsource, h₀⟩))
      refine ⟨hsound, ?_, ?_⟩
      · exact ⟨hremoval'.limits.1.trans hmaxSessions, hremoval'.limits.2.1.trans hmaxSnapshots⟩
      · intro _ h hh
        obtain rfl := Option.some.inj hh
        exact hhas

/-! ### The other operations -/

theorem eraseSnapshot_spec (hc : c.Sound) (session : String) (index : Nat) :
    ∃ gone, Removal gone c (c.eraseSnapshot session index) := by
  cases hs : c.states.lookup session with
  | none =>
    unfold eraseSnapshot
    rw [hs]
    exact ⟨[], Removal.none hc.stocked⟩
  | some history =>
    cases he : history[index]? with
    | none =>
      unfold eraseSnapshot
      rw [hs]
      dsimp only
      rw [he]
      exact ⟨[], Removal.none hc.stocked⟩
    | some e => exact ⟨_, eraseSnapshot_removal hc.stocked hs he⟩

theorem recordHit_sound (hc : c.Sound) {current : Bool}
    (h : recordHit c session index current = .ok c') : c'.Sound ∧ SameConfig c c' := by
  unfold recordHit at h
  cases hs : c.states.lookup session with
  | none =>
    rw [hs] at h
    cases h
  | some history =>
    rw [hs] at h
    dsimp only at h
    cases he : history[index]? with
    | none =>
      rw [he] at h
      cases h
    | some e =>
      rw [he] at h
      dsimp only at h
      split at h
      · obtain rfl := Except.ok.inj h
        have hlength := (List.getElem?_eq_some_iff.mp he).1
        have hsession : session ≠ "" := by
          rintro rfl
          exact hc.stocked.named (Table.mem_of_lookup hs)
        obtain ⟨kept, hold, hnew⟩ := replace_perm
          { e with lastUsed := c.clock + 1 } hs he
        refine ⟨⟨?_, hc.within.bytes, ?_, ?_⟩, rfl, rfl⟩
        · refine hc.stocked.exchange hold hnew ?_ ?_ ?_ ?_ ?_ ?_
          · have hle := bytes_le_total (hold.mem_iff.mpr mem_cons_self)
            rw [← hc.stocked.bytes] at hle
            simp only [totalBytes, map_cons, map_nil, sum_cons, sum_nil]
            show c.bytes = c.bytes - (e.state.bytes + 0) + (e.state.bytes + 0)
            dsimp only at hle
            omega
          · exact Nat.le_succ _
          · simp [stamps]
          · intro k hk
            simp only [stamps, map_cons, map_nil, mem_singleton] at hk
            rw [hk]
            exact ⟨Nat.lt_succ_self _, le_rfl⟩
          · apply ne_nil_insert hc.stocked
            intro hnil
            have hzero := congrArg List.length hnil
            simp at hzero
            rw [hzero] at hlength
            simp at hlength
          · exact notMem_insert hc.stocked.named hsession
        · have hkeys : (c.states.insert session
              (history.set index { e with lastUsed := c.clock + 1 })).keys.length =
              c.states.keys.length := by
            rw [AList.keys_insert, length_cons,
              length_erase_of_mem (AList.mem_keys.mp (Table.mem_of_lookup hs))]
            have hpos := length_pos_of_mem
              (AList.mem_keys.mp (Table.mem_of_lookup hs))
            omega
          show (c.states.insert session _).keys.length ≤ c.maxSessions
          rw [hkeys]
          exact hc.within.sessions
        · refine Table.forall_insert hc.within.histories ?_
          rw [length_set]
          exact hc.within.histories session history hs
      · cases h

/-- **`trim`** to any target, under any limit that now stands. -/
theorem trim_sound (it : Iteration D) (hc : c.Stocked)
    (hhistories : ∀ s h, c.states.lookup s = some h → h.length ≤ c.maxSnapshotsPerSession)
    (targetBytes : Nat) :
    (trim it c targetBytes).1.Sound ∧ SameConfig c (trim it c targetBytes).1 := by
  obtain ⟨gone, hremoval, -, hsound⟩ := evictToBudget_spec it "" 0
    (c := { c with maxBytes := min c.maxBytes targetBytes })
    ⟨hc.bytes, hc.distinct, hc.recent, hc.nonempty, hc.named⟩ hhistories (Or.inr hc.named) (by
      intro e he hstamp
      have hpos := (hc.recent _ (@mem_stamps D c.snapshots _ he)).1
      exact absurd hstamp (Nat.ne_of_gt hpos))
  unfold trim
  dsimp only
  generalize evictToBudget it { c with maxBytes := min c.maxBytes targetBytes } "" 0 = c₁ at *
  refine ⟨⟨?_, ?_, hsound.within.sessions, hsound.within.histories⟩, hremoval.sameConfig⟩
  · exact ⟨hsound.stocked.bytes, hsound.stocked.distinct, hsound.stocked.recent,
      hsound.stocked.nonempty, hsound.stocked.named⟩
  · have hle := hsound.within.bytes
    rw [hremoval.limits.2.2] at hle
    exact hle.trans (Nat.min_le_left _ _)

theorem setLimit_sound (it : Iteration D) (hc : c.Sound) (maxBytes : Nat) :
    (setLimit it c maxBytes).1.Sound ∧ SameConfig c (setLimit it c maxBytes).1 :=
  trim_sound it (c := { c with maxBytes := maxBytes })
    ⟨hc.stocked.bytes, hc.stocked.distinct, hc.stocked.recent, hc.stocked.nonempty,
      hc.stocked.named⟩ hc.within.histories maxBytes

theorem empty_sound (maxSessions maxSnapshotsPerSession maxBytes clock : Nat) :
    ({ maxSessions := maxSessions, maxSnapshotsPerSession := maxSnapshotsPerSession,
       maxBytes := maxBytes, clock := clock } : Cache D).Sound := by
  refine ⟨⟨rfl, nodup_nil, by simp [stamps, snapshots], ?_, AList.notMem_empty _⟩,
    Nat.zero_le _, Nat.zero_le _, ?_⟩
  · intro s h hs
    cases hs
  · intro s h hs
    cases hs

end TyloQuant.SessionSnapshots.Cache
