import TyloQuant.NgramHash.Chunking
import TyloQuant.NgramHash.Segments

/-!
# Runs of the hash state

A session forwards tokens, drafts in a speculative window, takes part of the draft back, saves its
state and goes back to a saved one.  Beside the state goes the matrix of the tokens that are
retained; the state agrees with it after every call.
-/

namespace TyloQuant.NgramHash

open Lib List

/-! ### Calls -/

inductive Op where
  | reset (batch : Int)
  | forward (ids : Option (List Int)) (batch tokens pos0 : Int) (imageMask : Option (List Bool))
  | beginSpeculative
  | commitSpeculative
  | rollbackSpeculative (position : Int)
  | snapshot
  | restore (index : Nat)
  | preview (ids : Option (List Int)) (batch tokens pos0 : Int)

/-- A state with the tokens it retains, and the snapshots with the tokens of each.  The checkpoint
is the number of tokens retained when `begin_speculative` last returned, until a call closes the
window. -/
structure World where
  state : EngramHashState
  retained : TokenMatrix
  saved : List (EngramHashSnapshot × TokenMatrix)
  checkpoint : Option Nat := none

/-- The tokens retained after a call of `forward`: one that begins a session drops the others also
where it fails. -/
def retainedAfter (m : TokenMatrix) (result : Except EngramError EngramHashBatch)
    (ids : Option (List Int)) (batch tokens pos0 : Int) (imageMask : Option (List Bool)) :
    TokenMatrix :=
  let before := if pos0 = 0 then .none batch.toNat else m
  match result with
  | .ok _ => before.append (.ofCall (ids.getD []) imageMask batch.toNat tokens.toNat)
  | .error _ => if ids.isSome ∧ 0 < batch ∧ 0 < tokens then before else m

/-- The call of `forward` begins a session, which closes the window. -/
def Begins (ids : Option (List Int)) (batch tokens pos0 : Int) : Prop :=
  ids.isSome ∧ 0 < batch ∧ 0 < tokens ∧ pos0 = 0

instance (ids : Option (List Int)) (batch tokens pos0 : Int) :
    Decidable (Begins ids batch tokens pos0) :=
  inferInstanceAs (Decidable (_ ∧ _))

def step (w : World) : Op → World
  | .reset batch =>
    match w.state.reset batch with
    | .error _ => w
    | .ok state => { w with state, retained := .none batch.toNat, checkpoint := none }
  | .forward ids batch tokens pos0 imageMask =>
    let (result, state) := w.state.forward ids batch tokens pos0 imageMask
    { w with
      state
      retained := retainedAfter w.retained result ids batch tokens pos0 imageMask
      checkpoint := if Begins ids batch tokens pos0 then none else w.checkpoint }
  | .beginSpeculative =>
    match w.state.beginSpeculative with
    | .error _ => w
    | .ok state => { w with state, checkpoint := some w.retained.width }
  | .commitSpeculative => { w with state := w.state.commitSpeculative, checkpoint := none }
  | .rollbackSpeculative position =>
    match w.state.rollbackSpeculative position with
    | .error _ => w
    | .ok state => { w with state, retained := w.retained.first state.position, checkpoint := none }
  | .snapshot =>
    match w.state.snapshot with
    | .error _ => w
    | .ok taken => { w with saved := w.saved ++ [(taken, w.retained)] }
  | .restore index =>
    match w.saved[index]? with
    | none => w
    | some (taken, retained) =>
      match w.state.restore taken with
      | .error _ => w
      | .ok state => { w with state, retained, checkpoint := none }
  | .preview _ _ _ _ => w

def run (w : World) (ops : List Op) : World := ops.foldl step w

namespace EngramHashState

/-! ### Agreement -/

/-- The state as it was constructed. -/
def made (st : EngramHashState) : EngramHashState where
  vocabulary := st.vocabulary
  maxNgramSize := st.maxNgramSize
  heads := st.heads
  padId := st.padId
  parameters := st.parameters

/-- The window of speculation: its context is that of the checkpoint, and its journal the tokens
since. -/
def Speculates (st : EngramHashState) (m : TokenMatrix) : Option Nat → Prop
  | none => st.speculativeContext = none
  | some start => start ≤ m.width ∧ st.speculativePosition = start ∧
      st.speculativeContext = some (st.contextAt m start) ∧
      st.speculativeTokens =
        (List.range m.batch).flatMap fun bi => (m.row st.parameters bi).drop start

/-- A snapshot that a state of these tables takes when it retains the tokens. -/
structure Took (st : EngramHashState) (taken : EngramHashSnapshot) (m : TokenMatrix) : Prop where
  batch : taken.batch = m.batch
  position : taken.position = m.width
  context : taken.context = st.contextAt m m.width
  valid : m.Valid st.parameters

/-- A state of the tables it began with retains the tokens beside it. -/
structure Agrees (fresh : EngramHashState) (w : World) : Prop where
  inside : fresh.Inside
  made : w.state.made = fresh.made
  retains : w.state.Retains w.retained
  batch : 0 < w.retained.width → 0 < w.retained.batch
  speculates : w.state.Speculates w.retained w.checkpoint
  saved : ∀ taken ∈ w.saved, fresh.Took taken.1 taken.2

variable {fresh st st' : EngramHashState} {m c : TokenMatrix}

theorem made_eq_iff :
    st'.made = st.made ↔ st'.vocabulary = st.vocabulary ∧ st'.maxNgramSize = st.maxNgramSize ∧
      st'.heads = st.heads ∧ st'.padId = st.padId ∧ st'.parameters = st.parameters := by
  simp [made]

theorem Inside.congr (h : st.Inside) (hmade : st'.made = st.made) : st'.Inside := by
  obtain ⟨-, hn, hheads, -, hparameters⟩ := made_eq_iff.mp hmade
  refine ⟨hn ▸ h.two_le, hn ▸ h.le_bound, ?_⟩
  have hbucket := h.bucket
  unfold columns at hbucket ⊢
  rw [hn, hheads, hparameters]
  exact hbucket

theorem contextAt_congr (hmade : st'.made = st.made) (position : Nat) :
    st'.contextAt m position = st.contextAt m position := by
  obtain ⟨-, hn, -, hpad, hparameters⟩ := made_eq_iff.mp hmade
  rw [contextAt, contextAt, hn, hpad, hparameters]

variable {taken : EngramHashSnapshot}

theorem Took.congr (h : st.Took taken m) (hmade : st'.made = st.made) :
    st'.Took taken m where
  batch := h.batch
  position := h.position
  context := h.context.trans (contextAt_congr hmade _).symm
  valid := (made_eq_iff.mp hmade).2.2.2.2 ▸ h.valid

variable {w : World}

theorem Agrees.change (h : Agrees fresh w) {state : EngramHashState} {retained : TokenMatrix}
    {checkpoint : Option Nat} (hmade : state.made = w.state.made) (hretains : state.Retains retained)
    (hbatch : 0 < retained.width → 0 < retained.batch)
    (hspec : state.Speculates retained checkpoint) :
    Agrees fresh { w with state, retained, checkpoint } where
  inside := h.inside
  made := hmade.trans h.made
  retains := hretains
  batch := hbatch
  speculates := hspec
  saved := h.saved

theorem Retains.of_eq (hr : st.Retains m) (hmade : st'.made = st.made) (hbatch : st'.batch = st.batch)
    (hposition : st'.position = st.position) (hcontext : st'.context = st.context) :
    st'.Retains m where
  batch := hbatch.trans hr.batch
  position := hposition.trans hr.position
  context := by rw [hcontext, hr.context, contextAt_congr hmade]
  valid := (made_eq_iff.mp hmade).2.2.2.2 ▸ hr.valid

/-! ### Single calls -/

theorem Retains.begin (hr : st.Retains m) (hbegin : st.beginSpeculative = .ok st') :
    st'.made = st.made ∧ st'.Retains m ∧ st'.Speculates m (some m.width) := by
  obtain ⟨-, hok⟩ := guard_eq_ok.mp hbegin
  obtain rfl := Except.ok.inj hok
  refine ⟨rfl, hr.of_eq rfl rfl rfl rfl, Nat.le_refl _, congrArg Nat.cast hr.position,
    congrArg some hr.context, ?_⟩
  refine (flatMap_eq_nil_iff.mpr fun bi _ => ?_).symm
  exact drop_eq_nil_of_le (Nat.le_of_eq TokenMatrix.length_row)

theorem contextAt_append {position : Nat} (h : position ≤ m.width) :
    st.contextAt (m.append c) position = st.contextAt m position := by
  refine flatMap_congr fun bi _ => ?_
  rw [TokenMatrix.row_append, ← window_take, take_append_of_le_length (by simpa using h),
    window_take]

/-- A call inside the window lengthens the journal of each row. -/
theorem Speculates.after {checkpoint : Option Nat} (hspec : st.Speculates m checkpoint)
    (hr : st.Retains m) (hc : c.batch = m.batch) :
    (st.after c).Speculates (m.append c) checkpoint := by
  obtain ⟨kept, hkept⟩ := st.after_eq c
  have hmade : (st.after c).made = st.made := by
    rw [hkept]
    rfl
  cases checkpoint with
  | none =>
    rw [hkept]
    exact hspec
  | some start =>
    obtain ⟨hstart, hposition, hcontext, htokens⟩ := hspec
    have hwidth : (m.append c).width = m.width + c.width := rfl
    have hprevious : (st.position - st.speculativePosition).toNat = m.width - start := by
      rw [hr.position, hposition]
      omega
    refine ⟨by omega, ?_, ?_, ?_⟩
    · rw [hkept]
      exact hposition
    · rw [contextAt_congr hmade, contextAt_append hstart, hkept]
      exact hcontext
    · have hparameters : (st.after c).parameters = st.parameters := parameters_after
      rw [hparameters, EngramHashState.after, journal, hcontext]
      change ((List.range st.batch).flatMap fun bi =>
        part st.speculativeTokens (bi * (st.position - st.speculativePosition).toNat)
            (st.position - st.speculativePosition).toNat ++
          part (c.compressed st.parameters) (bi * c.width) c.width) = _
      rw [hr.batch, hprevious]
      refine flatMap_congr fun bi hbi => ?_
      have hbi := mem_range.mp hbi
      have hlength : ∀ bi < m.batch,
          ((m.row st.parameters bi).drop start).length = m.width - start := fun _ _ => by simp
      rw [htokens, part_row hlength hbi, part_compressed (hc ▸ hbi), TokenMatrix.row_append,
        drop_append_of_le_length (by simpa using hstart)]

theorem eq_map_range {xs : List Int} {n : Nat} (h : xs.length = n) :
    (List.range n).map (fun i => xs.getD i 0) = xs := by
  subst h
  refine ext_getElem (by simp) fun i hi hi' => ?_
  rw [getElem_map, getElem_range, getD_eq_getElem _ _ hi']

variable {position : Int}

/-- A rollback to a length that the window reaches finds the window of each row again. -/
theorem Speculates.rollback {start : Nat} (hspec : st.Speculates m (some start))
    (hr : st.Retains m) (hin : st.Inside) (hlow : start ≤ position) (hhigh : position ≤ m.width) :
    ∃ st', st.rollbackSpeculative position = .ok st' ∧ st'.made = st.made ∧
      (st'.position : Int) = position ∧ st'.speculativeContext = none ∧
      st'.Retains (m.first st'.position) := by
  obtain ⟨hstart, hposition, hsaved, htokens⟩ := hspec
  have hwidth := hr.position
  have hnonneg : ¬st.speculativePosition < 0 := by omega
  have hsame : (if position < 0 then st.speculativePosition else position) = position :=
    if_neg (by omega)
  have hplace : ¬(position < st.speculativePosition ∨ (st.position : Int) < position) := by omega
  have hdrafted : (st.position - st.speculativePosition).toNat = m.width - start := by omega
  have hkept : (position - st.speculativePosition).toNat = position.toNat - start := by omega
  have hlength : ∀ bi < m.batch, ((m.row st.parameters bi).drop start).length = m.width - start :=
    fun _ _ => by simp
  have hcomplete : ¬((position - st.speculativePosition).toNat ≠ 0 ∧
      st.speculativeTokens.length ≠ st.batch * (st.position - st.speculativePosition).toNat) := by
    rintro ⟨-, hne⟩
    rw [hdrafted, htokens, hr.batch] at hne
    exact hne (by simp [length_flatMap])
  have hrun : st.rollbackSpeculative position = .ok { st.commitSpeculative with
      position := position.toNat
      context := (List.range st.batch).flatMap fun bi => (List.range (st.maxNgramSize - 1)).map
        (st.rebuilt (st.contextAt m start) (position - st.speculativePosition).toNat
          (st.position - st.speculativePosition).toNat bi) } := by
    rw [rollbackSpeculative, hsaved]
    simp only [hsame]
    rw [if_neg hnonneg, if_neg hplace, if_neg hcomplete]
  refine ⟨_, hrun, rfl, Int.toNat_of_nonneg (by omega), rfl, ?_⟩
  refine
    { batch := hr.batch
      position := rfl
      context := ?_
      valid := hr.valid.first (show position.toNat ≤ m.width by omega) }
  change ((List.range st.batch).flatMap fun bi => (List.range (st.maxNgramSize - 1)).map
      (st.rebuilt (st.contextAt m start) (position - st.speculativePosition).toNat
        (st.position - st.speculativePosition).toNat bi)) =
    (List.range m.batch).flatMap fun bi =>
      window st.padId (st.maxNgramSize - 1) ((m.first position.toNat).row st.parameters bi)
        position.toNat
  rw [hr.batch, hdrafted, hkept]
  refine flatMap_congr fun bi hbi => ?_
  have hbi := mem_range.mp hbi
  have hrow : position.toNat ≤ (m.row st.parameters bi).length := by
    rw [TokenMatrix.length_row]
    omega
  rw [TokenMatrix.row_first (by omega), window_take, ← eq_map_range (length_window hrow)]
  refine map_congr_left fun column hcolumn => ?_
  have hcolumn := mem_range.mp hcolumn
  rw [getD_window_later (show start ≤ position.toNat by omega) hcolumn]
  unfold rebuilt
  simp only
  refine if_ctx_congr Iff.rfl (fun hlt => ?_) fun hge => ?_
  · exact getD_flatMap_range (fun _ _ => length_window_row hstart) hbi hlt 0
  · have hdraft : position.toNat - start + column - (st.maxNgramSize - 1) < m.width - start := by
      have := hin.two_le
      omega
    rw [htokens, Nat.add_sub_assoc (by omega)]
    exact getD_flatMap_range hlength hbi hdraft 0

/-- A rollback that succeeds goes to a length of the window. -/
theorem rollback_eq_ok (hback : st.rollbackSpeculative position = .ok st') :
    ∃ saved at', st.speculativeContext = some saved ∧ st.speculativePosition ≤ at' ∧
      at' ≤ st.position ∧ st.rollbackSpeculative at' = .ok st' := by
  cases hsaved : st.speculativeContext with
  | none =>
    rw [rollbackSpeculative, hsaved] at hback
    cases hback
  | some saved =>
    have hunfold : ∀ position', st.rollbackSpeculative position' = _ := fun position' => by
      rw [rollbackSpeculative, hsaved]
    have hcopy := hback
    rw [hunfold] at hback
    obtain ⟨hnonneg, hback⟩ := guard_eq_ok.mp hback
    obtain ⟨hplace, -⟩ := guard_eq_ok.mp hback
    refine ⟨saved, if position < 0 then st.speculativePosition else position, rfl,
      by omega, by omega, ?_⟩
    split
    next hdefault =>
      rw [hunfold] at hcopy ⊢
      simpa only [if_pos hdefault, if_neg hnonneg] using hcopy
    · exact hcopy

theorem Retains.snapshot (hr : st.Retains m) (htaken : st.snapshot = .ok taken) :
    st.Took taken m := by
  obtain ⟨-, hok⟩ := guard_eq_ok.mp htaken
  obtain rfl := Except.ok.inj hok
  exact
    { batch := congrArg Nat.cast hr.batch
      position := congrArg Nat.cast hr.position
      context := hr.context
      valid := hr.valid }

theorem Took.restore (h : st.Took taken m) (hrestore : st.restore taken = .ok st') :
    st'.made = st.made ∧ st'.Retains m ∧ st'.speculativeContext = none ∧ 0 < m.batch := by
  obtain ⟨hcheck, hok⟩ := guard_eq_ok.mp hrestore
  obtain rfl := Except.ok.inj hok
  have hbatch := h.batch
  have hposition := h.position
  refine ⟨rfl, ⟨?_, ?_, h.context, h.valid⟩, rfl, ?_⟩
  · change taken.batch.toNat = m.batch
    omega
  · change taken.position.toNat = m.width
    omega
  · simp only [not_or, not_le] at hcheck
    omega

variable {batch pos0 : Int}

theorem made_base : (st.base batch pos0).made = st.made := by
  unfold base
  split <;> rfl

theorem made_after : (st.after c).made = st.made := by
  obtain ⟨kept, hkept⟩ := st.after_eq c
  rw [hkept]
  rfl

/-- Where a call begins, the tokens are those before it. -/
theorem Agrees.base (h : Agrees fresh w) :
    Agrees fresh { w with
      state := w.state.base batch pos0
      retained := if pos0 = 0 then .none batch.toNat else w.retained
      checkpoint := if pos0 = 0 then none else w.checkpoint } := by
  by_cases hstart : pos0 = 0
  · have hstate : w.state.base batch pos0 = w.state.restarted batch.toNat := if_pos hstart
    rw [if_pos hstart, if_pos hstart, hstate]
    have hretains : (w.state.restarted batch.toNat).Retains (.none batch.toNat) :=
      @retains_restarted w.state (.none batch.toNat) rfl
    exact h.change rfl hretains (fun hlt => absurd hlt (Nat.not_lt_zero _)) rfl
  · have hstate : w.state.base batch pos0 = w.state := if_neg hstart
    rw [if_neg hstart, if_neg hstart, hstate]
    exact h

theorem Agrees.forward (h : Agrees fresh w) (ids : Option (List Int)) (batch tokens pos0 : Int)
    (mask : Option (List Bool)) :
    Agrees fresh (step w (.forward ids batch tokens pos0 mask)) := by
  change Agrees fresh { w with
    state := (w.state.forward ids batch tokens pos0 mask).2
    retained := retainedAfter w.retained (w.state.forward ids batch tokens pos0 mask).1 ids batch
      tokens pos0 mask
    checkpoint := if Begins ids batch tokens pos0 then none else w.checkpoint }
  by_cases hinput : ids.isSome = true ∧ 0 < batch ∧ 0 < tokens ∧ 0 ≤ pos0
  · obtain ⟨hids, hbatch, htokens, hpos⟩ := hinput
    obtain ⟨xs, rfl⟩ := Option.isSome_iff_exists.mp hids
    have hbegins : Begins (some xs) batch tokens pos0 ↔ pos0 = 0 :=
      ⟨fun h => h.2.2.2, fun h => ⟨rfl, hbatch, htokens, h⟩⟩
    simp only [hbegins]
    have hbase : Agrees fresh { w with
        state := w.state.base batch pos0
        retained := if pos0 = 0 then .none batch.toNat else w.retained
        checkpoint := if pos0 = 0 then none else w.checkpoint } := h.base
    by_cases hplace : (w.state.base batch pos0).batch = batch ∧
        (w.state.base batch pos0).position = pos0 ∧
        (TokenMatrix.ofCall xs mask batch.toNat tokens.toNat).Valid w.state.parameters
    · obtain ⟨hrows, hposition, hvalid⟩ := hplace
      have hrun := forward_eq (h.inside.congr h.made) hbase.retains hbatch htokens
        (hrows.symm.trans (congrArg Nat.cast hbase.retains.batch))
        (hposition.symm.trans (congrArg Nat.cast hbase.retains.position)) hvalid
      have hsame : (TokenMatrix.ofCall xs mask batch.toNat tokens.toNat).batch =
          (if pos0 = 0 then TokenMatrix.none batch.toNat else w.retained).batch := by
        rw [← hbase.retains.batch]
        change batch.toNat = (w.state.base batch pos0).batch
        omega
      rw [hrun]
      refine h.change (made_after.trans made_base) (hbase.retains.after hsame ?_) (fun _ => ?_)
        (hbase.speculates.after hbase.retains hsame)
      · rw [parameters_base]
        exact hvalid
      · have hpositive : 0 < batch.toNat := by omega
        exact Nat.lt_of_lt_of_eq hpositive hsame
    · have hfail : ∃ e, w.state.forward (some xs) batch tokens pos0 mask =
          (.error e, w.state.base batch pos0) := by
        rw [forward_in_range hbatch htokens hpos]
        by_cases hwhere : (w.state.base batch pos0).batch ≠ batch ∨
            (w.state.base batch pos0).position ≠ pos0 ∨ (w.state.base batch pos0).context = []
        · exact ⟨_, if_pos hwhere⟩
        · simp only [not_or, not_not] at hwhere
          have hinvalid : ¬(TokenMatrix.ofCall xs mask batch.toNat tokens.toNat).Valid
              w.state.parameters := fun hvalid => hplace ⟨hwhere.1, hwhere.2.1, hvalid⟩
          rw [if_neg (by simp only [not_or, not_not]; exact hwhere), if_neg hinvalid]
          exact ⟨_, rfl⟩
      obtain ⟨e, hfail⟩ := hfail
      have hkeep : retainedAfter w.retained (.error e) (some xs) batch tokens pos0 mask =
          if pos0 = 0 then .none batch.toNat else w.retained :=
        if_pos ⟨hids, hbatch, htokens⟩
      rw [hfail]
      simp only [hkeep]
      exact hbase
  · have hrefused : ids.isNone = true ∨ batch ≤ 0 ∨ tokens ≤ 0 ∨ pos0 < 0 := by
      cases ids with
      | none => exact Or.inl rfl
      | some xs =>
        simp only [Option.isSome_some, true_and, not_and_or, not_lt, not_le] at hinput
        exact Or.inr hinput
    have hrun : w.state.forward ids batch tokens pos0 mask =
        (.error (.invalidArgument "invalid Engram hash input"), w.state) := by
      rw [EngramHashState.forward, if_pos hrefused]
    have hkeep : retainedAfter w.retained
        (.error (.invalidArgument "invalid Engram hash input")) ids batch tokens pos0 mask =
          w.retained := by
      by_cases hpart : ids.isSome = true ∧ 0 < batch ∧ 0 < tokens
      · have hnegative : pos0 < 0 := by
          by_contra hge
          exact hinput ⟨hpart.1, hpart.2.1, hpart.2.2, not_lt.mp hge⟩
        rw [retainedAfter]
        simp only [if_pos hpart]
        exact if_neg hnegative.ne
      · exact if_neg hpart
    have hno : ¬Begins ids batch tokens pos0 := fun hbegins =>
      hinput ⟨hbegins.1, hbegins.2.1, hbegins.2.2.1, hbegins.2.2.2.ge⟩
    rw [hrun, if_neg hno]
    simp only [hkeep]
    exact h

/-! ### Runs -/

theorem Agrees.step (h : Agrees fresh w) (op : Op) : Agrees fresh (step w op) := by
  cases op with
  | forward ids batch tokens pos0 mask => exact h.forward ids batch tokens pos0 mask
  | preview => exact h
  | commitSpeculative =>
    exact h.change rfl (h.retains.of_eq rfl rfl rfl rfl) h.batch rfl
  | reset batch =>
    rw [NgramHash.step]
    split
    · exact h
    next state hreset =>
      obtain ⟨-, hok⟩ := guard_eq_ok.mp hreset
      obtain rfl := Except.ok.inj hok
      have hbase : Agrees fresh { w with
          state := w.state.base batch 0
          retained := if (0 : Int) = 0 then .none batch.toNat else w.retained
          checkpoint := if (0 : Int) = 0 then none else w.checkpoint } := h.base
      exact hbase
  | beginSpeculative =>
    rw [NgramHash.step]
    split
    · exact h
    next state hbegin =>
      obtain ⟨hmade, hretains, hspec⟩ := h.retains.begin hbegin
      exact h.change hmade hretains h.batch hspec
  | rollbackSpeculative position =>
    rw [NgramHash.step]
    split
    · exact h
    next state hback =>
      obtain ⟨saved, at', hsaved, hlow, hhigh, hrun⟩ := rollback_eq_ok hback
      have hspec := h.speculates
      cases hcheckpoint : w.checkpoint with
      | none =>
        rw [hcheckpoint] at hspec
        exact nomatch hsaved.symm.trans hspec
      | some start =>
        rw [hcheckpoint] at hspec
        rw [hspec.2.1] at hlow
        rw [h.retains.position] at hhigh
        obtain ⟨st', hok, hmade, hposition, hnone, hretains⟩ :=
          hspec.rollback h.retains (h.inside.congr h.made) hlow hhigh
        obtain rfl : state = st' := Except.ok.inj (hrun.symm.trans hok)
        have hle : state.position ≤ w.retained.width := by omega
        exact h.change hmade hretains (fun hpositive => h.batch (hpositive.trans_le hle)) hnone
  | snapshot =>
    rw [NgramHash.step]
    split
    · exact h
    next taken htaken =>
      refine ⟨h.inside, h.made, h.retains, h.batch, h.speculates,
        forall_mem_append.mpr ⟨h.saved, forall_mem_singleton.mpr ?_⟩⟩
      exact (h.retains.snapshot htaken).congr h.made.symm
  | restore index =>
    rw [NgramHash.step]
    split
    · exact h
    next taken retained hsaved =>
      split
      · exact h
      next state hrestore =>
        have htook := (h.saved _ (mem_of_getElem? hsaved)).congr h.made
        obtain ⟨hmade, hretains, hnone, hbatch⟩ := htook.restore hrestore
        exact h.change hmade hretains (fun _ => hbatch) hnone

theorem Agrees.run (h : Agrees fresh w) (ops : List Op) : Agrees fresh (run w ops) := by
  induction ops generalizing w with
  | nil => exact h
  | cons op ops ih => exact ih (h.step op)

/-! ### The tokens again, from the start -/

/-- The state after the tokens from the start, in one call. -/
def forwarded (st : EngramHashState) (m : TokenMatrix) : EngramHashState :=
  if m.width = 0 then st.restarted m.batch
  else (st.forward (some m.ids) m.batch m.width 0 (some m.mask)).2

theorem forwarded_retains (hin : st.Inside) (hbatch : 0 < m.width → 0 < m.batch)
    (hvalid : m.Valid st.parameters) : (st.forwarded m).Retains m ∧ (st.forwarded m).made = st.made ∧
      (0 < m.width → ∃ result,
        (st.forward (some m.ids) m.batch m.width 0 (some m.mask)).1 = .ok result) := by
  by_cases hwidth : m.width = 0
  · rw [forwarded, if_pos hwidth]
    exact ⟨retains_restarted hwidth, rfl, fun h => absurd hwidth h.ne'⟩
  · have hpositive : 0 < m.width := Nat.pos_of_ne_zero hwidth
    have hstart : (st.base m.batch ↑(0 : Nat)).Retains (m.first 0) :=
      @retains_restarted st (m.first 0) rfl
    obtain ⟨result, next, hrun, -, -, hnext, hretains⟩ :=
      @forward_columns st m hin (hbatch hpositive) hvalid true (fun h => by cases h) 0 m.width
        hpositive (by omega) hstart
    have hwhole : st.forward (some m.ids) m.batch m.width 0 (some m.mask) = (.ok result, next) := by
      have hcolumns : m.columns 0 m.width = m := by
        simp [TokenMatrix.columns]
      rw [hcolumns] at hrun
      exact hrun
    rw [Nat.zero_add] at hretains
    rw [forwarded, if_neg hwidth, hwhole]
    exact ⟨hretains, hnext ▸ made_after.trans made_base, fun _ => ⟨result, rfl⟩⟩

/-- The batch, position and context that two states agree on. -/
def SameHistory (st st' : EngramHashState) : Prop :=
  st.batch = st'.batch ∧ st.position = st'.position ∧ st.context = st'.context

theorem Retains.sameHistory (hr : st.Retains m) (hr' : st'.Retains m) (hmade : st'.made = st.made) :
    st.SameHistory st' :=
  ⟨hr.batch.trans hr'.batch.symm, hr.position.trans hr'.position.symm,
    hr.context.trans ((contextAt_congr hmade _).symm.trans hr'.context.symm)⟩

/-- What is hashed does not depend on the window of speculation. -/
theorem forwardTokens_commit (compressed : List Int) (tokens : Nat) :
    (st.commitSpeculative.forwardTokens compressed tokens).1 =
      (st.forwardTokens compressed tokens).1 := by
  obtain ⟨kept, hkept⟩ := st.journal_eq compressed tokens
  have hcommit : st.commitSpeculative.journal compressed tokens = st.commitSpeculative := rfl
  unfold forwardTokens
  rw [hkept, hcommit]
  by_cases hbound : 32 < st.maxNgramSize
  · have hcommitted : 32 < st.commitSpeculative.maxNgramSize := hbound
    simp only [if_pos hbound, if_pos hcommitted]
  · have hcommitted : ¬32 < st.commitSpeculative.maxNgramSize := hbound
    by_cases hfits : st.Exceeds compressed st.batch tokens
    · have hkeeps : ({ st with speculativeTokens := kept } : EngramHashState).Exceeds compressed
          st.batch tokens := hfits
      have hdrops : st.commitSpeculative.Exceeds compressed st.commitSpeculative.batch tokens :=
        hfits
      simp only [if_neg hbound, if_neg hcommitted, if_pos hkeeps, if_pos hdrops]
    · have hkeeps : ¬({ st with speculativeTokens := kept } : EngramHashState).Exceeds compressed
          st.batch tokens := hfits
      have hdrops : ¬st.commitSpeculative.Exceeds compressed st.commitSpeculative.batch tokens :=
        hfits
      simp only [if_neg hbound, if_neg hcommitted, if_neg hkeeps, if_neg hdrops]
      rfl

theorem preview_eq (st : EngramHashState) (ids : Option (List Int)) (batch tokens pos0 : Int) :
    st.preview ids batch tokens pos0 = (st.forward ids batch tokens pos0 none).1 := by
  by_cases hinput : ids.isNone = true ∨ batch ≤ 0 ∨ tokens ≤ 0 ∨ pos0 < 0
  · rw [preview, forward, forward, if_pos hinput, if_pos hinput]
  · cases ids with
    | none => exact absurd (Or.inl rfl) hinput
    | some xs =>
      simp only [not_or, not_le, not_lt] at hinput
      obtain ⟨-, hbatch, htokens, hpos⟩ := hinput
      rw [preview, forward_in_range hbatch htokens hpos, forward_in_range hbatch htokens hpos]
      by_cases hstart : pos0 = 0
      · have hsame : st.commitSpeculative.base batch pos0 = st.base batch pos0 := by
          rw [base, base, if_pos hstart, if_pos hstart]
          rfl
        rw [hsame]
        rfl
      · have hbase : st.base batch pos0 = st := if_neg hstart
        have hcommit : st.commitSpeculative.base batch pos0 = st.commitSpeculative :=
          if_neg hstart
        rw [hbase, hcommit]
        by_cases hplace : st.batch ≠ batch ∨ st.position ≠ pos0 ∨ st.context = []
        · have hcommitted : st.commitSpeculative.batch ≠ batch ∨
              st.commitSpeculative.position ≠ pos0 ∨ st.commitSpeculative.context = [] := hplace
          rw [if_pos hplace, if_pos hcommitted]
        · have hcommitted : ¬(st.commitSpeculative.batch ≠ batch ∨
              st.commitSpeculative.position ≠ pos0 ∨ st.commitSpeculative.context = []) := hplace
          have hparameters : st.commitSpeculative.parameters = st.parameters := rfl
          rw [if_neg hplace, if_neg hcommitted, hparameters]
          split
          · exact forwardTokens_commit _ _
          · rfl

/-! ### Chunking and rollback -/

/-- However the columns of a matrix are split into calls, what they give for a row of a table, put
together, is what one call gives: the hashes that the row defines. -/
def ChunksAgree (st : EngramHashState) : Prop :=
  ∀ (m : TokenMatrix) (masked : Bool) (widths : List Nat), 0 < m.batch → m.Valid st.parameters →
    (masked = false → ∀ bi column, m.image bi column = false) →
    widths ≠ [] → (∀ width ∈ widths, 0 < width) → widths.sum = m.width →
    ∃ (results : List EngramHashBatch) (whole : EngramHashBatch),
      (st.forwardChunks m masked 0 widths).1 = results.map .ok ∧
      (st.forward (some m.ids) m.batch m.width 0 (if masked then some m.mask else none)).1 =
        .ok whole ∧
      results.map EngramHashBatch.tokens = widths ∧ whole.tokens = m.width ∧
      (∀ result ∈ whole :: results, result.batch = m.batch ∧
        result.layers = st.parameters.layerIds.length ∧ result.columns = st.columns) ∧
      ∀ layer < st.parameters.layerIds.length, ∀ bi < m.batch,
        results.flatMap (layerRow layer bi) = layerRow layer bi whole ∧
        layerRow layer bi whole = (List.range m.width).flatMap fun position =>
          st.tokenHashes (m.row st.parameters bi) position layer

/-- The same of `ngram_hashes`, when each call is handed the context of the one before. -/
def NgramChunksAgree : Prop :=
  ∀ (p : NgramParameters) (m : TokenMatrix) (context : NgramContext) (cache : Bool)
    (widths : List Nat), p.Fits → 0 < m.batch → context.batch ≠ m.batch →
    widths ≠ [] → (∀ width ∈ widths, 0 < width) → widths.sum = m.width →
    ∃ results next whole, ngramChunks p m context 0 widths = .ok (results, next) ∧
      ngramHashes p m.ids m.batch m.width context cache = .ok whole ∧
      ∀ bi < m.batch,
        (List.zipWith (hashRow p bi) results widths).flatten = hashRow p bi whole.ids m.width ∧
        hashRow p bi whole.ids m.width =
          (List.range m.width).flatMap fun position => p.tokenHashes (m.raw bi) position

/-- The values that `restore` accepts in a context. -/
def Accepts (st : EngramHashState) (value : Int) : Prop :=
  kDeadToken ≤ value ∧ value < st.vocabulary

/-- After any calls the history is that of the tokens retained, forwarded from the start.  A window
is opened when there are tokens and none is open, and a rollback to any length from its checkpoint
on succeeds.  A snapshot is taken of a session with no window open, and going back to one succeeds
when the tables hold values of the vocabulary.  A preview is what `forward` returns. -/
def RunsAgree (fresh : EngramHashState) : Prop :=
  ∀ (saved : List (EngramHashSnapshot × TokenMatrix)) (ops : List Op),
    (∀ taken ∈ saved, fresh.Took taken.1 taken.2) →
    let w := NgramHash.run ⟨fresh.made, .none 0, saved, none⟩ ops
    (w.state.SameHistory (fresh.made.forwarded w.retained) ∧
      (0 < w.retained.width → ∃ result, (fresh.made.forward (some w.retained.ids) w.retained.batch
        w.retained.width 0 (some w.retained.mask)).1 = .ok result)) ∧
    ((∃ state, w.state.beginSpeculative = .ok state) ↔
      w.checkpoint = none ∧ 0 < w.retained.width) ∧
    (∀ start ∈ w.checkpoint, start ≤ w.retained.width ∧ ∀ position : Int,
      start ≤ position → position ≤ w.retained.width →
      ∃ state, w.state.rollbackSpeculative position = .ok state ∧ state.position = position ∧
        state.SameHistory (fresh.made.forwarded (w.retained.first position.toNat))) ∧
    ((∃ taken, w.state.snapshot = .ok taken) ↔ w.checkpoint = none ∧ 0 < w.retained.batch) ∧
    (∀ taken ∈ w.saved, 0 < taken.2.batch → fresh.Accepts fresh.padId →
      (∀ value ∈ fresh.parameters.tokenMap, fresh.Accepts value) →
      ∃ state, w.state.restore taken.1 = .ok state ∧
        state.SameHistory (fresh.made.forwarded taken.2)) ∧
    ∀ ids batch tokens pos0,
      w.state.preview ids batch tokens pos0 = (w.state.forward ids batch tokens pos0 none).1

theorem Inside.chunksAgree (h : st.Inside) : st.ChunksAgree := by
  intro m masked widths hbatch hvalid hmask hwidths hpositive hsum
  have hstart : (st.base m.batch ↑(0 : Nat)).Retains (m.first 0) :=
    @retains_restarted st (m.first 0) rfl
  obtain ⟨results, hresults, htokens, hshape, hrows, -⟩ :=
    forwardChunks_eq hbatch hmask hpositive (by omega) h hvalid hstart
  have hwide : 0 < m.width := by
    obtain ⟨width, rest, rfl⟩ := exists_cons_of_ne_nil hwidths
    have hfirst := hpositive width mem_cons_self
    rw [sum_cons] at hsum
    omega
  obtain ⟨whole, next, hwhole, ⟨hwholeBatch, hwholeTokens, hwholeLayers, hwholeColumns⟩, hwholeRows,
    -, -⟩ := forward_columns h hbatch hvalid hmask hwide (by omega) hstart
  have hcolumns : m.columns 0 m.width = m := by
    simp [TokenMatrix.columns]
  rw [hcolumns] at hwhole
  refine ⟨results, whole, hresults, congrArg Prod.fst hwhole, htokens, hwholeTokens, ?_, ?_⟩
  · intro result hresult
    rcases mem_cons.mp hresult with rfl | hresult
    · exact ⟨hwholeBatch, hwholeLayers, hwholeColumns⟩
    · exact hshape result hresult
  · intro layer hlayer bi hbi
    rw [hrows layer hlayer bi hbi, hwholeRows layer hlayer bi hbi, hsum]
    refine ⟨rfl, ?_⟩
    simp only [rowSpec, Nat.zero_add]

theorem ngramChunksAgree : NgramChunksAgree := by
  intro p m context cache widths h hbatch hcontext hwidths hpositive hsum
  obtain ⟨results, next, hresults, hrows⟩ :=
    ngramChunks_eq h hbatch hpositive (by omega) (Or.inl ⟨rfl, Or.inr hcontext⟩)
  have hwide : 0 < m.width := by
    obtain ⟨width, rest, rfl⟩ := exists_cons_of_ne_nil hwidths
    have hfirst := hpositive width mem_cons_self
    rw [sum_cons] at hsum
    omega
  have hstart : Continues p m 0 context cache := Or.inl ⟨rfl, Or.inr hcontext⟩
  obtain ⟨whole, hwhole, hids, -⟩ := ngramHashes_columns h hbatch hwide (by omega) hstart
  have hcolumns : m.columns 0 m.width = m := by
    simp [TokenMatrix.columns]
  rw [hcolumns] at hwhole
  refine ⟨results, next, whole, hresults, hwhole, fun bi hbi => ?_⟩
  rw [hrows bi hbi, hids, hashRow_eq hbi, hsum]
  refine ⟨rfl, ?_⟩
  simp only [NgramParameters.rowSpec, Nat.zero_add]

theorem Speculates.isNone {checkpoint : Option Nat} (h : st.Speculates m checkpoint) :
    st.speculativeContext.isSome = checkpoint.isSome := by
  cases checkpoint with
  | none => rw [h, Option.isSome_none, Option.isSome_none]
  | some start => rw [h.2.2.1, Option.isSome_some, Option.isSome_some]

theorem Agrees.begin_iff (h : Agrees fresh w) :
    (∃ state, w.state.beginSpeculative = .ok state) ↔
      w.checkpoint = none ∧ 0 < w.retained.width := by
  have hopen := h.speculates.isNone
  have hbatch := h.batch
  constructor
  · rintro ⟨state, hbegin⟩
    obtain ⟨hguard, -⟩ := guard_eq_ok.mp hbegin
    simp only [not_or, hopen, Bool.not_eq_true, Option.isSome_eq_false_iff, Option.isNone_iff_eq_none,
      h.retains.position] at hguard
    exact ⟨hguard.2.2.2, Nat.pos_of_ne_zero hguard.2.1⟩
  · rintro ⟨hnone, hwidth⟩
    have hcontext := (h.inside.congr h.made).contextAt_ne_nil (hbatch hwidth) (Nat.le_refl _)
    refine ⟨_, if_neg ?_⟩
    rw [hopen, hnone, h.retains.batch, h.retains.position, h.retains.context]
    simp [(hbatch hwidth).ne', hwidth.ne', hcontext]

theorem Agrees.snapshot_iff (h : Agrees fresh w) :
    (∃ taken, w.state.snapshot = .ok taken) ↔ w.checkpoint = none ∧ 0 < w.retained.batch := by
  have hopen := h.speculates.isNone
  constructor
  · rintro ⟨taken, htaken⟩
    obtain ⟨hguard, -⟩ := guard_eq_ok.mp htaken
    simp only [not_or, hopen, Bool.not_eq_true, Option.isSome_eq_false_iff, Option.isNone_iff_eq_none,
      h.retains.batch] at hguard
    exact ⟨hguard.2, Nat.pos_of_ne_zero hguard.1⟩
  · rintro ⟨hnone, hbatch⟩
    refine ⟨_, if_neg ?_⟩
    rw [hopen, hnone, h.retains.batch]
    simp [hbatch.ne']

/-- A context holds padding, images and values of the token map. -/
theorem accepts_contextAt (hvalid : m.Valid st.parameters) (hpad : st.Accepts st.padId)
    (hmap : ∀ value ∈ st.parameters.tokenMap, st.Accepts value) :
    ∀ value ∈ st.contextAt m m.width, st.Accepts value := by
  intro value hvalue
  obtain ⟨bi, hbi, hvalue⟩ := mem_flatMap.mp hvalue
  have hpadded : value ∈ padded st.padId (st.maxNgramSize - 1) (m.row st.parameters bi) :=
    mem_of_mem_drop (mem_of_mem_take hvalue)
  rcases mem_append.mp hpadded with hvalue | hvalue
  · exact eq_of_mem_replicate hvalue ▸ hpad
  · obtain ⟨column, hcolumn, rfl⟩ := mem_map.mp hvalue
    obtain ⟨hlow, hhigh⟩ := hvalid bi (mem_range.mp hbi) column (mem_range.mp hcolumn)
    unfold TokenMatrix.token
    split
    · exact ⟨Int.le_refl _, hpad.1.trans_lt hpad.2⟩
    · rw [getD_eq_getElem _ _ (by omega)]
      exact hmap _ (getElem_mem _)

theorem Took.restores (h : st.Took taken m) (hmade : st'.made = st.made) (hbatch : 0 < m.batch)
    (hpad : st.Accepts st.padId) (hmap : ∀ value ∈ st.parameters.tokenMap, st.Accepts value) :
    ∃ state, st'.restore taken = .ok state := by
  obtain ⟨hvocabulary, hn, -, -, -⟩ := made_eq_iff.mp hmade
  have hbatch' := h.batch
  have hposition := h.position
  have haccepts := accepts_contextAt h.valid hpad hmap
  rw [← h.context] at haccepts
  refine ⟨_, if_neg ?_⟩
  rw [hvocabulary, hn]
  rintro (hlow | hlow | hlength | ⟨value, hvalue, hout⟩)
  · omega
  · omega
  · rw [h.context, length_contextAt (Nat.le_refl _), hbatch', Int.toNat_natCast] at hlength
    exact hlength rfl
  · obtain ⟨hge, hlt⟩ := haccepts value hvalue
    omega

theorem Inside.runsAgree (h : fresh.Inside) : fresh.RunsAgree := by
  intro saved ops hsaved w
  have hstart : Agrees fresh ⟨fresh.made, .none 0, saved, none⟩ :=
    { inside := h
      made := rfl
      retains := ⟨rfl, rfl, rfl, fun _ hbi => absurd hbi (Nat.not_lt_zero _)⟩
      batch := fun hlt => absurd hlt (Nat.not_lt_zero _)
      speculates := rfl
      saved := hsaved }
  have hw : Agrees fresh w := hstart.run ops
  have hmade : w.state.made = fresh.made.made := hw.made
  have hinside : fresh.made.Inside := h.congr rfl
  have hparameters : w.state.parameters = fresh.made.parameters := (made_eq_iff.mp hmade).2.2.2.2
  have hvalid : w.retained.Valid fresh.made.parameters := hparameters ▸ hw.retains.valid
  obtain ⟨hagain, hagainMade, hok⟩ := forwarded_retains hinside hw.batch hvalid
  refine ⟨⟨hw.retains.sameHistory hagain (hagainMade.trans hmade.symm), hok⟩, hw.begin_iff, ?_,
    hw.snapshot_iff, ?_, preview_eq w.state⟩
  · intro start hcheckpoint
    have hspec : w.state.Speculates w.retained (some start) := hcheckpoint ▸ hw.speculates
    refine ⟨hspec.1, fun position hlow hhigh => ?_⟩
    obtain ⟨state, hback, hstateMade, hposition, -, hretains⟩ :=
      hspec.rollback hw.retains (h.congr hw.made) hlow hhigh
    have hnat : position.toNat = state.position := by omega
    have hle : state.position ≤ w.retained.width := by omega
    obtain ⟨hshort, hshortMade, -⟩ := @forwarded_retains fresh.made
      (w.retained.first state.position) hinside
      (fun hpos => hw.batch (Nat.lt_of_lt_of_le hpos hle)) (hvalid.first hle)
    refine ⟨state, hback, hposition, ?_⟩
    rw [hnat]
    exact hretains.sameHistory hshort (hshortMade.trans (hmade.symm.trans hstateMade.symm))
  · intro taken htaken hbatch hpad hmap
    have htook := hw.saved taken htaken
    obtain ⟨state, hrestore⟩ := htook.restores hw.made hbatch hpad hmap
    obtain ⟨hstateMade, hretains, -⟩ := (htook.congr hw.made).restore hrestore
    obtain ⟨hsaved, hsavedMade, -⟩ :=
      @forwarded_retains fresh.made taken.2 hinside (fun _ => hbatch) htook.valid
    exact ⟨state, hrestore,
      hretains.sameHistory hsaved (hsavedMade.trans (hmade.symm.trans hstateMade.symm))⟩

end EngramHashState

/-- The hashes do not depend on the chunks, and the history is that of the tokens retained. -/
theorem ngram_hashes_chunk_and_roll_back (st : EngramHashState) (h : st.Inside) :
    st.ChunksAgree ∧ EngramHashState.NgramChunksAgree ∧ st.RunsAgree :=
  ⟨h.chunksAgree, EngramHashState.ngramChunksAgree, h.runsAgree⟩

/-- A table of five rows, and two tokens a hash. -/
def sampleState : EngramHashState where
  vocabulary := 8
  maxNgramSize := 2
  heads := 1
  padId := 0
  parameters :=
    { layerIds := [0]
      tableRows := [5]
      primes := [5]
      offsets := [0]
      multipliers := [3, 7]
      tokenMap := [0, 1, 2] }

/-- Two tokens, and a third one in a window. -/
def sampleOps : List Op :=
  [.forward (some [1, 2]) 1 2 0 none, .beginSpeculative, .forward (some [0]) 1 1 2 none]

/-- The theorem, and a run of it with a window to roll back. -/
theorem ngram_hashes_chunk_and_roll_back_sample :
    (sampleState.ChunksAgree ∧ EngramHashState.NgramChunksAgree) ∧
      ∃ state, (run ⟨sampleState.made, .none 0, [], none⟩
        sampleOps).state.rollbackSpeculative 3 = .ok state ∧ state.position = (3 : Int) := by
  have h := ngram_hashes_chunk_and_roll_back sampleState ⟨by decide, by decide, by decide⟩
  refine ⟨⟨h.1, h.2.1⟩, ?_⟩
  obtain ⟨-, -, hrollback, -⟩ := h.2.2 [] sampleOps (by simp)
  obtain ⟨state, hback, hposition, -⟩ := (hrollback 2 (by decide)).2 3 (by decide) (by decide)
  exact ⟨state, hback, hposition⟩

end TyloQuant.NgramHash
