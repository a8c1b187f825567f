import TyloQuant.Shards.AllOrNothing

/-!
# `finalize` and `write_blob_record_shards`

Both functions check what is there, stage the new files and publish them.  What goes before the
first rename onto a destination only writes temporaries, so an error there keeps the set; from
then on `PublishesWell` decides.

The two differ in what they take for stale.  `finalize` always looks for the plain output, while
`write_blob_record_shards` looks for it only when it writes no shards, so an older plain file
stays beside the shards; and neither finds the shards of an output whose own name does not carry
its suffix in lower case.
-/

namespace TyloQuant.Shards

open Lib List

variable (fails : Step → Bool)

/-! ### Calls before the publication -/

theorem attempt_bind {α : Type} (step : Step) (f : PUnit → Call ShardError Dir α) (dir : Dir) :
    (attempt fails step >>= f) dir =
      if fails step then some (.error .os, dir) else f PUnit.unit dir := by
  have hrun := attempt_run fails step dir
  split
  · rename_i hfail
    rw [if_pos hfail] at hrun
    exact Call.bind_some.mpr (Or.inl ⟨_, hrun, rfl⟩)
  · rename_i hfail
    rw [if_neg hfail] at hrun
    exact Call.bind_returns hrun

theorem lift_bind_ok {α β : Type} {x : Except ShardError α} {a : α} (hx : x = .ok a)
    (f : α → Call ShardError Dir β) (dir : Dir) : (lift x >>= f) dir = f a dir := by
  rw [hx]
  rfl

theorem lift_bind_error {α β : Type} {x : Except ShardError α} {e : ShardError}
    (hx : x = .error e) (f : α → Call ShardError Dir β) (dir : Dir) :
    (lift x >>= f) dir = some (.error e, dir) := by
  rw [hx]
  rfl

variable {output : Name} {destinations : List Name} {sharded : Bool} {count : Nat}

theorem destinations_of_ok (h : destinationsOf output sharded count = .ok destinations) :
    Destinations output destinations := by
  rw [destinationsOf] at h
  split at h
  · cases h
    exact ⟨nodup_singleton _, fun d hd => Or.inl (mem_singleton.mp hd)⟩
  · have hall := mapM_eq_ok.mp h
    refine ⟨nodup_of_forall₂ hall nodup_range fun hi hj => ?_, fun d hd => Or.inr ?_⟩
    · exact Nat.succ.inj (formatShardPath_inj hi hj)
    · obtain ⟨i, hi, rfl⟩ := mem_iff_getElem.mp hd
      have hlength := hall.length_eq
      exact ⟨_, _, hall.get (by omega) hi⟩

/-! ### Staging the payload files -/

theorem handAll_ok (pairs : List (Name × List UInt8)) :
    ∀ (index : Nat) (dir : Dir), (pairs.map Prod.fst).Nodup →
      (∀ j, index ≤ j → j < index + pairs.length → fails (.hand j) = false) →
      ∃ dir', handAll fails index pairs dir = some (.ok PUnit.unit, dir') ∧
        (∀ d, dir'.lookup (temporaryOf d) = (pairs.lookup d).or (dir.lookup (temporaryOf d))) ∧
        ∀ name, Apart (pairs.map Prod.fst) name → dir'.lookup name = dir.lookup name := by
  induction pairs with
  | nil => exact fun _ dir _ _ => ⟨dir, rfl, fun _ => rfl, fun _ _ => rfl⟩
  | cons pair rest ih =>
    obtain ⟨destination, content⟩ := pair
    intro index dir hnodup hsteps
    rw [map_cons, nodup_cons] at hnodup
    obtain ⟨dir', hrun, hhere, hothers⟩ := ih (index + 1)
      (dir.insert (temporaryOf destination) content) hnodup.2
      (fun j hlow hhigh => hsteps j (by omega) (by rw [length_cons]; omega))
    refine ⟨dir', ?_, fun d => ?_, fun name hname => ?_⟩
    · rw [handAll, attempt_bind, hsteps index le_rfl (by rw [length_cons]; omega),
        if_neg Bool.false_ne_true, Call.modify_bind, hrun]
    · rw [hhere d, Table.lookup_insert_ite, lookup_cons]
      by_cases heq : d = destination
      · subst heq
        have hnone : rest.lookup d = none := by
          rw [lookup_eq_none_iff]
          intro p hp
          refine bne_iff_ne.mpr fun hd => hnodup.1 ?_
          rw [hd]
          change p.1 ∈ rest.map Prod.fst
          exact mem_map_of_mem hp
        rw [hnone, if_pos rfl, beq_self_eq_true]
        rfl
      · rw [if_neg fun h => heq (temporaryOf_inj h), beq_false_of_ne heq]
    · rw [hothers name fun d hd => hname d (mem_cons_of_mem _ hd),
        Table.lookup_insert_ite, if_neg (hname destination mem_cons_self)]

theorem handAll_error (pairs : List (Name × List UInt8)) :
    ∀ (index : Nat) (dir : Dir),
      (∃ j, index ≤ j ∧ j < index + pairs.length ∧ fails (.hand j) = true) →
      ∃ e dir', handAll fails index pairs dir = some (.error e, dir') ∧
        ∀ name, Apart (pairs.map Prod.fst) name → dir'.lookup name = dir.lookup name := by
  induction pairs with
  | nil =>
    rintro index dir ⟨j, hlow, hhigh, -⟩
    rw [length_nil] at hhigh
    omega
  | cons pair rest ih =>
    obtain ⟨destination, content⟩ := pair
    rintro index dir ⟨j, hlow, hhigh, hfail⟩
    by_cases hfirst : fails (.hand index) = true
    · refine ⟨.os, dir, ?_, fun _ _ => rfl⟩
      rw [handAll, attempt_bind, if_pos hfirst]
    · have hne : j ≠ index := fun h => hfirst (h ▸ hfail)
      rw [length_cons] at hhigh
      obtain ⟨e, dir', hrun, hothers⟩ := ih (index + 1)
        (dir.insert (temporaryOf destination) content) ⟨j, by omega, by omega, hfail⟩
      refine ⟨e, dir', ?_, fun name hname => ?_⟩
      · rw [handAll, attempt_bind, if_neg hfirst, Call.modify_bind, hrun]
      · rw [hothers name fun d hd => hname d (mem_cons_of_mem _ hd),
          Table.lookup_insert_ite, if_neg (hname destination mem_cons_self)]

variable {contents : List (List UInt8)}

theorem newSet_isSome (hlength : contents.length = destinations.length) {d : Name}
    (hd : d ∈ destinations) :
    (newSet destinations contents d).isSome := by
  rw [Option.isSome_iff_ne_none]
  intro hnone
  rw [newSet, lookup_eq_none_iff] at hnone
  rw [← map_fst_zip hlength.ge] at hd
  obtain ⟨p, hp, rfl⟩ := mem_map.mp hd
  exact bne_iff_ne.mp (hnone p hp) rfl

variable {stage : Nat → Except ShardError (List UInt8)}

theorem length_contents {n : Nat} (h : (List.range n).mapM (stageFile stage) = .ok contents) :
    contents.length = n := by
  rw [← (mapM_eq_ok.mp h).length_eq, List.length_range]

/-- The payload files are all finished and handed over. -/
structure PayloadsReady (stage : Nat → Except ShardError (List UInt8)) (destinations : List Name)
    (contents : List (List UInt8)) : Prop where
  space : fails .diskSpace = false
  staged : (List.range destinations.length).mapM (stageFile stage) = .ok contents
  handed : ∀ j < destinations.length, fails (.hand j) = false

theorem finishPayloads_ok (dir : Dir) (hready : PayloadsReady fails stage destinations contents)
    (hnodup : destinations.Nodup) :
    ∃ dir', finishPayloads fails stage destinations dir = some (.ok PUnit.unit, dir') ∧
      Staged destinations contents dir dir' := by
  have hlength := length_contents hready.staged
  have hnames : (destinations.zip contents).map Prod.fst = destinations :=
    map_fst_zip hlength.ge
  obtain ⟨dir', hrun, hhere, hothers⟩ := handAll_ok fails (destinations.zip contents) 0 dir
    (by rw [hnames]; exact hnodup)
    (fun j _ hj => hready.handed j (by rw [length_zip] at hj; omega))
  refine ⟨dir', ?_, fun d hd => ?_, fun d hd => newSet_isSome hlength hd, fun name hname => ?_⟩
  · rw [finishPayloads, attempt_bind, hready.space, if_neg Bool.false_ne_true,
      lift_bind_ok hready.staged, hrun]
  · rw [hhere d]
    exact Option.or_of_isSome (newSet_isSome hlength hd)
  · exact hothers name (by rwa [hnames])

theorem finishPayloads_error (dir : Dir)
    (hready : ∀ contents, ¬PayloadsReady fails stage destinations contents) :
    ∃ e dir', finishPayloads fails stage destinations dir = some (.error e, dir') ∧
      ∀ name, Apart destinations name → dir'.lookup name = dir.lookup name := by
  rw [finishPayloads, attempt_bind]
  by_cases hspace : fails .diskSpace = true
  · rw [if_pos hspace]
    exact ⟨_, dir, rfl, fun _ _ => rfl⟩
  rw [if_neg hspace]
  rw [Bool.not_eq_true] at hspace
  cases hstaged : (List.range destinations.length).mapM (stageFile stage) with
  | error e =>
    rw [lift_bind_error rfl]
    exact ⟨e, dir, rfl, fun _ _ => rfl⟩
  | ok contents =>
    have hlength := length_contents hstaged
    have hnames : (destinations.zip contents).map Prod.fst = destinations :=
      map_fst_zip hlength.ge
    rw [lift_bind_ok rfl]
    have hhand : ∃ j, 0 ≤ j ∧ j < 0 + (destinations.zip contents).length ∧
        fails (.hand j) = true := by
      by_contra hnone
      refine hready contents ⟨hspace, hstaged, fun j hj => ?_⟩
      by_contra hfail
      refine hnone ⟨j, Nat.zero_le j, ?_, by simpa using hfail⟩
      rw [length_zip]
      omega
    have herror := handAll_error fails (destinations.zip contents) 0 dir hhand
    rwa [hnames] at herror

/-! ### Building the files -/

theorem buildAll_spec (stage : Nat → Except ShardError (List UInt8))
    (leftover : Nat → Option (List UInt8)) (destinations : List Name) :
    ∀ (index : Nat) (dir : Dir), destinations.Nodup →
      (∃ contents dir', (List.range' index destinations.length).mapM (stageFile stage) =
          .ok contents ∧
        buildAll stage leftover index destinations dir = some (.ok PUnit.unit, dir') ∧
        (∀ d, dir'.lookup (temporaryOf d) =
          (newSet destinations contents d).or (dir.lookup (temporaryOf d))) ∧
        ∀ name, Apart destinations name → dir'.lookup name = dir.lookup name) ∨
      ∃ e e' dir', (List.range' index destinations.length).mapM (stageFile stage) = .error e ∧
        buildAll stage leftover index destinations dir = some (.error e', dir') ∧
        ∀ name, Apart destinations name → dir'.lookup name = dir.lookup name := by
  induction destinations with
  | nil => exact fun _ dir _ => Or.inl ⟨[], dir, rfl, rfl, fun _ => rfl, fun _ _ => rfl⟩
  | cons destination rest ih =>
    intro index dir hnodup
    rw [nodup_cons] at hnodup
    rw [length_cons, range'_succ, mapM_cons, buildAll]
    cases hstage : stageFile stage index with
    | error e =>
      refine Or.inr ⟨e, ?_⟩
      dsimp only
      cases leftover index with
      | none => exact ⟨e, dir, rfl, rfl, fun _ _ => rfl⟩
      | some part =>
        refine ⟨e, dir.insert (temporaryOf destination) part, rfl, rfl, fun name hname => ?_⟩
        rw [Table.lookup_insert_ite, if_neg (hname destination mem_cons_self)]
    | ok content =>
      dsimp only
      rw [Call.modify_bind]
      rcases ih (index + 1) (dir.insert (temporaryOf destination) content) hnodup.2 with
        ⟨contents, dir', hstaged, hrun, hhere, hothers⟩ | ⟨e, e', dir', hstaged, hrun, hothers⟩
      · refine Or.inl ⟨content :: contents, dir', ?_, hrun, fun d => ?_, fun name hname => ?_⟩
        · exact bind_eq_ok.mpr ⟨content, rfl, bind_eq_ok.mpr ⟨contents, hstaged, rfl⟩⟩
        · have hcons : newSet (destination :: rest) (content :: contents) d =
              if d = destination then some content else newSet rest contents d := by
            rw [newSet, zip_cons_cons, lookup_cons]
            by_cases heq : d = destination
            · rw [if_pos heq, heq, beq_self_eq_true]
            · rw [if_neg heq, beq_false_of_ne heq]
              rfl
          rw [hhere d, hcons, Table.lookup_insert_ite]
          by_cases heq : d = destination
          · rw [heq, newSet_eq_none hnodup.1, if_pos rfl, if_pos rfl]
            rfl
          · rw [if_neg heq, if_neg fun h => heq (temporaryOf_inj h)]
        · rw [hothers name fun d hd => hname d (mem_cons_of_mem _ hd),
            Table.lookup_insert_ite, if_neg (hname destination mem_cons_self)]
      · refine Or.inr ⟨e, e', dir', ?_, hrun, fun name hname => ?_⟩
        · change (List.range' (index + 1) rest.length).mapM (stageFile stage) >>= _ = _
          rw [hstaged]
          rfl
        · rw [hothers name fun d hd => hname d (mem_cons_of_mem _ hd),
            Table.lookup_insert_ite, if_neg (hname destination mem_cons_self)]

/-- The files are all built and `before_publish` has accepted them. -/
structure FilesReady (stage : Nat → Except ShardError (List UInt8)) (destinations : List Name)
    (contents : List (List UInt8)) : Prop where
  staged : (List.range destinations.length).mapM (stageFile stage) = .ok contents
  accepted : fails .beforePublish = false

theorem buildFiles_ok (leftover : Nat → Option (List UInt8)) (dir : Dir)
    (hready : FilesReady fails stage destinations contents) (hnodup : destinations.Nodup) :
    ∃ dir', buildFiles fails stage leftover destinations dir = some (.ok PUnit.unit, dir') ∧
      Staged destinations contents dir dir' := by
  have hstaged := hready.staged
  rw [range_eq_range'] at hstaged
  have hlength := length_contents hready.staged
  rcases buildAll_spec stage leftover destinations 0 dir hnodup with
    ⟨contents', dir', hcontents, hrun, hhere, hothers⟩ | ⟨e, _, _, herror, -, -⟩
  · rw [hstaged] at hcontents
    cases hcontents
    refine ⟨dir', ?_, fun d hd => ?_, fun d hd => newSet_isSome hlength hd, hothers⟩
    · have hlast := attempt_run fails .beforePublish dir'
      rw [hready.accepted, if_neg Bool.false_ne_true] at hlast
      rw [buildFiles, Call.bind_returns hrun, hlast]
    · rw [hhere d]
      exact Option.or_of_isSome (newSet_isSome hlength hd)
  · rw [hstaged] at herror
    cases herror

theorem buildFiles_error (leftover : Nat → Option (List UInt8)) (dir : Dir)
    (hready : ∀ contents, ¬FilesReady fails stage destinations contents)
    (hnodup : destinations.Nodup) :
    ∃ e dir', buildFiles fails stage leftover destinations dir = some (.error e, dir') ∧
      ∀ name, Apart destinations name → dir'.lookup name = dir.lookup name := by
  rcases buildAll_spec stage leftover destinations 0 dir hnodup with
    ⟨contents, dir', hcontents, hrun, -, hothers⟩ | ⟨_, e', dir', -, hrun, hothers⟩
  · have haccepted : fails .beforePublish = true := by
      by_contra hfail
      refine hready contents ⟨?_, by simpa using hfail⟩
      rw [range_eq_range']
      exact hcontents
    have hlast := attempt_run fails .beforePublish dir'
    rw [haccepted, if_pos rfl] at hlast
    refine ⟨.os, dir', ?_, hothers⟩
    rw [buildFiles, Call.bind_returns hrun, hlast]
  · exact ⟨e', dir', Call.bind_some.mpr (Or.inl ⟨_, hrun, rfl⟩), hothers⟩

/-! ### Results -/

/-- An error before the publication. -/
def Kept (output : Name) (dir : Dir) (r : Except ShardError (List Name)) (dir' : Dir) : Prop :=
  (∃ e, r = .error e) ∧ ∀ name, InSet output name → dir'.lookup name = dir.lookup name

variable {dir : Dir}

theorem Kept.allOrNothing {dir' : Dir} {r : Except ShardError (List Name)}
    (h : Kept output dir r dir') (stage : Nat → Except ShardError (List UInt8)) :
    AllOrNothing output stage dir r dir' := by
  obtain ⟨⟨e, rfl⟩, hsame⟩ := h
  exact hsame

theorem Kept.refl (output : Name) (dir : Dir) (e : ShardError) :
    Kept output dir (.error e) dir := ⟨⟨e, rfl⟩, fun _ _ => rfl⟩

/-- The files have names, the checks pass, and no step fails until they have. -/
structure Prepared (plain sharded : Bool) (count : Nat) (output : Name) (overwrite : Bool)
    (dir : Dir) (destinations : List Name) : Prop where
  named : destinationsOf output sharded count = .ok destinations
  listed : fails .list = false
  checked : checkOutputs overwrite (staleOutputs plain output dir) destinations dir = .ok ()
  measured : fails .measure = false

theorem prepare_spec (plain sharded : Bool) (count : Nat) (output : Name) (overwrite : Bool)
    (dir : Dir) :
    (∃ destinations, Prepared fails plain sharded count output overwrite dir destinations ∧
      prepare fails plain sharded count output overwrite dir =
        some (.ok (staleOutputs plain output dir, destinations), dir)) ∨
    ∃ e, (∀ destinations, ¬Prepared fails plain sharded count output overwrite dir destinations) ∧
      prepare fails plain sharded count output overwrite dir = some (.error e, dir) := by
  rw [prepare]
  cases hnamed : destinationsOf output sharded count with
  | error e =>
    refine Or.inr ⟨e, fun _ h => ?_, lift_bind_error rfl _ _⟩
    have := h.named
    rw [hnamed] at this
    cases this
  | ok destinations =>
    rw [lift_bind_ok rfl, attempt_bind]
    by_cases hlist : fails .list = true
    · refine Or.inr ⟨.os, fun _ h => ?_, if_pos hlist⟩
      rw [h.listed] at hlist
      cases hlist
    rw [if_neg hlist, Call.get_bind]
    rw [Bool.not_eq_true] at hlist
    cases hchecked : checkOutputs overwrite (staleOutputs plain output dir) destinations dir with
    | error e =>
      refine Or.inr ⟨e, fun _ h => ?_, lift_bind_error rfl _ _⟩
      have hsame := h.named
      rw [hnamed] at hsame
      cases hsame
      have := h.checked
      rw [hchecked] at this
      cases this
    | ok _ =>
      rw [lift_bind_ok rfl, attempt_bind]
      by_cases hmeasure : fails .measure = true
      · refine Or.inr ⟨.os, fun _ h => ?_, if_pos hmeasure⟩
        rw [h.measured] at hmeasure
        cases hmeasure
      · rw [if_neg hmeasure]
        exact Or.inl ⟨destinations, ⟨hnamed, hlist, hchecked, by simpa using hmeasure⟩, rfl⟩

/-- What `finalize` needs to get to the first rename onto a destination: its checks pass, the
    payload files are finished, and no step until then fails. -/
structure Writer.Ready (stage : Nat → Except ShardError (List UInt8)) (output : Name)
    (overwrite : Bool) (assets : List BlobRecord) (w : Writer) (dir : Dir)
    (destinations : List Name) (contents : List (List UInt8)) : Prop where
  unfinished : w.finished = false
  reserved : ∀ record ∈ assets, isAssetRecord record.name = true
  opened : w.payloads = [] → fails .newPayload = false
  prepared : Prepared fails true w.sharded (max 1 w.payloads.length) output overwrite dir
    destinations
  payloads : PayloadsReady fails stage destinations contents

/-- What `write_blob_record_shards` needs. -/
structure WriteReady (stage : Nat → Except ShardError (List UInt8)) (output : Name)
    (records : List BlobRecord) (splitMaxSize splitMaxTensors : Int) (overwrite : Bool) (dir : Dir)
    (destinations : List Name) (contents : List (List UInt8)) : Prop where
  prepared : ∃ planned, planRecordShards records splitMaxSize splitMaxTensors = .ok planned ∧
    Prepared fails (!decide (splitMaxSize ≠ 0 ∨ splitMaxTensors ≠ 0))
      (decide (splitMaxSize ≠ 0 ∨ splitMaxTensors ≠ 0)) planned.length output overwrite dir
      destinations
  space : fails .diskSpace = false
  files : FilesReady fails stage destinations contents

variable {fails} {plain : Bool}

theorem Prepared.unique {overwrite : Bool} {destinations' : List Name}
    (h : Prepared fails plain sharded count output overwrite dir destinations)
    (h' : Prepared fails plain sharded count output overwrite dir destinations') :
    destinations = destinations' :=
  Except.ok.inj (h.named.symm.trans h'.named)

variable {arrange : List Name → List Name}

theorem finalizeOpened_spec (harrange : Arranges arrange)
    (stage : Nat → Except ShardError (List UInt8)) (output : Name) (overwrite : Bool) (w : Writer)
    (dir : Dir) :
    ∃ r dir', w.finalizeOpened fails arrange stage output overwrite dir = some (r, dir') ∧
      (AllOrNothing output stage dir r dir' ↔ ∀ destinations contents,
        Prepared fails true w.sharded w.payloads.length output overwrite dir destinations →
        PayloadsReady fails stage destinations contents →
        PublishesWell fails arrange [.consume, .removeWorkDir] output
          (staleOutputs true output dir) destinations contents dir) := by
  rw [Writer.finalizeOpened]
  rcases prepare_spec fails true w.sharded w.payloads.length output overwrite dir with
    ⟨destinations, hprepared, hrun⟩ | ⟨e, hnot, hrun⟩
  swap
  · refine ⟨.error e, dir, Call.bind_some.mpr (Or.inl ⟨e, hrun, rfl⟩), iff_of_true ?_ ?_⟩
    · exact (Kept.refl output dir e).allOrNothing stage
    · exact fun destinations _ h => absurd h (hnot destinations)
  have hdestinations := destinations_of_ok hprepared.named
  rw [Call.bind_returns hrun]
  by_cases hpayloads : ∃ contents, PayloadsReady fails stage destinations contents
  · obtain ⟨contents, hready⟩ := hpayloads
    obtain ⟨staged, hstaging, hstaged⟩ := finishPayloads_ok fails dir hready hdestinations.nodup
    obtain ⟨r, dir', hpublish, hiff⟩ := publishSet_of_staged fails [.consume, .removeWorkDir]
      [.cleanPayloads] hdestinations harrange (staleOutputs_spec true output dir).1
      (staleOutputs_spec true output dir).2 hstaging hstaged hready.staged
    refine ⟨r, dir', hpublish, hiff.trans ⟨fun h destinations' contents' hp hr => ?_, fun h => ?_⟩⟩
    · obtain rfl := hprepared.unique hp
      obtain rfl : contents = contents' := Except.ok.inj (hready.staged.symm.trans hr.staged)
      exact h
    · exact h destinations contents hprepared hready
  · rw [not_exists] at hpayloads
    obtain ⟨e, staged, hstaging, hsame⟩ := finishPayloads_error fails dir hpayloads
    obtain ⟨e', last, hpublish, hlast⟩ := publishSet_of_error fails arrange
      (staleOutputs true output dir) [.consume, .removeWorkDir] [.cleanPayloads] hdestinations
      hstaging hsame
    refine ⟨.error e', last, hpublish, iff_of_true ?_ fun destinations' contents hp hr => ?_⟩
    · exact Kept.allOrNothing ⟨⟨e', rfl⟩, hlast⟩ stage
    · obtain rfl := hprepared.unique hp
      exact absurd hr (hpayloads contents)

/-- An error before the publication keeps the set. -/
theorem allOrNothing_of_not_ready {output : Name} {dir dir' : Dir} {e : ShardError}
    {stage : Nat → Except ShardError (List UInt8)} {ready well : List Name → List (List UInt8) → Prop}
    (hsame : ∀ name, InSet output name → dir'.lookup name = dir.lookup name)
    (hnot : ∀ destinations contents, ¬ready destinations contents) :
    AllOrNothing output stage dir (.error e) dir' ↔
      ∀ destinations contents, ready destinations contents → well destinations contents :=
  iff_of_true hsame fun destinations contents h => absurd h (hnot destinations contents)

theorem finalize_spec (harrange : Arranges arrange) (stage : Nat → Except ShardError (List UInt8))
    (output : Name) (overwrite : Bool) (assets : List BlobRecord) (w : Writer) (dir : Dir) :
    ∃ r dir', w.finalize fails arrange stage output overwrite assets dir = some (r, dir') ∧
      (AllOrNothing output stage dir r dir' ↔ ∀ destinations contents,
        w.Ready fails stage output overwrite assets dir destinations contents →
        PublishesWell fails arrange [.consume, .removeWorkDir] output
          (staleOutputs true output dir) destinations contents dir) := by
  rw [Writer.finalize]
  by_cases hfinished : w.finished = true
  · rw [if_pos hfinished]
    refine ⟨_, dir, rfl, allOrNothing_of_not_ready (fun _ _ => rfl) fun _ _ h => ?_⟩
    rw [h.unfinished] at hfinished
    cases hfinished
  rw [if_neg hfinished]
  rw [Bool.not_eq_true] at hfinished
  by_cases hreserved : assets.any (fun record => !isAssetRecord record.name) = true
  · rw [if_pos hreserved]
    refine ⟨_, dir, rfl, allOrNothing_of_not_ready (fun _ _ => rfl) fun _ _ h => ?_⟩
    obtain ⟨record, hrecord, hname⟩ := any_eq_true.mp hreserved
    rw [h.reserved record hrecord] at hname
    cases hname
  rw [if_neg hreserved]
  have hassets : ∀ record ∈ assets, isAssetRecord record.name = true := by
    intro record hrecord
    by_contra hname
    exact hreserved (any_eq_true.mpr ⟨record, hrecord, by simpa using hname⟩)
  -- with a payload open, what is needed before the publication is what `Ready` says
  have hopened : ∀ w' : Writer, w'.sharded = w.sharded →
      w'.payloads.length = max 1 w.payloads.length →
      (w.payloads = [] → fails .newPayload = false) →
      ∃ r dir', w'.finalizeOpened fails arrange stage output overwrite dir = some (r, dir') ∧
        (AllOrNothing output stage dir r dir' ↔ ∀ destinations contents,
          w.Ready fails stage output overwrite assets dir destinations contents →
          PublishesWell fails arrange [.consume, .removeWorkDir] output
            (staleOutputs true output dir) destinations contents dir) := by
    intro w' hsharded hcount hnew
    obtain ⟨r, dir', hrun, hiff⟩ := finalizeOpened_spec harrange stage output overwrite w' dir
    rw [hsharded, hcount] at hiff
    refine ⟨r, dir', hrun, hiff.trans ⟨fun h destinations contents hready => ?_,
      fun h destinations contents hprepared hpayloads => ?_⟩⟩
    · exact h destinations contents hready.prepared hready.payloads
    · exact h destinations contents ⟨hfinished, hassets, hnew, hprepared, hpayloads⟩
  by_cases hempty : w.payloads = []
  · have hnew : w.newPayload = .ok { w with
        recordShards := w.recordShards ++ [[]]
        payloads := w.payloads ++ [[]]
        payloadSizes := w.payloadSizes ++ [0] } := by
      rw [Writer.newPayload, hempty]
      exact if_neg (by decide)
    rw [if_pos hempty, lift_bind_ok hnew, attempt_bind]
    by_cases hfail : fails .newPayload = true
    · rw [if_pos hfail]
      refine ⟨_, dir, rfl, allOrNothing_of_not_ready (fun _ _ => rfl) fun _ _ h => ?_⟩
      rw [h.opened hempty] at hfail
      cases hfail
    · rw [if_neg hfail]
      refine hopened _ rfl ?_ fun _ => by simpa using hfail
      rw [hempty]
      rfl
  · rw [if_neg hempty]
    refine hopened w rfl ?_ fun h => absurd h hempty
    have := length_pos_iff.mpr hempty
    omega

theorem write_spec (harrange : Arranges arrange) (stage : Nat → Except ShardError (List UInt8))
    (leftover : Nat → Option (List UInt8)) (output : Name) (records : List BlobRecord)
    (splitMaxSize splitMaxTensors : Int) (overwrite : Bool) (dir : Dir) :
    ∃ r dir', writeBlobRecordShards fails arrange stage leftover output records splitMaxSize
        splitMaxTensors overwrite dir = some (r, dir') ∧
      (AllOrNothing output stage dir r dir' ↔ ∀ destinations contents,
        WriteReady fails stage output records splitMaxSize splitMaxTensors overwrite dir
          destinations contents →
        PublishesWell fails arrange [.consume] output
          (staleOutputs (!decide (splitMaxSize ≠ 0 ∨ splitMaxTensors ≠ 0)) output dir)
          destinations contents dir) := by
  rw [writeBlobRecordShards]
  cases hplanned : planRecordShards records splitMaxSize splitMaxTensors with
  | error e =>
    refine ⟨_, dir, lift_bind_error rfl _ _,
      allOrNothing_of_not_ready (fun _ _ => rfl) fun _ _ h => ?_⟩
    obtain ⟨planned, h, -⟩ := h.prepared
    rw [hplanned] at h
    cases h
  | ok planned =>
    rw [lift_bind_ok rfl]
    rcases prepare_spec fails (!decide (splitMaxSize ≠ 0 ∨ splitMaxTensors ≠ 0))
      (decide (splitMaxSize ≠ 0 ∨ splitMaxTensors ≠ 0)) planned.length output overwrite dir with
      ⟨destinations, hprepared, hrun⟩ | ⟨e, hnot, hrun⟩
    swap
    · refine ⟨.error e, dir, Call.bind_some.mpr (Or.inl ⟨e, hrun, rfl⟩),
        allOrNothing_of_not_ready (fun _ _ => rfl) fun destinations _ h => ?_⟩
      obtain ⟨planned', h', hprepared⟩ := h.prepared
      rw [hplanned] at h'
      cases h'
      exact hnot destinations hprepared
    have hunique : ∀ {destinations' contents},
        WriteReady fails stage output records splitMaxSize splitMaxTensors overwrite dir
          destinations' contents → destinations = destinations' := by
      intro destinations' contents h
      obtain ⟨planned', h', hprepared'⟩ := h.prepared
      rw [hplanned] at h'
      cases h'
      exact hprepared.unique hprepared'
    have hdestinations := destinations_of_ok hprepared.named
    rw [Call.bind_returns hrun, attempt_bind]
    by_cases hspace : fails .diskSpace = true
    · rw [if_pos hspace]
      refine ⟨_, dir, rfl, allOrNothing_of_not_ready (fun _ _ => rfl) fun _ _ h => ?_⟩
      rw [h.space] at hspace
      cases hspace
    rw [if_neg hspace]
    rw [Bool.not_eq_true] at hspace
    by_cases hfiles : ∃ contents, FilesReady fails stage destinations contents
    · obtain ⟨contents, hready⟩ := hfiles
      obtain ⟨staged, hstaging, hstaged⟩ :=
        buildFiles_ok fails leftover dir hready hdestinations.nodup
      have hstale := staleOutputs_spec
        (!decide (splitMaxSize ≠ 0 ∨ splitMaxTensors ≠ 0)) output dir
      obtain ⟨r, dir', hpublish, hiff⟩ := publishSet_of_staged fails [.consume] []
        hdestinations harrange hstale.1 hstale.2 hstaging hstaged hready.staged
      refine ⟨r, dir', hpublish, hiff.trans ⟨fun h destinations' contents' hr => ?_, fun h => ?_⟩⟩
      · obtain rfl := hunique hr
        obtain rfl : contents = contents' :=
          Except.ok.inj (hready.staged.symm.trans hr.files.staged)
        exact h
      · exact h destinations contents ⟨⟨planned, hplanned, hprepared⟩, hspace, hready⟩
    · rw [not_exists] at hfiles
      obtain ⟨e, staged, hstaging, hsame⟩ :=
        buildFiles_error fails leftover dir hfiles hdestinations.nodup
      obtain ⟨e', last, hpublish, hlast⟩ := publishSet_of_error fails arrange
        (staleOutputs (!decide (splitMaxSize ≠ 0 ∨ splitMaxTensors ≠ 0)) output dir)
        [.consume] [] hdestinations hstaging hsame
      refine ⟨.error e', last, hpublish,
        allOrNothing_of_not_ready hlast fun destinations' contents h => ?_⟩
      obtain rfl := hunique h
      exact hfiles contents h.files

/-- Every old file of the set is found, but for a plain output that is not looked for, when the
    output is named with a suffix in lower case. -/
theorem recognised_iff (houtput : output ≠ []) (hline : '\n' ∉ output)
    (hlower : (splitSuffix output).2 ∈ mfqSuffixes) :
    Recognised output (staleOutputs plain output dir) destinations dir ↔
      plain = true ∨ output ∉ dir ∨ output ∈ destinations := by
  have hmatching : ∀ name, InSet output name → name ∈ dir → name ≠ output →
      name ∈ staleOutputs plain output dir := by
    intro name hin hdir hne
    have hfound : name ∈ matchingShardPaths output dir.keys := parse_of_matching.mpr
      ⟨AList.mem_keys.mp hdir, parse_of_inSet houtput hline hlower hin hne⟩
    unfold staleOutputs
    split
    · exact List.mem_insert_of_mem hfound
    · exact hfound
  have hself : output ∉ matchingShardPaths output dir.keys := by
    intro hmem
    obtain ⟨-, index, count, hparse⟩ := parse_of_matching.mp hmem
    have hshort := length_of_parse hparse
    omega
  constructor
  · intro h
    by_cases hdir : output ∈ dir
    swap
    · exact Or.inr (Or.inl hdir)
    rcases h output (Or.inl rfl) hdir with hstale | hnew
    · refine Or.inl ?_
      unfold staleOutputs at hstale
      split at hstale
      · rename_i hplain
        exact hplain.1
      · exact absurd hstale hself
    · exact Or.inr (Or.inr hnew)
  · intro h name hin hdir
    by_cases hne : name = output
    swap
    · exact Or.inl (hmatching name hin hdir hne)
    subst hne
    rcases h with hplain | hgone | hnew
    · refine Or.inl ?_
      rw [staleOutputs, if_pos ⟨hplain, hdir⟩]
      exact mem_insert_self
    · exact absurd hdir hgone
    · exact Or.inr hnew

/-- Both functions publish all or nothing exactly when `PublishesWell` holds of every publication
    they get to. -/
theorem publication_all_or_nothing_iff (fails : Step → Bool) {arrange : List Name → List Name}
    (harrange : Arranges arrange) (stage : Nat → Except ShardError (List UInt8)) (output : Name)
    (overwrite : Bool) (dir : Dir) :
    (∀ (assets : List BlobRecord) (w : Writer),
      ∃ r dir', w.finalize fails arrange stage output overwrite assets dir = some (r, dir') ∧
        (AllOrNothing output stage dir r dir' ↔ ∀ destinations contents,
          w.Ready fails stage output overwrite assets dir destinations contents →
          PublishesWell fails arrange [.consume, .removeWorkDir] output
            (staleOutputs true output dir) destinations contents dir)) ∧
    ∀ (leftover : Nat → Option (List UInt8)) (records : List BlobRecord)
      (splitMaxSize splitMaxTensors : Int),
      ∃ r dir', writeBlobRecordShards fails arrange stage leftover output records splitMaxSize
          splitMaxTensors overwrite dir = some (r, dir') ∧
        (AllOrNothing output stage dir r dir' ↔ ∀ destinations contents,
          WriteReady fails stage output records splitMaxSize splitMaxTensors overwrite dir
            destinations contents →
          PublishesWell fails arrange [.consume] output
            (staleOutputs (!decide (splitMaxSize ≠ 0 ∨ splitMaxTensors ≠ 0)) output dir)
            destinations contents dir) :=
  ⟨fun assets w => finalize_spec harrange stage output overwrite assets w dir,
    fun leftover records size count =>
      write_spec harrange stage leftover output records size count overwrite dir⟩

/-- `m.mfq`, in two shards. -/
def shardOne : Name := "m-00001-of-00002.mfq".toList

def shardTwo : Name := "m-00002-of-00002.mfq".toList

/-- A directory with an older set. -/
def olderSet : Dir := ((∅ : Dir).insert shardOne [1]).insert shardTwo [2]

/-- A directory with an older plain file. -/
def olderFile : Dir := (∅ : Dir).insert "m.mfq".toList [7]

/-- The plain file is there, is not looked for and gets no new bytes. -/
theorem recognised_iff_sample : ¬Recognised "m.mfq".toList
    (staleOutputs false "m.mfq".toList olderFile) [shardOne, shardTwo] olderFile :=
  (recognised_iff (by decide) (by decide) (by decide)).not.mpr (by decide)

/-- Every tensor in a shard of its own. -/
def twoPayloads : Writer where
  splitMaxSize := 0
  splitMaxTensors := 1
  recordShards := [[], []]
  payloads := [[], []]
  payloadSizes := [0, 0]

def twoRecords : List BlobRecord := [⟨"a", "U8", 1, .written [0]⟩, ⟨"b", "U8", 1, .written [0]⟩]

/-- The second rename fails: the first shard is new and the second is old.  And where nothing
    fails, the plain file stays beside the shards. -/
theorem publication_mixes_sets :
    ((twoPayloads.finalize (· == .publish 1) id (fun i => .ok [10 + i.toUInt8]) "m.mfq".toList true
        [] olderSet).map fun result =>
          (result.1.toOption, result.2.lookup shardOne, result.2.lookup shardTwo)) =
      some (none, some [10], some [2]) ∧
    ((writeBlobRecordShards (· == .publish 1) id (fun i => .ok [10 + i.toUInt8]) (fun _ => none)
        "m.mfq".toList twoRecords 0 1 true olderSet).map fun result =>
          (result.1.toOption, result.2.lookup shardOne, result.2.lookup shardTwo)) =
      some (none, some [10], some [2]) ∧
    (olderSet.lookup shardOne, olderSet.lookup shardTwo) = (some [1], some [2]) ∧
    (formatShardPath "m.mfq".toList 1 2).toOption = some shardOne ∧
    ((writeBlobRecordShards (fun _ => false) id (fun i => .ok [10 + i.toUInt8]) (fun _ => none)
        "m.mfq".toList twoRecords 0 1 false olderFile).map fun result =>
          (result.1.toOption, result.2.lookup shardOne, result.2.lookup shardTwo,
            result.2.lookup "m.mfq".toList)) =
      some (some [shardOne, shardTwo], some [10], some [11], some [7]) := by
  refine ⟨?_, ?_, ?_, ?_, ?_⟩ <;> decide +kernel

theorem publication_all_or_nothing_iff_sample :
    ∃ r dir', twoPayloads.finalize (· == .publish 1) id (fun i => .ok [10 + i.toUInt8])
        "m.mfq".toList true [] olderSet = some (r, dir') ∧
      (AllOrNothing "m.mfq".toList (fun i => .ok [10 + i.toUInt8]) olderSet r dir' ↔
        ∀ destinations contents,
          twoPayloads.Ready (· == .publish 1) (fun i => .ok [10 + i.toUInt8]) "m.mfq".toList true
            [] olderSet destinations contents →
          PublishesWell (· == .publish 1) id [.consume, .removeWorkDir] "m.mfq".toList
            (staleOutputs true "m.mfq".toList olderSet) destinations contents olderSet) :=
  (publication_all_or_nothing_iff (· == .publish 1) (fun names => List.Perm.refl names)
    (fun i => .ok [10 + i.toUInt8]) "m.mfq".toList true olderSet).1 [] twoPayloads

end TyloQuant.Shards
