import TyloQuant.Shards.Publication

/-!
# When publishing a set is all or nothing

The files of the set are changed by the renames onto the destinations and by the deletions that
follow them.  So a publication that throws has left the set as it was exactly when no rename had
taken place, or those that had put the bytes there that were there already and nothing was
deleted; and one that returns shows exactly the new set when every old file of the set was
recognised as stale.
-/

namespace TyloQuant.Shards

open Lib List

/-! ### The steps -/

variable (fails : Step → Bool)

theorem attempt_run (step : Step) (dir : Dir) :
    attempt fails step dir =
      some (if fails step then .error .os else .ok PUnit.unit, dir) := by
  rw [attempt]
  split <;> rfl

theorem attemptAll_run (steps : List Step) (dir : Dir) :
    attemptAll fails steps dir =
      some (if steps.any fails then .error .os else .ok PUnit.unit, dir) := by
  induction steps with
  | nil => rfl
  | cons step steps ih =>
    rw [attemptAll, any_cons]
    by_cases hstep : fails step = true
    · have hrun := attempt_run fails step dir
      rw [if_pos hstep] at hrun
      rw [hstep, Bool.true_or, if_pos rfl]
      exact Call.bind_some.mpr (Or.inl ⟨_, hrun, rfl⟩)
    · have hrun := attempt_run fails step dir
      rw [if_neg hstep] at hrun
      rw [Bool.not_eq_true] at hstep
      rw [hstep, Bool.false_or, Call.bind_returns hrun, ih]

/-- A name that no temporary of these destinations has. -/
def Apart (destinations : List Name) (name : Name) : Prop :=
  ∀ destination ∈ destinations, name ≠ temporaryOf destination

theorem temporaryOf_inj {a b : Name} (h : temporaryOf a = temporaryOf b) : a = b := by
  rw [temporaryOf_eq, temporaryOf_eq] at h
  exact append_cancel_right h

/-- The destinations that are renamed onto, the first of them with this index. -/
def publishedPrefix (fails : Step → Bool) : Nat → List Name → List Name
  | _, [] => []
  | index, destination :: rest =>
    if fails (.publish index) then [] else destination :: publishedPrefix fails (index + 1) rest

theorem publishedPrefix_subset (index : Nat) (destinations : List Name) :
    publishedPrefix fails index destinations ⊆ destinations := by
  induction destinations generalizing index with
  | nil => exact List.Subset.refl _
  | cons destination rest ih =>
    rw [publishedPrefix]
    split
    · exact nil_subset _
    · exact cons_subset_cons _ (ih _)

variable {dir : Dir}

theorem replace_run {step : Step} {source target : Name} {content : List UInt8}
    (hstep : fails step = false) (hsource : dir.lookup source = some content) :
    replace fails step source target dir =
      some (.ok PUnit.unit, (dir.insert target content).erase source) := by
  have hrun := attempt_run fails step dir
  rw [hstep, if_neg Bool.false_ne_true] at hrun
  rw [replace, Call.bind_returns hrun, Call.get_bind, hsource]
  rfl

theorem publishAll_spec (destinations : List Name) :
    ∀ (index : Nat) (dir : Dir), (∀ d ∈ destinations, temporaryOf d ∈ dir) →
      destinations.Nodup → (∀ d ∈ destinations, Apart destinations d) →
      ∃ dir', publishAll fails index destinations dir =
          some (if publishedPrefix fails index destinations = destinations
            then .ok PUnit.unit else .error .os, dir') ∧
        ∀ name, Apart destinations name →
          dir'.lookup name = if name ∈ publishedPrefix fails index destinations
            then dir.lookup (temporaryOf name) else dir.lookup name := by
  induction destinations with
  | nil => exact fun _ dir _ _ _ => ⟨dir, rfl, fun _ _ => rfl⟩
  | cons destination rest ih =>
    intro index dir hhere hnodup hapart
    rw [nodup_cons] at hnodup
    obtain ⟨content, hcontent⟩ := (Table.mem_iff dir _).mp
      (hhere destination mem_cons_self)
    rw [publishedPrefix, publishAll]
    by_cases hfail : fails (.publish index) = true
    · refine ⟨dir, ?_, fun name _ => ?_⟩
      · rw [if_pos hfail, if_neg (cons_ne_nil _ _).symm]
        have hrun := attempt_run fails (.publish index) dir
        rw [if_pos hfail] at hrun
        refine Call.bind_some.mpr (Or.inl ⟨_, ?_, rfl⟩)
        exact Call.bind_some.mpr (Or.inl ⟨_, hrun, rfl⟩)
      · rw [if_pos hfail, if_neg not_mem_nil]
    · rw [Bool.not_eq_true] at hfail
      obtain ⟨mid, hmid⟩ : ∃ mid, mid =
          (dir.insert destination content).erase (temporaryOf destination) := ⟨_, rfl⟩
      have hlookup : ∀ name, mid.lookup name = if name = temporaryOf destination then none
          else if name = destination then some content else dir.lookup name := by
        intro name
        rw [hmid, Table.lookup_erase_ite, Table.lookup_insert_ite]
      have hother : ∀ d ∈ rest, mid.lookup (temporaryOf d) = dir.lookup (temporaryOf d) := by
        intro d hd
        rw [hlookup, if_neg, if_neg]
        · exact fun heq => hapart destination mem_cons_self d
            (mem_cons_of_mem _ hd) heq.symm
        · intro heq
          rw [temporaryOf_inj heq] at hd
          exact hnodup.1 hd
      obtain ⟨dir', hrest, hdir'⟩ := ih (index + 1) mid
        (fun d hd => by
          rw [Table.mem_iff, hother d hd, ← Table.mem_iff]
          exact hhere d (mem_cons_of_mem _ hd))
        hnodup.2
        (fun d hd e he => hapart d (mem_cons_of_mem _ hd) e (mem_cons_of_mem _ he))
      refine ⟨dir', ?_, fun name hname => ?_⟩
      · rw [Call.bind_returns (replace_run fails hfail hcontent), ← hmid, hrest, hfail,
          if_neg Bool.false_ne_true]
        congr 2
        exact if_congr (cons_inj_right _).symm rfl rfl
      · rw [hdir' name fun d hd => hname d (mem_cons_of_mem _ hd), hfail,
          if_neg Bool.false_ne_true]
        by_cases hmem : name ∈ publishedPrefix fails (index + 1) rest
        · rw [if_pos hmem, if_pos (mem_cons_of_mem _ hmem),
            hother name (publishedPrefix_subset fails _ _ hmem)]
        · rw [if_neg hmem, hlookup, if_neg (hname destination mem_cons_self)]
          by_cases heq : name = destination
          · rw [if_pos heq, if_pos (heq ▸ mem_cons_self), heq, hcontent]
          · rw [if_neg heq, if_neg fun h => hmem ((mem_cons.mp h).resolve_left heq)]

/-- The stale files that are deleted. -/
def removedPrefix (fails : Step → Bool) (names : List Name) : List Name :=
  names.takeWhile fun name => !fails (.unlink name)

theorem unlinkAll_spec (names : List Name) :
    ∀ dir : Dir, (∀ name ∈ names, name ∈ dir) → names.Nodup → ∃ dir', unlinkAll fails names dir =
          some (if removedPrefix fails names = names then .ok PUnit.unit else .error .os, dir') ∧
        ∀ name, dir'.lookup name =
          if name ∈ removedPrefix fails names then none else dir.lookup name := by
  induction names with
  | nil => exact fun dir _ _ => ⟨dir, rfl, fun _ => rfl⟩
  | cons name rest ih =>
    intro dir hhere hnodup
    rw [nodup_cons] at hnodup
    obtain ⟨content, hcontent⟩ := (Table.mem_iff dir _).mp (hhere name mem_cons_self)
    have hrun := attempt_run fails (.unlink name) dir
    rw [removedPrefix, takeWhile_cons, unlinkAll]
    by_cases hfail : fails (.unlink name) = true
    · rw [if_pos hfail] at hrun
      refine ⟨dir, ?_, fun other => ?_⟩
      · rw [hfail, Bool.not_true, if_neg Bool.false_ne_true, if_neg (cons_ne_nil _ _).symm]
        exact Call.bind_some.mpr (Or.inl ⟨_, hrun, rfl⟩)
      · rw [hfail, Bool.not_true, if_neg Bool.false_ne_true, if_neg not_mem_nil]
    · rw [if_neg hfail] at hrun
      rw [Bool.not_eq_true] at hfail
      obtain ⟨dir', hrest, hdir'⟩ := ih (dir.erase name)
        (fun other hother => AList.mem_erase.mpr
          ⟨fun heq => hnodup.1 (heq ▸ hother), hhere other (mem_cons_of_mem _ hother)⟩)
        hnodup.2
      rw [removedPrefix] at hrest hdir'
      rw [hfail, Bool.not_false, if_pos rfl]
      refine ⟨dir', ?_, fun other => ?_⟩
      · rw [Call.bind_returns hrun, Call.get_bind, hcontent]
        dsimp only
        rw [Call.modify_bind, hrest]
        congr 2
        exact if_congr (cons_inj_right _).symm rfl rfl
      · rw [hdir', Table.lookup_erase_ite]
        by_cases hmem : other ∈ rest.takeWhile fun name => !fails (.unlink name)
        · rw [if_pos hmem, if_pos (mem_cons_of_mem _ hmem)]
        · rw [if_neg hmem]
          by_cases heq : other = name
          · rw [if_pos heq, if_pos (heq ▸ mem_cons_self)]
          · rw [if_neg heq, if_neg fun h => hmem ((mem_cons.mp h).resolve_left heq)]

/-- Whatever cleaning up does, it is about the temporaries. -/
theorem cleanAll_spec (destinations : List Name) :
    ∀ (index : Nat) (dir : Dir), ∃ r dir', cleanAll fails index destinations dir = some (r, dir') ∧
      ∀ name, Apart destinations name → dir'.lookup name = dir.lookup name := by
  induction destinations with
  | nil => exact fun _ dir => ⟨_, dir, rfl, fun _ _ => rfl⟩
  | cons destination rest ih =>
    intro index dir
    have hrun := attempt_run fails (.clean index) dir
    rw [cleanAll]
    by_cases hfail : fails (.clean index) = true
    · rw [if_pos hfail] at hrun
      exact ⟨_, dir, Call.bind_some.mpr (Or.inl ⟨_, hrun, rfl⟩), fun _ _ => rfl⟩
    · rw [if_neg hfail] at hrun
      obtain ⟨r, dir', hrest, hdir'⟩ := ih (index + 1) (dir.erase (temporaryOf destination))
      refine ⟨r, dir', ?_, fun name hname => ?_⟩
      · rw [Call.bind_returns hrun, Call.modify_bind, hrest]
      · rw [hdir' name fun d hd => hname d (mem_cons_of_mem _ hd), Table.lookup_erase_ite,
          if_neg (hname destination mem_cons_self)]

/-! ### Publishing -/

/-- The set of names goes through in some order. -/
def Arranges (arrange : List Name → List Name) : Prop := ∀ names, (arrange names).Perm names

/-- The new content under a name. -/
def newSet (destinations : List Name) (contents : List (List UInt8)) (name : Name) :
    Option (List UInt8) := (destinations.zip contents).lookup name

/-- Staging has left the new files under their temporary names and changed nothing else. -/
structure Staged (destinations : List Name) (contents : List (List UInt8)) (dir dir' : Dir) :
    Prop where
  here : ∀ d ∈ destinations, dir'.lookup (temporaryOf d) = newSet destinations contents d
  all : ∀ d ∈ destinations, (newSet destinations contents d).isSome
  others : ∀ name, Apart destinations name → dir'.lookup name = dir.lookup name

/-- A step that follows the first rename fails. -/
def LateFault (fails : Step → Bool) (finishing : List Step) (stale destinations : List Name) :
    Prop :=
  publishedPrefix fails 0 destinations ≠ destinations ∨ removedPrefix fails stale ≠ stale ∨
    finishing.any fails = true

/-- The steps that took place have changed no file: the bytes renamed onto a destination are
    those that were there, and nothing was deleted. -/
structure Unchanged (fails : Step → Bool) (stale destinations : List Name)
    (contents : List (List UInt8)) (dir : Dir) : Prop where
  same : ∀ name ∈ publishedPrefix fails 0 destinations,
    dir.lookup name = newSet destinations contents name
  kept : publishedPrefix fails 0 destinations = destinations → removedPrefix fails stale = []

/-- Every file of the set is replaced or recognised as stale. -/
def Recognised (output : Name) (stale destinations : List Name) (dir : Dir) : Prop :=
  ∀ name, InSet output name → name ∈ dir → name ∈ stale ∨ name ∈ destinations

/-- What a publication that ended with `r` may show of the set: on an error what was there, else
    exactly the new files. -/
def AllOrNothing (output : Name) (stage : Nat → Except ShardError (List UInt8)) (dir : Dir)
    (r : Except ShardError (List Name)) (dir' : Dir) : Prop :=
  match r with
  | .error _ => ∀ name, InSet output name → dir'.lookup name = dir.lookup name
  | .ok destinations =>
    ∃ contents, (List.range destinations.length).mapM (stageFile stage) = .ok contents ∧
      ∀ name, InSet output name → dir'.lookup name = newSet destinations contents name

/-- The names a set is published under. -/
structure Destinations (output : Name) (destinations : List Name) : Prop where
  nodup : destinations.Nodup
  named : ∀ d ∈ destinations, d = output ∨ ∃ index count, formatShardPath output index count = .ok d

variable {output : Name} {destinations : List Name} {name : Name}

theorem Destinations.apart (h : Destinations output destinations) (hin : InSet output name) :
    Apart destinations name := by
  rintro d hd rfl
  exact temporaryOf_not_inSet (h.named d hd) hin

theorem Destinations.inSet {d : Name} (h : Destinations output destinations)
    (hd : d ∈ destinations) : InSet output d := by
  rcases h.named d hd with rfl | hshard
  · exact Or.inl rfl
  · exact Or.inr (Or.inr hshard)

variable {contents : List (List UInt8)}

theorem newSet_eq_none (h : name ∉ destinations) : newSet destinations contents name = none := by
  rw [newSet, lookup_eq_none_iff]
  intro p hp
  have hmem := (of_mem_zip hp).1
  refine bne_iff_ne.mpr fun heq => h ?_
  rwa [heq]

theorem staleOutputs_spec (plain : Bool) (output : Name) (dir : Dir) :
    (∀ name ∈ staleOutputs plain output dir, InSet output name ∧ name ∈ dir) ∧
      (staleOutputs plain output dir).Nodup := by
  have hmatching : ∀ name ∈ matchingShardPaths output dir.keys, InSet output name ∧ name ∈ dir := by
    intro name hname
    obtain ⟨hkeys, hparse⟩ := parse_of_matching.mp hname
    exact ⟨Or.inr (Or.inl hparse), AList.mem_keys.mpr hkeys⟩
  have hnodup : (matchingShardPaths output dir.keys).Nodup := dir.nodupKeys.filter _
  unfold staleOutputs
  split
  · rename_i hplain
    refine ⟨fun name hname => ?_, hnodup.insert⟩
    rcases mem_insert_iff.mp hname with rfl | hname
    · exact ⟨Or.inl rfl, hplain.2⟩
    · exact hmatching name hname
  · exact ⟨hmatching, hnodup⟩

variable {stale : List Name} {staged : Dir}

/-- The renames, the deletions and what follows, from a directory with the new files staged. -/
theorem published_spec (finishing : List Step) (hdestinations : Destinations output destinations)
    (hstaged : Staged destinations contents dir staged)
    (hstale : ∀ name ∈ stale, InSet output name ∧ name ∈ dir) (hnodup : stale.Nodup)
    (hfresh : ∀ name ∈ stale, name ∉ destinations) :
    ∃ r dir', (do
        publishAll fails 0 destinations
        unlinkAll fails stale
        attemptAll fails finishing
        pure destinations : Call ShardError Dir (List Name)) staged = some (r, dir') ∧
      (r = .ok destinations ∧ ¬LateFault fails finishing stale destinations ∨
        r = .error .os ∧ LateFault fails finishing stale destinations) ∧
      ∀ name, InSet output name → dir'.lookup name =
        if name ∈ publishedPrefix fails 0 destinations then newSet destinations contents name
        else if publishedPrefix fails 0 destinations = destinations ∧
          name ∈ removedPrefix fails stale then none
        else dir.lookup name := by
  have happart : ∀ d ∈ destinations, Apart destinations d :=
    fun d hd => hdestinations.apart (hdestinations.inSet hd)
  obtain ⟨mid, hpublish, hmid⟩ := publishAll_spec fails destinations 0 staged
    (fun d hd => by
      rw [Table.mem_iff, hstaged.here d hd]
      exact Option.isSome_iff_exists.mp (hstaged.all d hd))
    hdestinations.nodup happart
  have hmid' : ∀ name, InSet output name → mid.lookup name =
      if name ∈ publishedPrefix fails 0 destinations then newSet destinations contents name
      else dir.lookup name := by
    intro name hname
    rw [hmid name (hdestinations.apart hname)]
    split
    · rename_i hmem
      exact hstaged.here name (publishedPrefix_subset fails _ _ hmem)
    · exact hstaged.others name (hdestinations.apart hname)
  by_cases hall : publishedPrefix fails 0 destinations = destinations
  swap
  · rw [if_neg hall] at hpublish
    refine ⟨.error .os, mid, Call.bind_some.mpr (Or.inl ⟨_, hpublish, rfl⟩),
      Or.inr ⟨rfl, Or.inl hall⟩, fun name hname => ?_⟩
    have hnot : ¬(publishedPrefix fails 0 destinations = destinations ∧
        name ∈ removedPrefix fails stale) := fun h => hall h.1
    rw [hmid' name hname, if_neg hnot]
  rw [if_pos hall] at hpublish
  obtain ⟨last, hunlink, hlast⟩ := unlinkAll_spec fails stale mid
    (fun name hname => by
      rw [Table.mem_iff, hmid' name (hstale name hname).1, hall, if_neg (hfresh name hname),
        ← Table.mem_iff]
      exact (hstale name hname).2)
    hnodup
  have hlast' : ∀ name, InSet output name → last.lookup name =
      if name ∈ publishedPrefix fails 0 destinations then newSet destinations contents name
      else if publishedPrefix fails 0 destinations = destinations ∧
        name ∈ removedPrefix fails stale then none
      else dir.lookup name := by
    intro name hname
    rw [hlast name, hmid' name hname]
    by_cases hremoved : name ∈ removedPrefix fails stale
    · have hnew : name ∉ publishedPrefix fails 0 destinations := by
        rw [hall]
        exact hfresh name (takeWhile_subset _ hremoved)
      rw [if_pos hremoved, if_neg hnew, if_pos ⟨hall, hremoved⟩]
    · rw [if_neg hremoved, if_neg fun h : _ ∧ _ => hremoved h.2]
  rw [Call.bind_returns hpublish]
  by_cases hdeleted : removedPrefix fails stale = stale
  swap
  · rw [if_neg hdeleted] at hunlink
    exact ⟨.error .os, last, Call.bind_some.mpr (Or.inl ⟨_, hunlink, rfl⟩),
      Or.inr ⟨rfl, Or.inr (Or.inl hdeleted)⟩, hlast'⟩
  rw [if_pos hdeleted] at hunlink
  rw [Call.bind_returns hunlink]
  have hfinish := attemptAll_run fails finishing last
  by_cases hfault : finishing.any fails = true
  · rw [if_pos hfault] at hfinish
    exact ⟨.error .os, last, Call.bind_some.mpr (Or.inl ⟨_, hfinish, rfl⟩),
      Or.inr ⟨rfl, Or.inr (Or.inr hfault)⟩, hlast'⟩
  · rw [if_neg hfault] at hfinish
    refine ⟨.ok destinations, last, by rw [Call.bind_returns hfinish]; rfl,
      Or.inl ⟨rfl, ?_⟩, hlast'⟩
    rintro (h | h | h)
    · exact h hall
    · exact h hdeleted
    · exact hfault h

theorem cleanUp_spec (cleaning : List Step) (hdestinations : Destinations output destinations)
    (e : ShardError) (dir : Dir) :
    ∃ e' dir', (do
        attemptAll fails cleaning
        cleanAll fails 0 destinations
        Call.throw e : Call ShardError Dir (List Name)) dir = some (.error e', dir') ∧
      ∀ name, InSet output name → dir'.lookup name = dir.lookup name := by
  have hcleaning := attemptAll_run fails cleaning dir
  by_cases hfault : cleaning.any fails = true
  · rw [if_pos hfault] at hcleaning
    exact ⟨_, dir, Call.bind_some.mpr (Or.inl ⟨_, hcleaning, rfl⟩), fun _ _ => rfl⟩
  rw [if_neg hfault] at hcleaning
  obtain ⟨r, dir', hclean, hdir'⟩ := cleanAll_spec fails destinations 0 dir
  have hsame : ∀ name, InSet output name → dir'.lookup name = dir.lookup name :=
    fun name hname => hdir' name (hdestinations.apart hname)
  rw [Call.bind_returns hcleaning]
  cases r with
  | error e' => exact ⟨e', dir', Call.bind_some.mpr (Or.inl ⟨_, hclean, rfl⟩), hsame⟩
  | ok _ => exact ⟨e, dir', by rw [Call.bind_returns hclean]; rfl, hsame⟩

variable {staging : Call ShardError Dir PUnit}

theorem publishSet_of_error (arrange : List Name → List Name) (stale : List Name)
    (finishing cleaning : List Step) {dir' : Dir} {e : ShardError}
    (hdestinations : Destinations output destinations)
    (hstaging : staging dir = some (.error e, dir'))
    (hsame : ∀ name, Apart destinations name → dir'.lookup name = dir.lookup name) :
    ∃ e' last, publishSet fails arrange staging finishing cleaning stale destinations dir =
        some (.error e', last) ∧
      ∀ name, InSet output name → last.lookup name = dir.lookup name := by
  obtain ⟨e', last, hclean, hlast⟩ := cleanUp_spec fails cleaning hdestinations e dir'
  refine ⟨e', last, ?_, fun name hname => ?_⟩
  · exact Call.tryCatch_some.mpr (Or.inr ⟨e, dir',
      Call.bind_some.mpr (Or.inl ⟨e, hstaging, rfl⟩), hclean⟩)
  · rw [hlast name hname, hsame name (hdestinations.apart hname)]

/-- Publishing staged files is all or nothing: a step that fails once the renames have begun
    finds the set unchanged, and when none does, no old file is overlooked. -/
def PublishesWell (fails : Step → Bool) (arrange : List Name → List Name) (finishing : List Step)
    (output : Name) (stale destinations : List Name) (contents : List (List UInt8)) (dir : Dir) :
    Prop :=
  let deleted := arrange (withoutSuccessor stale destinations)
  (LateFault fails finishing deleted destinations →
    Unchanged fails deleted destinations contents dir) ∧
  (¬LateFault fails finishing deleted destinations → Recognised output stale destinations dir)

theorem publishSet_of_staged {arrange : List Name → List Name} (finishing cleaning : List Step)
    (hdestinations : Destinations output destinations) (harrange : Arranges arrange)
    (hstale : ∀ name ∈ stale, InSet output name ∧ name ∈ dir) (hnodup : stale.Nodup)
    (hstaging : staging dir = some (.ok PUnit.unit, staged))
    (hstaged : Staged destinations contents dir staged)
    {stage : Nat → Except ShardError (List UInt8)}
    (hcontents : (List.range destinations.length).mapM (stageFile stage) = .ok contents) :
    ∃ r dir', publishSet fails arrange staging finishing cleaning stale destinations dir =
        some (r, dir') ∧
      (AllOrNothing output stage dir r dir' ↔
        PublishesWell fails arrange finishing output stale destinations contents dir) := by
  obtain ⟨deleted, hdeleted⟩ : ∃ deleted,
      deleted = arrange (withoutSuccessor stale destinations) := ⟨_, rfl⟩
  have hperm : deleted.Perm (withoutSuccessor stale destinations) := hdeleted ▸ harrange _
  have hmem : ∀ name, name ∈ deleted ↔ name ∈ stale ∧ name ∉ destinations := by
    intro name
    rw [hperm.mem_iff, withoutSuccessor, mem_filter]
    simp
  obtain ⟨r, dir', hrun, hend, hlookup⟩ := published_spec fails finishing
    hdestinations hstaged (fun name hname => hstale name ((hmem name).mp hname).1)
    (hperm.nodup_iff.mpr (hnodup.filter _)) (fun name hname => ((hmem name).mp hname).2)
  have hbody := Call.bind_returns (f := fun _ => do
    publishAll fails 0 destinations
    unlinkAll fails deleted
    attemptAll fails finishing
    pure destinations) hstaging
  rw [hrun] at hbody
  rw [PublishesWell, ← hdeleted]
  rcases hend with ⟨rfl, hlate⟩ | ⟨rfl, hlate⟩
  · refine ⟨.ok destinations, dir', ?_, ?_⟩
    · rw [publishSet, ← hdeleted]
      exact Call.tryCatch_some.mpr (Or.inl ⟨_, hbody, rfl⟩)
    have hall : publishedPrefix fails 0 destinations = destinations := by
      by_contra h
      exact hlate (Or.inl h)
    have hremoved : removedPrefix fails deleted = deleted := by
      by_contra h
      exact hlate (Or.inr (Or.inl h))
    rw [hall, hremoved] at hlookup
    constructor
    · rintro ⟨contents', hcontents', hshown⟩
      rw [hcontents] at hcontents'
      cases hcontents'
      refine ⟨fun h => absurd h hlate, fun _ name hname hdir => ?_⟩
      by_contra hmissed
      rw [not_or] at hmissed
      have hgone := hshown name hname
      have hstays : ¬(destinations = destinations ∧ name ∈ deleted) :=
        fun h => hmissed.1 ((hmem name).mp h.2).1
      rw [hlookup name hname, if_neg hmissed.2, if_neg hstays, newSet_eq_none hmissed.2,
        AList.lookup_eq_none] at hgone
      exact hgone hdir
    · rintro ⟨-, hrecognised⟩
      refine ⟨contents, hcontents, fun name hname => ?_⟩
      rw [hlookup name hname]
      by_cases hnew : name ∈ destinations
      · rw [if_pos hnew]
      rw [if_neg hnew, newSet_eq_none hnew]
      by_cases hstaleName : name ∈ deleted
      · exact if_pos ⟨rfl, hstaleName⟩
      · rw [if_neg fun h : _ ∧ _ => hstaleName h.2, AList.lookup_eq_none]
        intro hdir
        rcases hrecognised hlate name hname hdir with h | h
        · exact hstaleName ((hmem name).mpr ⟨h, hnew⟩)
        · exact hnew h
  · obtain ⟨e', last, hclean, hlast⟩ :=
      cleanUp_spec fails cleaning hdestinations .os dir'
    refine ⟨.error e', last, ?_, ?_⟩
    · rw [publishSet, ← hdeleted]
      exact Call.tryCatch_some.mpr (Or.inr ⟨_, dir', hbody, hclean⟩)
    constructor
    · intro hsame
      refine ⟨fun _ => ⟨fun name hname => ?_, fun hall => ?_⟩, fun h => absurd hlate h⟩
      · have hin := hdestinations.inSet (publishedPrefix_subset fails _ _ hname)
        rw [← hsame name hin, hlast name hin, hlookup name hin, if_pos hname]
      · refine eq_nil_iff_forall_not_mem.mpr fun name hname => ?_
        have hold := (hmem name).mp (takeWhile_subset _ hname)
        have hin := (hstale name hold.1).1
        have hnot : name ∉ publishedPrefix fails 0 destinations := by
          rw [hall]
          exact hold.2
        have hgone := hsame name hin
        rw [hlast name hin, hlookup name hin, if_neg hnot, if_pos ⟨hall, hname⟩] at hgone
        exact AList.lookup_eq_none.mp hgone.symm (hstale name hold.1).2
    · rintro ⟨hunchanged, -⟩ name hin
      have hunchanged := hunchanged hlate
      rw [hlast name hin, hlookup name hin]
      by_cases hnew : name ∈ publishedPrefix fails 0 destinations
      · rw [if_pos hnew, hunchanged.same name hnew]
      · rw [if_neg hnew, if_neg]
        rintro ⟨hall, hname⟩
        rw [hunchanged.kept hall] at hname
        cases hname

end TyloQuant.Shards
