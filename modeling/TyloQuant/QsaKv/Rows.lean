import TyloQuant.QsaKv.Successes

/-!
# Sequences are row lists

The invariant of a whole process: every sequence and every snapshot represents its plain list.
Each operation keeps it, under any schedule of the worker and the deleters, whether it returns or
throws, so what `read_rows` gives are the rows of the plain list.  An operation that the plain lists
allow succeeds, unless a file operation fails or no memory can be reserved.
-/

namespace TyloQuant.QsaKv

open Lib Call

/-! ### The invariant -/

variable {c : QsaKvStore} {st : Snapshot} {rows : List Row} {c' : QsaKvStore}

theorem RepresentsRows.frame {held : Nat → Prop} (h : SamePayloads held c c')
    (hbuffer : c'.bufferBytes = c.bufferBytes) (hheld : ∀ id ∈ st.pointers, held id)
    (hst : RepresentsRows c st rows) : RepresentsRows c' st rows :=
  ⟨hst.width, hst.bytes.frame h hheld, hbuffer ▸ hst.fits⟩

theorem RepresentsRows.length (hst : RepresentsRows c st rows) : rows.length = st.position := by
  have hlength := hst.bytes.length
  rw [flatten_length hst.width] at hlength
  exact Nat.eq_of_mul_eq_mul_right hst.bytes.rowBytes hlength

theorem RepresentsRows.change {st' : Snapshot} {rows' : List Row} (hst : RepresentsRows c st rows)
    (hsame : SameGeometry st st') (hbuffer : c'.bufferBytes = c.bufferBytes)
    (hrows : ∀ row ∈ rows', row ∈ rows ∨ row.length = st.rowBytes)
    (hrep : Represents c' st' rows'.flatten) : RepresentsRows c' st' rows' := by
  refine ⟨fun row hmem => ?_, hrep, ?_⟩
  · rw [hsame.rowBytes]
    exact (hrows row hmem).elim (hst.width row) id
  · rw [hsame.rowBytes, hsame.blockRows, hbuffer]
    exact hst.fits

theorem RepresentsRows.keep {st' : Snapshot} (hst : RepresentsRows c st rows)
    (hsame : SameGeometry st st') (hbuffer : c'.bufferBytes = c.bufferBytes)
    (hrep : Represents c' st' rows.flatten) : RepresentsRows c' st' rows :=
  hst.change hsame hbuffer (fun _ => Or.inl) hrep

theorem RepresentsRows.take {st' : Snapshot} {n : Nat} (hst : RepresentsRows c st rows)
    (hsame : SameGeometry st st') (hbuffer : c'.bufferBytes = c.bufferBytes)
    (hrep : Represents c' st' (rows.flatten.take (n * st.rowBytes))) :
    RepresentsRows c' st' (rows.take n) :=
  hst.change hsame hbuffer (fun _ hmem => Or.inl (List.mem_of_mem_take hmem))
    (by rw [flatten_take hst.width]; exact hrep)

/-- Every record represents its plain list. -/
structure Refines (s : System) : Prop where
  sound : s.Sound
  sequences : ∀ seq st, s.sequences.lookup seq = some st →
    RepresentsRows s.store st (s.lists.sequences seq)
  snapshots : ∀ snap st, s.snapshots.lookup snap = some st →
    RepresentsRows s.store st (s.lists.snapshots snap)

theorem Refines.initial (bufferBytes budgetBytes : Nat) :
    Refines (initial bufferBytes budgetBytes) := by
  refine ⟨⟨?_, ?_, ?_⟩, nofun, nofun⟩
  · constructor
    all_goals simp [QsaKv.initial]
  · constructor
    all_goals simp [QsaKv.initial]
  · constructor
    all_goals simp [QsaKv.initial, System.held, QsaKvStore.waiting]

variable {s s' : System}

theorem Refines.frame (hs : Refines s) (hs' : s'.Sound) (h : Frame s s') : Refines s' := by
  refine ⟨hs', fun seq st hst => ?_, fun snap st hst => ?_⟩
  · rw [h.sequences] at hst
    rw [h.lists]
    exact (hs.sequences seq st hst).frame h.payloads h.bufferBytes fun _ => held_of_sequence hst
  · rw [h.snapshots] at hst
    rw [h.lists]
    exact (hs.snapshots snap st hst).frame h.payloads h.bufferBytes fun _ => held_of_snapshot hst

variable {seq : Nat}

theorem Refines.around (hs : Refines s) (hs' : s'.Sound) (h : Around seq s s') {lists : Lists}
    (hothers : ∀ seq', seq' ≠ seq → lists.sequences seq' = s.lists.sequences seq')
    (hsnapshots : lists.snapshots = s.lists.snapshots)
    (hseq : ∃ st, s'.sequences.lookup seq = some st ∧
      RepresentsRows s'.store st (lists.sequences seq)) :
    Refines { s' with lists } := by
  obtain ⟨st, hst, hrep⟩ := hseq
  refine ⟨hs', fun seq' st' hst' => ?_, fun snap st' hst' => ?_⟩
  · by_cases hne : seq' = seq
    · subst hne
      obtain rfl := Option.some.inj (hst.symm.trans hst')
      exact hrep
    · have hold := (h.sequences seq' hne).symm.trans hst'
      show RepresentsRows s'.store st' (lists.sequences seq')
      rw [hothers seq' hne]
      exact (hs.sequences seq' st' hold).frame h.payloads h.bufferBytes fun id hid =>
        Or.inr (Or.inl ⟨seq', st', hne, hold, hid⟩)
  · have hold : s.snapshots.lookup snap = some st' := h.snapshots ▸ hst'
    show RepresentsRows s'.store st' (lists.snapshots snap)
    rw [hsnapshots]
    exact (hs.snapshots snap st' hold).frame h.payloads h.bufferBytes fun id hid =>
      Or.inr (Or.inr ⟨snap, st', hold, hid⟩)

theorem Refines.around_same (hs : Refines s) (hs' : s'.Sound) (h : Around seq s s')
    (hseq : ∃ st, s'.sequences.lookup seq = some st ∧
      RepresentsRows s'.store st (s.lists.sequences seq)) : Refines s' := by
  rw [← h.lists] at hseq
  exact hs.around hs' h (fun seq' _ => by rw [h.lists]) (by rw [h.lists]) hseq

variable {snap : Nat}

theorem Refines.file (hs : Refines s) {new : List Nat}
    (hnew : ({ s with locals := new ++ s.locals } : System).Sound)
    (hst : ∀ id ∈ st.pointers, id ∈ new ∨ s.held id = true)
    (hrep : RepresentsRows s.store st rows) :
    Refines { s with
      snapshots := s.snapshots.insert snap st, lists := s.lists.setSnapshot snap rows } := by
  refine ⟨hnew.mono fun id hid => ?_, hs.sequences, fun snap' st' hst' => ?_⟩
  · rw [held_locals]
    rw [System.held_iff] at hid
    rcases hid with hlocal | hseq | ⟨snap', st', hst', hid'⟩
    · exact Or.inr (System.held_iff.mpr (Or.inl hlocal))
    · exact Or.inr (System.held_iff.mpr (Or.inr (Or.inl hseq)))
    · rcases Table.lookup_insert_cases hst' with ⟨-, rfl⟩ | ⟨-, hst'⟩
      · exact hst id hid'
      · exact Or.inr (held_of_snapshot hst' hid')
  · show RepresentsRows s.store st' (Function.update s.lists.snapshots snap rows snap')
    rcases Table.lookup_insert_cases hst' with ⟨rfl, rfl⟩ | ⟨hne, hst'⟩
    · rw [Function.update_self]
      exact hrep
    · rw [Function.update_of_ne hne]
      exact hs.snapshots snap' st' hst'

theorem Refines.fewer (hs : Refines s) {sequences snapshots : Table Nat Snapshot}
    (hsequences : ∀ seq st, sequences.lookup seq = some st → s.sequences.lookup seq = some st)
    (hsnapshots : ∀ snap st, snapshots.lookup snap = some st → s.snapshots.lookup snap = some st) :
    Refines { s with sequences, snapshots } := by
  refine ⟨hs.sound.mono fun id hid => ?_, fun seq st hst => hs.sequences seq st
    (hsequences seq st hst), fun snap st hst => hs.snapshots snap st (hsnapshots snap st hst)⟩
  rw [System.held_iff] at hid ⊢
  rcases hid with hlocal | ⟨seq, st, hst, hid'⟩ | ⟨snap, st, hst, hid'⟩
  · exact Or.inl hlocal
  · exact Or.inr (Or.inl ⟨seq, st, hsequences seq st hst, hid'⟩)
  · exact Or.inr (Or.inr ⟨snap, st, hsnapshots snap st hst, hid'⟩)

/-! ### Snapshots stay -/

/-- The operation writes the snapshot, or destroys it. -/
def Action.Writes (snap : Nat) : Action → Prop
  | .snapshot _ snap' => snap' = snap
  | .prefixOf _ target _ => target = snap
  | .discard snap' => snap' = snap
  | _ => False

/-- The step left the snapshot and its plain list alone. -/
def Kept (snap : Nat) (s s' : System) : Prop :=
  s'.snapshots.lookup snap = s.snapshots.lookup snap ∧
    s'.lists.snapshots snap = s.lists.snapshots snap

theorem Kept.refl (snap : Nat) (s : System) : Kept snap s s := ⟨rfl, rfl⟩

theorem Kept.trans {s'' : System} (h : Kept snap s s') (h' : Kept snap s' s'') : Kept snap s s'' :=
  ⟨h'.1.trans h.1, h'.2.trans h.2⟩

theorem Around.kept (h : Around seq s s') (snap : Nat) : Kept snap s s' :=
  ⟨by rw [h.snapshots], by rw [h.lists]⟩

theorem Frame.kept (h : Frame s s') (snap : Nat) : Kept snap s s' :=
  ⟨by rw [h.snapshots], by rw [h.lists]⟩

theorem Kept.file {snap' : Nat} (s : System) (st : Snapshot) (rows : List Row)
    (hne : ¬snap' = snap) : Kept snap s { s with
      snapshots := s.snapshots.insert snap' st, lists := s.lists.setSnapshot snap' rows } :=
  ⟨AList.lookup_insert_ne (Ne.symm hne), Function.update_of_ne (Ne.symm hne) _ _⟩

/-! ### One operation -/

theorem note_some {f : Lists → Lists} {r : Except String PUnit} (h : Op.note f s = some (r, s')) :
    s' = { s with lists := f s.lists } ∧ r = .ok ⟨⟩ := by
  obtain ⟨rfl, rfl⟩ := Prod.mk.inj (Option.some.inj h)
  exact ⟨rfl, rfl⟩

theorem setSequence_around (l : Lists) (seq : Nat) (rows : List Row) :
    ∀ seq', seq' ≠ seq → (l.setSequence seq rows).sequences seq' = l.sequences seq' :=
  fun _ hne => Function.update_of_ne hne _ _

theorem setSequence_self (l : Lists) (seq : Nat) (rows : List Row) :
    (l.setSequence seq rows).sequences seq = rows :=
  Function.update_self _ _ _

/-- From a state in order the operation comes to one in order, and it leaves the snapshots alone
    that it does not write. -/
def Follows (a : Action) (s s' : System) : Prop :=
  Refines s → Refines s' ∧ ∀ snap, ¬a.Writes snap → Kept snap s s'

theorem follows_append (seq : Nat) (rows : List Row) :
    Keeps (Follows (.append seq rows)) (perform (.append seq rows)) := by
  intro s r s' h hs
  unfold perform at h
  obtain ⟨st, hst, hbody⟩ := getSequence_bind h
  split at hbody
  · rename_i hsizes
    have hrep := hs.sequences seq st hst
    have hrows : ∀ row ∈ rows, row.length = st.rowBytes := by
      simpa using hsizes
    rcases bind_some.mp hbody with ⟨e, happend, rfl⟩ | ⟨_, t, happend, hnote⟩
    · obtain ⟨hs', haround, st', hst', hsame, -, hthrown⟩ :=
        append_some happend hs.sound hst hrep.bytes (flatten_length hrows)
      exact ⟨hs.around_same hs' haround ⟨st', hst',
        hrep.keep hsame haround.bufferBytes (hthrown e rfl)⟩, fun snap _ => haround.kept snap⟩
    · obtain ⟨hs', haround, st', hst', hsame, hdone, -⟩ :=
        append_some happend hs.sound hst hrep.bytes (flatten_length hrows)
      obtain ⟨rfl, -⟩ := note_some hnote
      refine ⟨?_, fun snap _ => haround.kept snap⟩
      rw [haround.lists]
      refine hs.around hs' haround (setSequence_around _ seq _) rfl ⟨st', hst', ?_⟩
      rw [setSequence_self]
      refine hrep.change hsame haround.bufferBytes
        (fun row hmem => (List.mem_append.mp hmem).imp_right (hrows row)) ?_
      rw [List.flatten_append]
      exact hdone rfl
  · exact absurd hbody not_blocked

theorem follows_construct (seq rowBytes blockRows : Nat) (priority : Int) :
    Keeps (Follows (.construct seq rowBytes blockRows priority))
      (perform (.construct seq rowBytes blockRows priority)) := by
  intro s r s' h hs
  unfold perform Op.construct at h
  rcases bind_some.mp h with ⟨e, hbuild, -⟩ | ⟨_, t, hbuild, hnote⟩
  · rw [get_bind] at hbuild
    split at hbuild
    · obtain ⟨-, rfl⟩ := throw_some.mp hbuild
      exact ⟨hs, fun _ _ => Kept.refl _ _⟩
    · cases (setSequence_some hbuild).2
  rw [get_bind] at hbuild
  split at hbuild
  · cases (throw_some.mp hbuild).1
  · rename_i hvalid
    obtain ⟨rfl, -⟩ := setSequence_some hbuild
    obtain ⟨rfl, -⟩ := note_some hnote
    simp only [not_or] at hvalid
    refine ⟨hs.around (hs.sound.put fun id hid => ?_) (Around.put s seq _)
      (setSequence_around _ seq _) rfl ⟨_, s.put_lookup seq _, ?_⟩,
      fun snap _ => (Around.put s seq _).kept snap⟩
    · simp [Snapshot.pointers] at hid
    · rw [setSequence_self]
      constructor
      · intro row hmem
        simp at hmem
      · constructor
        · exact Nat.pos_of_ne_zero hvalid.1
        · exact Nat.pos_of_ne_zero hvalid.2.1
        · simp
        · simp
        · intro i id hid
          simp at hid
        · simp
      · have hroom := Nat.le_of_not_lt hvalid.2.2
        rwa [Nat.le_div_iff_mul_le (Nat.pos_of_ne_zero hvalid.2.1)] at hroom

variable {r : Except String Unit}

/-- `seal_tail`, whether it returns or throws. -/
theorem sealTail_follows (hs : Refines s) (h : Op.sealTail seq s = some (r, s')) :
    Refines s' ∧ Around seq s s' := by
  have hget : ∃ st, s.sequences.lookup seq = some st := by
    unfold Op.sealTail at h
    obtain ⟨st, hst, -⟩ := getSequence_bind h
    exact ⟨st, hst⟩
  obtain ⟨st, hst⟩ := hget
  have hrep := hs.sequences seq st hst
  obtain ⟨hs', haround, st', hst', hsame, hrep'⟩ := sealTail_some h hs.sound hst hrep.bytes
  exact ⟨hs.around_same hs' haround ⟨st', hst', hrep.keep hsame haround.bufferBytes hrep'⟩, haround⟩

theorem follows_trim (seq position : Nat) :
    Keeps (Follows (.trim seq position)) (perform (.trim seq position)) := by
  intro s r s' h hs
  unfold perform at h
  have hget : ∃ st, s.sequences.lookup seq = some st := by
    unfold Op.cut at h
    rcases bind_some.mp h with ⟨e, hcut, -⟩ | ⟨_, t, hcut, -⟩
    · obtain ⟨st, hst, -⟩ := getSequence_bind hcut
      exact ⟨st, hst⟩
    · obtain ⟨st, hst, -⟩ := getSequence_bind hcut
      exact ⟨st, hst⟩
  obtain ⟨st, hst⟩ := hget
  have hrep := hs.sequences seq st hst
  rcases bind_some.mp h with ⟨e, hcut, rfl⟩ | ⟨_, t, hcut, hrest⟩
  · obtain ⟨hs', haround, st', hst', hsame, -, hthrown⟩ := cut_some hcut hs.sound hst hrep.2
    exact ⟨hs.around_same hs' haround ⟨st', hst',
      hrep.keep hsame haround.bufferBytes (hthrown e rfl)⟩, fun snap _ => haround.kept snap⟩
  · obtain ⟨ht, haround, st', hst', hsame, hdone, -⟩ := cut_some hcut hs.sound hst hrep.2
    rcases bind_some.mp hrest with ⟨e, hnote, -⟩ | ⟨_, u, hnote, hseal⟩
    · cases (note_some hnote).2
    obtain ⟨rfl, -⟩ := note_some hnote
    -- The rows are cut by now; sealing the new tail changes nothing that is read.
    have hcutRows : Refines { t with
        lists := t.lists.setSequence seq ((t.lists.sequences seq).take position) } := by
      rw [haround.lists]
      refine hs.around ht haround (setSequence_around _ seq _) rfl ⟨st', hst', ?_⟩
      rw [setSequence_self]
      exact hrep.take hsame haround.bufferBytes (hdone rfl).2
    obtain ⟨hs', hsealed⟩ := sealTail_follows hcutRows hseal
    exact ⟨hs', fun snap _ => (haround.kept snap).trans (hsealed.kept snap)⟩

theorem follows_snapshot (seq snap : Nat) :
    Keeps (Follows (.snapshot seq snap)) (perform (.snapshot seq snap)) := by
  intro s r s' h hs
  unfold perform at h
  obtain ⟨st, hst, hbody⟩ := getSequence_bind h
  obtain ⟨-, rfl⟩ := Prod.mk.inj (Option.some.inj hbody)
  have hnothing : ({ s with locals := [] ++ s.locals } : System).Sound := hs.sound
  exact ⟨hs.file hnothing (fun id hid => Or.inr (held_of_sequence hst hid))
    (hs.sequences seq st hst), fun snap' hother => Kept.file s st _ hother⟩

theorem follows_restore (seq snap : Nat) :
    Keeps (Follows (.restore seq snap)) (perform (.restore seq snap)) := by
  intro s r s' h hs
  unfold perform Op.restore at h
  obtain ⟨state, hstate, hbody⟩ := getSnapshot_bind h
  have hrep := hs.snapshots snap state hstate
  rcases bind_some.mp hbody with ⟨e, hrestore, -⟩ | ⟨_, t, hrestore, hnote⟩
  · obtain ⟨st, hst, hcheck⟩ := getSequence_bind hrestore
    rw [get_bind] at hcheck
    split at hcheck
    · cases (setSequence_some hcheck).2
    · obtain ⟨-, rfl⟩ := throw_some.mp hcheck
      exact ⟨hs, fun _ _ => Kept.refl _ _⟩
  · obtain ⟨st, hst, hcheck⟩ := getSequence_bind hrestore
    rw [get_bind] at hcheck
    split at hcheck
    · obtain ⟨rfl, -⟩ := setSequence_some hcheck
      obtain ⟨rfl, -⟩ := note_some hnote
      refine ⟨hs.around (hs.sound.put fun id => held_of_snapshot hstate) (Around.put s seq state)
        (setSequence_around _ seq _) rfl ⟨state, s.put_lookup seq state, ?_⟩,
        fun snap _ => (Around.put s seq state).kept snap⟩
      rw [setSequence_self]
      exact hrep
    · cases (throw_some.mp hcheck).1

theorem follows_prefixOf (snap target rows : Nat) :
    Keeps (Follows (.prefixOf snap target rows)) (perform (.prefixOf snap target rows)) := by
  intro s r s' h hs
  unfold perform at h
  obtain ⟨st, hst, hbody⟩ := getSnapshot_bind h
  have hrep := hs.snapshots snap st hst
  have hheld : ∀ id ∈ st.pointers, s.held id = true := fun id => held_of_snapshot hst
  rcases bind_some.mp hbody with ⟨e, hgrown, -⟩ | ⟨result, t, hgrown, hfile⟩
  · obtain ⟨hs', hframe, -⟩ := prefixOf_some hgrown hs.sound hrep.2 hheld
    exact ⟨hs.frame hs' hframe, fun snap' _ => hframe.kept snap'⟩
  · obtain ⟨ht, hframe, hresult⟩ := prefixOf_some hgrown hs.sound hrep.2 hheld
    obtain ⟨-, hsame, hrep', new, hnew, hpoints⟩ := hresult result rfl
    obtain ⟨-, rfl⟩ := Prod.mk.inj (Option.some.inj hfile)
    refine ⟨(hs.frame ht hframe).file hnew hpoints ?_, fun snap' hother =>
      (hframe.kept snap').trans (Kept.file t result _ hother)⟩
    rw [hframe.lists]
    exact hrep.take hsame hframe.bufferBytes hrep'

theorem readRows_follows {start count : Nat} (hs : Refines s)
    (hrep : RepresentsRows s.store st rows) (hheld : ∀ id ∈ st.pointers, s.held id = true)
    (h : (Op.readRows st start count >>= fun _ => pure ()) s = some (r, s')) :
    Refines s' ∧ Frame s s' := by
  rcases bind_some.mp h with ⟨e, hread, -⟩ | ⟨bytes, t, hread, hresult⟩
  · obtain ⟨hs', hframe, -⟩ := readRows_some hread hs.sound hrep.2 hheld
    exact ⟨hs.frame hs' hframe, hframe⟩
  · obtain ⟨hs', hframe, -⟩ := readRows_some hread hs.sound hrep.2 hheld
    obtain ⟨-, rfl⟩ := pure_some.mp hresult
    exact ⟨hs.frame hs' hframe, hframe⟩

/-- **One operation**, under any schedule, returning or throwing. -/
theorem follows_perform (a : Action) : Keeps (Follows a) (perform a) := by
  cases a with
  | construct seq rowBytes blockRows priority =>
    exact follows_construct seq rowBytes blockRows priority
  | append seq rows => exact follows_append seq rows
  | sealTail seq =>
    intro s r s' h hs
    obtain ⟨hs', haround⟩ := sealTail_follows hs h
    exact ⟨hs', fun snap _ => haround.kept snap⟩
  | trim seq position => exact follows_trim seq position
  | snapshot seq snap => exact follows_snapshot seq snap
  | restore seq snap => exact follows_restore seq snap
  | prefixOf snap target rows => exact follows_prefixOf snap target rows
  | readSequence seq start rows =>
    intro s r s' h hs
    unfold perform at h
    obtain ⟨st, hst, hbody⟩ := getSequence_bind h
    obtain ⟨hs', hframe⟩ :=
      readRows_follows hs (hs.sequences seq st hst) (fun id => held_of_sequence hst) hbody
    exact ⟨hs', fun snap _ => hframe.kept snap⟩
  | readSnapshot snap start rows =>
    intro s r s' h hs
    unfold perform at h
    obtain ⟨st, hst, hbody⟩ := getSnapshot_bind h
    obtain ⟨hs', hframe⟩ :=
      readRows_follows hs (hs.snapshots snap st hst) (fun id => held_of_snapshot hst) hbody
    exact ⟨hs', fun snap _ => hframe.kept snap⟩
  | destroy seq =>
    intro s r s' h hs
    obtain ⟨-, rfl⟩ := Prod.mk.inj (Option.some.inj h)
    exact ⟨hs.fewer (fun seq' st hst => Table.lookup_of_erase hst) fun _ _ => id,
      fun _ _ => ⟨rfl, rfl⟩⟩
  | discard snap =>
    intro s r s' h hs
    obtain ⟨-, rfl⟩ := Prod.mk.inj (Option.some.inj h)
    exact ⟨hs.fewer (fun _ _ => id) fun snap' st hst => Table.lookup_of_erase hst,
      fun snap' hother => ⟨AList.lookup_erase_ne (Ne.symm hother), rfl⟩⟩

theorem follows_step {a : Action × List Turn} (hs : Refines s) (h : step s a = some s') :
    Refines s' ∧ ∀ snap, ¬a.1.Writes snap → Kept snap s s' := by
  obtain ⟨⟨r, t⟩, hperform, rfl⟩ := Option.map_eq_some_iff.mp h
  obtain ⟨ht, hkept⟩ := follows_perform a.1 _ r t hperform ⟨hs.sound, hs.sequences, hs.snapshots⟩
  exact ⟨⟨ht.sound, ht.sequences, ht.snapshots⟩, hkept⟩

/-! ### Runs -/

variable {acts : List (Action × List Turn)}

theorem Refines.run (hs : Refines s) (h : run step s acts = some s') : Refines s' :=
  have hmeets : Meets step (fun _ _ => True) s acts := Meets.of_forall fun _ _ => trivial
  run_invariant (fun _ _ _ hs _ h => (follows_step hs h).1) hs hmeets h

/-- A snapshot that the run does not write is as it was at its start. -/
theorem kept_run (hs : Refines s) (hothers : ∀ a ∈ acts, ¬a.1.Writes snap)
    (h : run step s acts = some s') :
    Kept snap s s' := by
  have hstep : ∀ t a t', Refines t ∧ Kept snap s t → ¬a.1.Writes snap → step t a = some t' →
      Refines t' ∧ Kept snap s t' := by
    rintro t a t' ⟨ht, hkept⟩ hother hrun
    obtain ⟨ht', hkept'⟩ := follows_step ht hrun
    exact ⟨ht', hkept.trans (hkept' snap hother)⟩
  have hmeets : Meets step (fun _ a => ¬a.1.Writes snap) s acts := Meets.of_forall hothers
  exact (run_invariant hstep ⟨hs, Kept.refl snap s⟩ hmeets h).2

/-! ### What a reader gets -/

/-- In this state `read_rows` on the record reads the row list: it gives exactly the rows asked
    for or throws, and for rows that are there it succeeds. -/
structure ReadsAs (s : System) (st : Snapshot) (rows : List Row) : Prop where
  exact : ∀ start count schedule out t,
    Op.readRows st start count { s with schedule } = some (.ok out, t) →
      start + count ≤ rows.length ∧ out = ((rows.drop start).take count).flatten
  refuses : ∀ start count schedule, rows.length < start + count →
    ∃ e, Op.readRows st start count { s with schedule } = some (.error e, { s with schedule })
  succeeds : ∀ start count, start + count ≤ rows.length → s.store.error = none →
    Succeeds false (Op.readRows st start count) s

theorem Refines.readsAs (hs : Refines s) (hheld : ∀ id ∈ st.pointers, s.held id = true)
    (hst : RepresentsRows s.store st rows) :
    ReadsAs s st rows := by
  have hlength := hst.length
  refine ⟨fun start count schedule out t h => ?_, fun start count schedule hrange => ?_,
    fun start count hrange he => readRows_succeeds ⟨hs.sound, he⟩ hst.bytes hheld (hlength ▸ hrange)⟩
  · obtain ⟨-, -, hout⟩ := readRows_some h hs.sound hst.bytes hheld
    obtain ⟨hend, hbytes⟩ := hout out rfl
    refine ⟨hlength ▸ hend, ?_⟩
    have hdropped : ∀ row ∈ rows.drop start, row.length = st.rowBytes := fun row hmem =>
      hst.width row (List.mem_of_mem_drop hmem)
    rw [hbytes, flatten_take hdropped, flatten_drop hst.width]
  · refine ⟨"QSA KV read exceeds its snapshot", ?_⟩
    unfold Op.readRows
    rw [if_pos (by omega)]
    rfl

/-- An append that throws leaves the plain list, and the sequence in place. -/
theorem append_thrown {e : String} (hs : Refines s)
    (h : perform (.append seq rows) s = some (.error e, s')) :
    s'.lists = s.lists ∧ ∃ st, s'.sequences.lookup seq = some st := by
  unfold perform at h
  obtain ⟨st, hst, hbody⟩ := getSequence_bind h
  split at hbody
  · rename_i hsizes
    have hrows : ∀ row ∈ rows, row.length = st.rowBytes := by
      simpa using hsizes
    rcases bind_some.mp hbody with ⟨e', happend, -⟩ | ⟨_, t, happend, hnote⟩
    · obtain ⟨-, haround, st', hst', -⟩ :=
        append_some happend hs.sound hst (hs.sequences seq st hst).2 (flatten_length hrows)
      exact ⟨haround.lists, st', hst'⟩
    · cases (note_some hnote).2
  · exact absurd hbody not_blocked

/-! ### What succeeds -/

/-- What an operation needs: the sequences and snapshots are there, the rows have their size, the
    ranges lie in the plain lists, and the store takes blocks of that size and priority. -/
def System.Accepts (s : System) : Action → Prop
  | .construct _ rowBytes blockRows _ =>
    0 < rowBytes ∧ 0 < blockRows ∧ rowBytes * blockRows ≤ s.store.bufferBytes / 2
  | .append seq rows => ∃ st ∈ s.sequences.lookup seq,
    (0 ≤ st.priority ∧ st.priority ≤ 2) ∧ ∀ row ∈ rows, row.length = st.rowBytes
  | .sealTail seq => ∃ st ∈ s.sequences.lookup seq, 0 ≤ st.priority ∧ st.priority ≤ 2
  | .trim seq position => ∃ st ∈ s.sequences.lookup seq,
    (0 ≤ st.priority ∧ st.priority ≤ 2) ∧ position ≤ (s.lists.sequences seq).length
  | .snapshot seq _ => ∃ st, s.sequences.lookup seq = some st
  | .restore seq snap => ∃ st ∈ s.sequences.lookup seq, ∃ saved ∈ s.snapshots.lookup snap,
    SameGeometry st saved
  | .prefixOf snap _ rows => ∃ st ∈ s.snapshots.lookup snap,
    (0 ≤ st.priority ∧ st.priority ≤ 2) ∧ rows ≤ (s.lists.snapshots snap).length
  | .readSequence seq start rows => ∃ st, s.sequences.lookup seq = some st ∧
    start + rows ≤ (s.lists.sequences seq).length
  | .readSnapshot snap start rows => ∃ st, s.snapshots.lookup snap = some st ∧
    start + rows ≤ (s.lists.snapshots snap).length
  | .destroy _ => True
  | .discard _ => True

theorem RepresentsRows.writable (h : RepresentsRows s.store st rows)
    (hpriority : 0 ≤ st.priority ∧ st.priority ≤ 2) : Writable s.store.bufferBytes st :=
  ⟨h.bytes.rowBytes, h.bytes.blockRows, h.fits, hpriority⟩

theorem restore_succeeds {saved : Snapshot} (hs : Ready s) (hst : s.sequences.lookup seq = some st)
    (hsame : SameGeometry st saved) (hrep : RepresentsRows s.store saved rows) :
    Succeeds true (Op.restore seq saved) s := by
  unfold Op.restore
  refine Succeeds.getSequence_bind hst (Succeeds.get_bind (fun _ => rfl) ?_)
  have hmatches : Op.matchesGeometry s.store st saved = true := by
    unfold Op.matchesGeometry
    simp only [Bool.and_eq_true, decide_eq_true_eq]
    refine ⟨⟨⟨⟨hsame.rowBytes, hsame.blockRows⟩, hsame.priority⟩, hrep.bytes.blocks⟩, ?_⟩
    cases htb : saved.tailBlock with
    | none => exact hrep.bytes.tail_size htb
    | some id =>
      have htail := hrep.bytes.tail
      rw [htb] at htail
      obtain ⟨b, hb, hpayload⟩ := htail.2
      dsimp only
      rw [hb, ← hrep.bytes.tail_length, ← hpayload]
      exact (hs.sound.contents.sized id b hb).1.symm
  rw [if_pos hmatches]
  exact Succeeds.setSequence hs.error

/-- **An operation that is accepted succeeds.** -/
theorem perform_succeeds {a : Action} (hs : Refines s) (he : s.store.error = none)
    (h : s.Accepts a) : Succeeds true (perform a) s := by
  have hready : Ready s := ⟨hs.sound, he⟩
  cases a with
  | construct seq rowBytes blockRows priority =>
    obtain ⟨hrow, hblock, hfits⟩ := h
    have hvalid : ¬(rowBytes = 0 ∨ blockRows = 0 ∨
        s.store.bufferBytes / 2 / blockRows < rowBytes) := by
      have := (Nat.le_div_iff_mul_le hblock).mpr hfits
      omega
    have hbuild : Succeeds true (Op.construct seq rowBytes blockRows priority) s := by
      unfold Op.construct
      refine Succeeds.get_bind (fun _ => rfl) ?_
      rw [if_neg hvalid]
      exact Succeeds.setSequence he
    exact hbuild.bind fun _ _ _ _ ht => Succeeds.note ht
  | append seq rows =>
    obtain ⟨st, hst, hpriority, hrows⟩ := h
    have hrep := hs.sequences seq st hst
    unfold perform
    refine Succeeds.getSequence_bind hst ?_
    rw [if_pos (by simpa using hrows)]
    exact (append_succeeds hready hst (hrep.writable hpriority) hrep.bytes
      (flatten_length hrows)).bind fun _ _ _ _ ht => Succeeds.note ht
  | sealTail seq =>
    obtain ⟨st, hst, hpriority⟩ := h
    have hrep := hs.sequences seq st hst
    exact sealTail_succeeds hready hst (hrep.writable hpriority) hrep.bytes
  | trim seq position =>
    obtain ⟨st, hst, hpriority, hrange⟩ := h
    have hrep := hs.sequences seq st hst
    unfold perform
    refine (cut_succeeds hready hst hrep.bytes (hrep.length ▸ hrange)).bind
      fun schedule _ t hcut ht => (Succeeds.note ht).bind fun schedule' _ u hnote hu => ?_
    obtain ⟨hsound, haround, st', hst', hsame, hdone, -⟩ := cut_some hcut hs.sound hst hrep.bytes
    obtain ⟨rfl, -⟩ := note_some hnote
    have hwritable := (hrep.writable hpriority).same hsame
    rw [← haround.bufferBytes] at hwritable
    exact sealTail_succeeds ⟨hsound, ht⟩ hst' hwritable (hdone rfl).2
  | snapshot seq snap =>
    obtain ⟨st, hst⟩ := h
    unfold perform
    refine Succeeds.getSequence_bind hst ?_
    exact (Succeeds.modify (fun _ => rfl) he).bind fun _ _ _ _ ht => Succeeds.note ht
  | restore seq snap =>
    obtain ⟨st, hst, saved, hsaved, hsame⟩ := h
    unfold perform
    refine Succeeds.getSnapshot_bind hsaved ?_
    exact (restore_succeeds hready hst hsame (hs.snapshots snap saved hsaved)).bind
      fun _ _ _ _ ht => Succeeds.note ht
  | prefixOf snap target rows =>
    obtain ⟨st, hst, hpriority, hrows⟩ := h
    have hrep := hs.snapshots snap st hst
    unfold perform
    refine Succeeds.getSnapshot_bind hst ?_
    exact (prefixOf_succeeds hready (hrep.writable hpriority) hrep.bytes
      (fun _ => held_of_snapshot hst) (hrep.length ▸ hrows)).bind fun _ _ _ _ ht =>
        (Succeeds.modify (fun _ => rfl) ht).bind fun _ _ _ _ hu => Succeeds.note hu
  | readSequence seq start rows =>
    obtain ⟨st, hst, hrange⟩ := h
    have hrep := hs.sequences seq st hst
    unfold perform
    refine Succeeds.getSequence_bind hst ?_
    exact (readRows_succeeds hready hrep.bytes (fun _ => held_of_sequence hst)
      (hrep.length ▸ hrange)).bind fun _ _ _ _ ht => Succeeds.pure ht
  | readSnapshot snap start rows =>
    obtain ⟨st, hst, hrange⟩ := h
    have hrep := hs.snapshots snap st hst
    unfold perform
    refine Succeeds.getSnapshot_bind hst ?_
    exact (readRows_succeeds hready hrep.bytes (fun _ => held_of_snapshot hst)
      (hrep.length ▸ hrange)).bind fun _ _ _ _ ht => Succeeds.pure ht
  | destroy seq => exact Succeeds.modify (fun _ => rfl) he
  | discard snap => exact Succeeds.modify (fun _ => rfl) he

/-! ### The refinement -/

/-- **A sequence refines a list of rows.**  In every state that any run of operations on any
    number of sequences and snapshots comes to, under any schedule of the worker, each of them
    reads as its plain list; a snapshot goes on doing so whatever runs afterwards; an append
    that throws leaves the sequence reading as before; and where no file operation has failed, each
    operation that is accepted succeeds. -/
theorem sequences_refine_row_lists {bufferBytes budgetBytes : Nat}
    {acts : List (Action × List Turn)} {s : System}
    (h : run step (initial bufferBytes budgetBytes) acts = some s) :
    (∀ seq st, s.sequences.lookup seq = some st → ReadsAs s st (s.lists.sequences seq)) ∧
    (∀ snap st, s.snapshots.lookup snap = some st → ReadsAs s st (s.lists.snapshots snap)) ∧
    (∀ snap st later s', s.snapshots.lookup snap = some st →
      (∀ a ∈ later, ¬a.1.Writes snap) → run step s later = some s' →
        s'.snapshots.lookup snap = some st ∧ ReadsAs s' st (s.lists.snapshots snap)) ∧
    (∀ seq rows schedule e s', perform (.append seq rows) { s with schedule } =
        some (.error e, s') →
      ∃ st, s'.sequences.lookup seq = some st ∧ ReadsAs s' st (s.lists.sequences seq)) ∧
    (s.store.error = none → ∀ a, s.Accepts a → Succeeds true (perform a) s) := by
  have hs : Refines s := (Refines.initial bufferBytes budgetBytes).run h
  refine ⟨fun seq st hst => ?_, fun snap st hst => ?_, fun snap st later s' hst hothers hrun => ?_,
    fun seq rows schedule e s' happend => ?_, fun he a => perform_succeeds hs he⟩
  · exact hs.readsAs (fun id => held_of_sequence hst) (hs.sequences seq st hst)
  · exact hs.readsAs (fun id => held_of_snapshot hst) (hs.snapshots snap st hst)
  · obtain ⟨hlookup, hlist⟩ := kept_run hs hothers hrun
    have hs' := hs.run hrun
    rw [hst] at hlookup
    refine ⟨hlookup, hs'.readsAs (fun id => held_of_snapshot hlookup) ?_⟩
    rw [← hlist]
    exact hs'.snapshots snap st hlookup
  · have hstart : Refines { s with schedule } := ⟨hs.sound, hs.sequences, hs.snapshots⟩
    obtain ⟨hs', -⟩ := follows_append seq rows _ _ s' happend hstart
    obtain ⟨hlists, st, hst⟩ := append_thrown hstart happend
    refine ⟨st, hst, hs'.readsAs (fun id => held_of_sequence hst) ?_⟩
    have hrep := hs'.sequences seq st hst
    rw [hlists] at hrep
    exact hrep

/-- Two snapshots and a restore around rows of one byte, blocks of two rows. -/
def sharedBlocks : List (Action × List Turn) :=
  [(.construct 0 1 2 0, []), (.append 0 [[1], [2], [3]], []), (.snapshot 0 0, []),
    (.trim 0 1, []), (.append 0 [[7], [8]], []), (.snapshot 0 1, []), (.prefixOf 0 2 1, []),
    (.construct 1 1 2 0, []), (.restore 1 0, []), (.append 1 [[9]], [])]

/-- The restored sequence has the rows of the snapshot and those appended since. -/
theorem sequences_refine_row_lists_replayed :
    ∃ s st, run step (initial 4096 8192) sharedBlocks = some s ∧ s.sequences.lookup 1 = some st ∧
      ReadsAs s st [[1], [2], [3], [9]] ∧ (∃ t, Op.readRows st 1 3 s = some (.ok [2, 3, 9], t)) ∧
      Succeeds true (perform (.trim 1 2)) s := by
  have hrun : ((run step (initial 4096 8192) sharedBlocks).bind fun s =>
      (s.sequences.lookup 1).bind fun st => (Op.readRows st 1 3 s).map fun out =>
        (s.lists.sequences 1, out.1.toOption, s.store.error, st.priority)) =
      some ([[1], [2], [3], [9]], some [2, 3, 9], none, 0) := by decide +kernel
  obtain ⟨s, hs, hrest⟩ := Option.bind_eq_some_iff.mp hrun
  obtain ⟨st, hst, hread⟩ := Option.bind_eq_some_iff.mp hrest
  obtain ⟨⟨out, t⟩, hout, hresult⟩ := Option.map_eq_some_iff.mp hread
  simp only [Prod.mk.injEq] at hresult
  obtain ⟨hlist, hbytes, herror, hpriority⟩ := hresult
  obtain ⟨hsequences, -, -, -, hsucceeds⟩ := sequences_refine_row_lists hs
  refine ⟨s, st, hs, hst, hlist ▸ hsequences 1 st hst, ⟨t, ?_⟩,
    hsucceeds herror (.trim 1 2) ⟨st, hst, by omega, ?_⟩⟩
  · cases out with
    | error e => cases hbytes
    | ok bytes =>
      obtain rfl : bytes = [2, 3, 9] := Option.some.inj hbytes
      exact hout
  · rw [hlist]
    decide

end TyloQuant.QsaKv
