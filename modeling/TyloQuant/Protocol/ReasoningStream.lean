import TyloQuant.Protocol.Reasoning

/-!
# Reasoning in fragments

`tagged` divides a text character by character, and drops the line breaks behind a closing marker
wherever they arrive.  A call of `feed` is a run of it that starts without that memory; so a
stream differs from the undivided text by the line breaks that a later fragment begins with.
-/

namespace TyloQuant.Protocol

open Lib List

namespace TaggedReasoningParser

/-! ### The division without fragments -/

def IsMarker (marker : List Char) : Prop := marker = opening ∨ marker = closing

/-- A marker stands at the head, or may do so when more arrives. -/
def Begins (xs : List Char) : Prop := ∃ marker, IsMarker marker ∧ (marker <+: xs ∨ xs <+: marker)

theorem not_begins_append {xs : List Char} (h : ¬Begins xs) (ys : List Char) :
    ¬Begins (xs ++ ys) := by
  rintro ⟨marker, hmarker, hpre | hpre⟩
  · exact not_prefix_append (fun hm => h ⟨marker, hmarker, Or.inl hm⟩)
      (fun hx => h ⟨marker, hmarker, Or.inr hx⟩) ys hpre
  · exact h ⟨marker, hmarker, Or.inr ((prefix_append xs ys).trans hpre)⟩

theorem not_both {xs : List Char} (ho : opening <+: xs) (hc : closing <+: xs) : False := by
  obtain ⟨t, rfl⟩ := ho
  obtain ⟨t', ht'⟩ := hc
  simp [opening, closing] at ht'

/-- In which channel a character goes is the state, with whether line breaks are dropped. -/
structure TagState where
  inReasoning : Bool
  skipping : Bool := false
deriving DecidableEq, Repr

def pull (s : TagState) (xs : List Char) : Pull Empty TagState (Bool × Char) Char :=
  if opening <+: xs then .emit { inReasoning := true } [] (xs.drop opening.length)
  else if closing <+: xs then
    .emit { inReasoning := false, skipping := true } [] (xs.drop closing.length)
  else if xs <+: opening ∨ xs <+: closing then .wait
  else
    match xs with
    | [] => .wait
    | x :: rest =>
      if s.skipping ∧ isBreak x then .emit s [] rest
      else .emit { s with skipping := false } [(s.inReasoning, x)] rest

section Pulls

variable {s : TagState} {xs rest : List Char} {x : Char}

theorem pull_opening (h : opening <+: xs) :
    pull s xs = .emit { inReasoning := true } [] (xs.drop opening.length) := if_pos h

theorem pull_closing (h : closing <+: xs) :
    pull s xs = .emit { inReasoning := false, skipping := true } [] (xs.drop closing.length) := by
  unfold pull
  rw [if_neg fun ho => not_both ho h, if_pos h]

theorem pull_wait (hnone : ∀ marker, IsMarker marker → ¬marker <+: xs)
    (h : ∃ marker, IsMarker marker ∧ xs <+: marker) : pull s xs = .wait := by
  unfold pull
  rw [if_neg (hnone _ (Or.inl rfl)), if_neg (hnone _ (Or.inr rfl)), if_pos]
  obtain ⟨marker, rfl | rfl, hm⟩ := h
  · exact Or.inl hm
  · exact Or.inr hm

theorem pull_char (h : ¬Begins (x :: rest)) :
    pull s (x :: rest) = if s.skipping ∧ isBreak x then .emit s [] rest
      else .emit { s with skipping := false } [(s.inReasoning, x)] rest := by
  unfold pull
  rw [if_neg fun ho => h ⟨_, Or.inl rfl, Or.inl ho⟩,
    if_neg fun hc => h ⟨_, Or.inr rfl, Or.inl hc⟩, if_neg]
  rintro (ho | hc)
  · exact h ⟨_, Or.inl rfl, Or.inr ho⟩
  · exact h ⟨_, Or.inr rfl, Or.inr hc⟩

/-- The ways in which a text can begin. -/
theorem begins_cases (xs : List Char) :
    opening <+: xs ∨ closing <+: xs ∨
      ((∀ marker, IsMarker marker → ¬marker <+: xs) ∧ ∃ marker, IsMarker marker ∧ xs <+: marker) ∨
      ∃ x rest, xs = x :: rest ∧ ¬Begins (x :: rest) := by
  by_cases ho : opening <+: xs
  · exact Or.inl ho
  by_cases hc : closing <+: xs
  · exact Or.inr (Or.inl hc)
  have hnone : ∀ marker, IsMarker marker → ¬marker <+: xs := by
    rintro marker (rfl | rfl)
    · exact ho
    · exact hc
  by_cases hb : ∃ marker, IsMarker marker ∧ xs <+: marker
  · exact Or.inr (Or.inr (Or.inl ⟨hnone, hb⟩))
  · cases xs with
    | nil => exact absurd ⟨opening, Or.inl rfl, List.nil_prefix⟩ hb
    | cons x rest =>
      refine Or.inr (Or.inr (Or.inr ⟨x, rest, rfl, ?_⟩))
      rintro ⟨marker, hmarker, hm | hm⟩
      · exact hnone marker hmarker hm
      · exact hb ⟨marker, hmarker, hm⟩

end Pulls

/-- The scanner that divides a text. -/
def tagged : Scanner Empty TagState (Bool × Char) Char where
  pull := pull
  shorter := by
    intro s xs s' out rest h
    rcases begins_cases xs with ho | hc | ⟨hnone, hb⟩ | ⟨x, xs, rfl, hx⟩
    · rw [pull_opening ho] at h
      cases h
      have hle := ho.length_le
      rw [length_drop]
      simp only [opening, length_cons, length_nil] at hle ⊢
      omega
    · rw [pull_closing hc] at h
      cases h
      have hle := hc.length_le
      rw [length_drop]
      simp only [closing, length_cons, length_nil] at hle ⊢
      omega
    · rw [pull_wait hnone hb] at h
      cases h
    · rw [pull_char hx] at h
      split at h
      all_goals
        cases h
        exact Nat.lt_succ_self _
  steady := by
    intro s xs ys h
    rcases begins_cases xs with ho | hc | ⟨hnone, hb⟩ | ⟨x, xs, rfl, hx⟩
    · rw [pull_opening ho, pull_opening (ho.trans (prefix_append xs ys)),
        drop_append_of_le_length ho.length_le]
      rfl
    · rw [pull_closing hc, pull_closing (hc.trans (prefix_append xs ys)),
        drop_append_of_le_length hc.length_le]
      rfl
    · exact absurd (pull_wait hnone hb) h
    · have hx' : ¬Begins (x :: (xs ++ ys)) := not_begins_append hx ys
      rw [cons_append, pull_char hx, pull_char hx']
      split <;> rfl

/-- A run of `tagged`, which never fails. -/
def scan (s : TagState) (xs : List Char) : Scanned TagState (Bool × Char) Char :=
  match tagged.run s xs with
  | .ok r => r
  | .error e => e.elim

theorem run_eq (s : TagState) (xs : List Char) : tagged.run s xs = .ok (scan s xs) := by
  unfold scan
  cases h : tagged.run s xs with
  | ok r => rfl
  | error e => exact e.elim

theorem scan_wait {s : TagState} {xs : List Char} (h : pull s xs = .wait) :
    scan s xs = ⟨s, [], xs⟩ :=
  Except.ok.inj ((run_eq s xs).symm.trans (tagged.run_wait h))

theorem scan_emit {s s' : TagState} {xs rest : List Char} {out : List (Bool × Char)}
    (h : pull s xs = .emit s' out rest) : scan s xs = (scan s' rest).after out := by
  have hrun := tagged.run_emit h
  rw [run_eq, run_eq] at hrun
  exact Except.ok.inj hrun

theorem scan_append (s : TagState) (xs ys : List Char) :
    scan s (xs ++ ys) =
      (scan (scan s xs).state ((scan s xs).rest ++ ys)).after (scan s xs).out := by
  have hrun := tagged.run_append s xs ys
  rw [run_eq, run_eq] at hrun
  have hrest : tagged.run (scan s xs).state ((scan s xs).rest ++ ys) = .ok _ := run_eq _ _
  simp only [Except.bind, Except.map, hrest] at hrun
  exact Except.ok.inj hrun

theorem scan_settled (s : TagState) (xs : List Char) :
    pull (scan s xs).state (scan s xs).rest = .wait :=
  tagged.run_settled (run_eq s xs)

theorem scan_induction {P : TagState → List Char → Scanned TagState (Bool × Char) Char → Prop}
    (hwait : ∀ s xs, pull s xs = .wait → P s xs ⟨s, [], xs⟩)
    (hemit : ∀ s xs s' out rest, pull s xs = .emit s' out rest → P s' rest (scan s' rest) →
      P s xs ((scan s' rest).after out)) (s : TagState) (xs : List Char) : P s xs (scan s xs) := by
  refine tagged.run_induction (P := fun s xs result => ∀ r, result = .ok r → P s xs r)
    ?_ ?_ ?_ s xs (scan s xs) (run_eq s xs)
  · intro s xs h r hr
    cases hr
    exact hwait s xs h
  · intro s xs e
    exact e.elim
  · intro s xs s' out rest h ih r hr
    rw [run_eq] at hr ih
    cases hr
    exact hemit s xs s' out rest h (ih _ rfl)

/-! ### Line breaks that are dropped -/

theorem not_begins_break {x : Char} {rest : List Char} (h : isBreak x = true) :
    ¬Begins (x :: rest) := by
  have hx : x ≠ '<' := by
    rintro rfl
    simp [isBreak] at h
  rintro ⟨marker, rfl | rfl, hm | hm⟩
  · exact hx (cons_prefix_cons.mp hm).1.symm
  · exact hx (cons_prefix_cons.mp hm).1
  · exact hx (cons_prefix_cons.mp hm).1.symm
  · exact hx (cons_prefix_cons.mp hm).1

/-- Two scans that differ by what the first one has emitted before. -/
structure Agree (ahead : List (Bool × Char)) (a b : Scanned TagState (Bool × Char) Char) :
    Prop where
  out : a.out = ahead ++ b.out
  rest : a.rest = b.rest
  inReasoning : a.state.inReasoning = b.state.inReasoning

/-- Without the memory of a closing marker the line breaks behind it are emitted. -/
theorem scan_skip (m : Bool) (xs : List Char) :
    Agree ((xs.takeWhile isBreak).map (m, ·)) (scan { inReasoning := m } xs)
        (scan { inReasoning := m, skipping := true } xs) ∧
      Agree [] (scan { inReasoning := m } (xs.dropWhile isBreak))
        (scan { inReasoning := m, skipping := true } xs) := by
  induction xs with
  | nil =>
    have hwait : ∀ s, pull s [] = .wait := fun s => rfl
    rw [takeWhile_nil, dropWhile_nil, scan_wait (hwait _), scan_wait (hwait _)]
    exact ⟨⟨rfl, rfl, rfl⟩, ⟨rfl, rfl, rfl⟩⟩
  | cons x xs ih =>
    by_cases hx : isBreak x = true
    · have hskip : pull { inReasoning := m, skipping := true } (x :: xs) =
          .emit { inReasoning := m, skipping := true } [] xs := by
        rw [pull_char (not_begins_break hx), if_pos ⟨rfl, hx⟩]
      have hkeep : pull { inReasoning := m } (x :: xs) =
          .emit { inReasoning := m } [(m, x)] xs := by
        rw [pull_char (not_begins_break hx), if_neg (by simp)]
      rw [takeWhile_cons_of_pos hx, dropWhile_cons_of_pos hx, scan_emit hskip,
        scan_emit hkeep]
      exact ⟨⟨by simp [ih.1.out], ih.1.rest, ih.1.inReasoning⟩,
        ⟨by simpa using ih.2.out, ih.2.rest, ih.2.inReasoning⟩⟩
    · rw [takeWhile_cons_of_neg hx, dropWhile_cons_of_neg hx]
      have hagree : Agree [] (scan { inReasoning := m } (x :: xs))
          (scan { inReasoning := m, skipping := true } (x :: xs)) := by
        rcases begins_cases (x :: xs) with ho | hc | ⟨hnone, hb⟩ | ⟨y, ys, hy, hbegins⟩
        · rw [scan_emit (pull_opening ho), scan_emit (pull_opening ho)]
          exact ⟨rfl, rfl, rfl⟩
        · rw [scan_emit (pull_closing hc), scan_emit (pull_closing hc)]
          exact ⟨rfl, rfl, rfl⟩
        · rw [scan_wait (pull_wait hnone hb), scan_wait (pull_wait hnone hb)]
          exact ⟨rfl, rfl, rfl⟩
        · rw [← hy] at hbegins
          have hchar := pull_char (s := { inReasoning := m, skipping := true }) hbegins
          have hchar' := pull_char (s := { inReasoning := m }) hbegins
          rw [if_neg fun h => hx h.2] at hchar hchar'
          rw [scan_emit hchar, scan_emit hchar']
          exact ⟨rfl, rfl, rfl⟩
      exact ⟨hagree, hagree⟩

/-! ### The loop is a scan -/

/-- The two texts that a scan has emitted. -/
def channels (out : List (Bool × Char)) : ReasoningDelta :=
  { reasoning := (out.filter fun c => c.1).map fun c => c.2
    content := (out.filter fun c => !c.1).map fun c => c.2 }

theorem channels_append (a b : List (Bool × Char)) :
    channels (a ++ b) = (channels a).append (channels b) := by
  simp [channels, ReasoningDelta.append]

theorem channels_visible (m : Bool) (text : List Char) :
    channels (text.map (m, ·)) = ReasoningDelta.visible m text := by
  cases m <;>
    simp [channels, ReasoningDelta.visible, filter_map, Function.comp_def]

variable {m : Bool}

theorem scan_pass {xs : List Char} {n : Nat} (hn : n ≤ xs.length)
    (h : ∀ i < n, ¬Begins (xs.drop i)) :
    scan { inReasoning := m } xs =
      (scan { inReasoning := m } (xs.drop n)).after ((xs.take n).map (m, ·)) := by
  have hpass := tagged.run_pass (s := { inReasoning := m }) (f := fun x => [(m, x)]) hn ?_
  · rw [run_eq, run_eq, ← map_eq_flatMap] at hpass
    exact Except.ok.inj hpass
  · intro i hi x rest hx
    have hbegins := h i hi
    rw [hx] at hbegins
    show pull _ _ = _
    rw [pull_char hbegins, if_neg (by simp)]

variable {marker : List Char}

theorem isMarker_iff : marker ∈ [opening, closing] ↔ IsMarker marker := mem_pair

/-- **A call of the loop is a scan** that starts without the memory of a closing marker. -/
theorem loop_eq (m : Bool) (buffer : List Char) :
    loop m buffer =
      ({ inReasoning := (scan { inReasoning := m } buffer).state.inReasoning
         buffer := (scan { inReasoning := m } buffer).rest },
        channels (scan { inReasoning := m } buffer).out) := by
  induction hn : buffer.length using Nat.strong_induction_on generalizing m buffer with
  | _ n ih =>
    rw [loop]
    split
    · rename_i hnil
      rw [hnil, scan_wait rfl]
      rfl
    rename_i hne
    split
    · rename_i position marker hfirst
      obtain ⟨hmarker, hfind, hbefore⟩ := firstMarker_some hfirst
      have hmne : marker ≠ [] := by rcases hmarker with rfl | rfl <;> decide
      have hlt := find_lt hmne hfind
      have hat := (find_some hfind).1
      have hnext := length_behind marker (buffer.drop (position + marker.length))
      have hshort : (behind marker (buffer.drop (position + marker.length))).length < n := by
        have hpos := length_pos_of_ne_nil hmne
        rw [length_drop] at hnext
        omega
      have hpass : scan { inReasoning := m } buffer =
          (scan { inReasoning := m } (buffer.drop position)).after
            ((buffer.take position).map (m, ·)) := by
        refine scan_pass (Nat.le_of_lt hlt) fun i hi => ?_
        rintro ⟨other, hother, hm | hm⟩
        · exact hbefore other hother i hi hm
        · -- No marker is longer than another one with a character in front of it.
          have hlen : other.length ≤ marker.length + 1 := by
            rcases hother with rfl | rfl <;> rcases hmarker with rfl | rfl <;> decide
          have hge := hat.length_le
          rw [length_drop] at hge
          have heq : buffer.drop i = other := hm.eq_of_length_le (by rw [length_drop]; omega)
          exact hbefore other hother i hi (heq ▸ prefix_rfl)
      rw [ih _ hshort _ _ rfl, hpass]
      have hvisible := channels_visible m (buffer.take position)
      rcases hmarker with rfl | rfl
      · have hopening : behind opening (buffer.drop (position + opening.length)) =
            buffer.drop (position + opening.length) := if_neg (by decide)
        rw [scan_emit (pull_opening hat), drop_drop, hopening, ← hvisible]
        exact congrArg _ (channels_append _ _).symm
      · have hclosing : behind closing (buffer.drop (position + closing.length)) =
            (buffer.drop (position + closing.length)).dropWhile isBreak := if_pos rfl
        have hskip := (scan_skip false (buffer.drop (position + closing.length))).2
        have hfalse : decide (closing = opening) = false := by decide
        rw [scan_emit (pull_closing hat), drop_drop, hclosing, ← hvisible, hfalse,
          hskip.rest, hskip.inReasoning, hskip.out]
        exact congrArg _ (channels_append _ _).symm
    · rename_i hnone
      have hmarkers := firstMarker_none hnone
      obtain ⟨hle, hheld, hfree⟩ := heldWidth_spec hmarkers
      have hpass : scan { inReasoning := m } buffer =
          (scan { inReasoning := m } (buffer.drop (buffer.length - protectedSuffix buffer))).after
            ((buffer.take (buffer.length - protectedSuffix buffer)).map (m, ·)) := by
        refine scan_pass (Nat.sub_le _ _) fun i hi => ?_
        rintro ⟨other, hother, hm | hm⟩
        · exact hmarkers other (isMarker_iff.mpr hother) i hm
        · exact hfree i hi other (isMarker_iff.mpr hother) hm
      have hwait : pull { inReasoning := m }
          (buffer.drop (buffer.length - protectedSuffix buffer)) = .wait := by
        refine pull_wait (fun marker hmarker => hmarkers marker (isMarker_iff.mpr hmarker) _) ?_
        by_cases hzero : protectedSuffix buffer = 0
        · rw [hzero, Nat.sub_zero, drop_length]
          exact ⟨opening, Or.inl rfl, List.nil_prefix⟩
        · obtain ⟨marker, hmarker, hpre⟩ := hheld hzero
          exact ⟨marker, isMarker_iff.mp hmarker, hpre⟩
      have hvisible := channels_visible m (buffer.take (buffer.length - protectedSuffix buffer))
      rw [hpass, scan_wait hwait]
      exact Prod.ext rfl (hvisible.symm.trans (congrArg channels (List.append_nil _).symm))

/-! ### The end of a stream -/

/-- What `finish` sees at the end of a text is the beginning of a marker, or nothing. -/
theorem settled_cases {s : TagState} {xs : List Char} (h : pull s xs = .wait) :
    ∃ marker, IsMarker marker ∧ xs <+: marker := by
  rcases begins_cases xs with ho | hc | ⟨-, hb⟩ | ⟨x, rest, rfl, hx⟩
  · rw [pull_opening ho] at h
    cases h
  · rw [pull_closing hc] at h
    cases h
  · exact hb
  · rw [pull_char hx] at h
    split at h <;> cases h

/-- The scanner waits whatever its state is. -/
theorem wait_of_wait {s : TagState} {xs : List Char} (h : pull s xs = .wait) (t : TagState) :
    pull t xs = .wait := by
  rcases begins_cases xs with ho | hc | ⟨hnone, hb⟩ | ⟨x, rest, rfl, hx⟩
  · rw [pull_opening ho] at h
    cases h
  · rw [pull_closing hc] at h
    cases h
  · exact pull_wait hnone hb
  · rw [pull_char hx] at h
    split at h <;> cases h

theorem finish_settled {s : TagState} {xs : List Char} (h : pull s xs = .wait) :
    finish { inReasoning := m, buffer := xs } = {} := by
  unfold finish
  by_cases hnil : xs = []
  · subst hnil
    cases m <;> rfl
  · rw [if_pos]
    obtain ⟨marker, rfl | rfl, hm⟩ := settled_cases h
    · exact ⟨hnil, Or.inl hm⟩
    · exact ⟨hnil, Or.inr hm⟩

theorem append_empty (d : ReasoningDelta) : d.append {} = d := by
  simp [ReasoningDelta.append]

theorem split_eq (text : List Char) (m : Bool) :
    splitTaggedReasoning text m = channels (scan { inReasoning := m } text).out := by
  unfold splitTaggedReasoning feed
  split
  · rename_i hnil
    rw [hnil, scan_wait rfl]
    cases m <;> rfl
  · simp only [List.nil_append, loop_eq, finish_settled (scan_settled _ text), append_empty]

/-! ### The fragments of a stream -/

/-- The fragments of a stream, each as a scan that starts without the memory of a closing
    marker. -/
def scans (m : Bool) (rest : List Char) : List (List Char) → List (Bool × Char)
  | [] => []
  | text :: texts =>
    let r := scan { inReasoning := m } (rest ++ text)
    r.out ++ scans r.state.inReasoning r.rest texts

/-- The same with the memory. -/
def remembered (s : TagState) (rest : List Char) : List (List Char) → List (Bool × Char)
  | [] => []
  | text :: texts =>
    let r := scan s (rest ++ text)
    r.out ++ remembered r.state r.rest texts

theorem stream_eq {s : TagState} {rest : List Char} (h : pull s rest = .wait)
    (texts : List (List Char)) :
    stream { inReasoning := s.inReasoning, buffer := rest } texts =
      channels (scans s.inReasoning rest texts) := by
  induction texts generalizing s rest with
  | nil => exact finish_settled h
  | cons text texts ih =>
    rw [stream, scans, channels_append]
    unfold feed
    split
    · rename_i hnil
      have hwait := wait_of_wait h { inReasoning := s.inReasoning }
      rw [hnil, List.append_nil, scan_wait hwait]
      exact congrArg _ (ih h)
    · rw [loop_eq]
      exact congrArg _ (ih (scan_settled _ _))

theorem remembered_eq {s : TagState} {rest : List Char} (h : pull s rest = .wait)
    (texts : List (List Char)) :
    remembered s rest texts = (scan s (rest ++ texts.flatten)).out := by
  induction texts generalizing s rest with
  | nil =>
    rw [flatten_nil, List.append_nil, scan_wait h]
    rfl
  | cons text texts ih =>
    rw [remembered, flatten_cons, ← List.append_assoc,
      scan_append s (rest ++ text) texts.flatten, ih (scan_settled _ _)]
    rfl

/-- The line breaks that the fragments bring too late to be dropped. -/
def late (s : TagState) (rest : List Char) : List (List Char) → Nat
  | [] => 0
  | text :: texts =>
    let r := scan s (rest ++ text)
    (if s.skipping then ((rest ++ text).takeWhile isBreak).length else 0) +
      late r.state r.rest texts

/-- A scan is in its answer while it drops line breaks. -/
theorem skipping_scan (s : TagState) (xs : List Char)
    (h : s.skipping = true → s.inReasoning = false) :
    (scan s xs).state.skipping = true → (scan s xs).state.inReasoning = false := by
  refine scan_induction (P := fun s _ r => (s.skipping = true → s.inReasoning = false) →
    r.state.skipping = true → r.state.inReasoning = false) ?_ ?_ s xs h
  · intro s xs _ h
    exact h
  · intro s xs s' out rest hpull ih hs
    refine ih ?_
    rcases begins_cases xs with ho | hc | ⟨hnone, hb⟩ | ⟨x, xs, rfl, hx⟩
    · rw [pull_opening ho] at hpull
      cases hpull
      exact fun hskip => by cases hskip
    · rw [pull_closing hc] at hpull
      cases hpull
      exact fun _ => rfl
    · rw [pull_wait hnone hb] at hpull
      cases hpull
    · rw [pull_char hx] at hpull
      split at hpull
      · cases hpull
        exact hs
      · cases hpull
        exact fun hskip => by cases hskip

/-- The fragments' reasoning is that of the whole text, their content has the late line breaks
    more, and without these nothing differs. -/
theorem scans_late {s : TagState} (hs : s.skipping = true → s.inReasoning = false)
    (rest : List Char) (texts : List (List Char)) :
    (channels (scans s.inReasoning rest texts)).content.length =
        (channels (remembered s rest texts)).content.length + late s rest texts ∧
      (late s rest texts = 0 → scans s.inReasoning rest texts = remembered s rest texts) := by
  induction texts generalizing s rest with
  | nil => exact ⟨rfl, fun _ => rfl⟩
  | cons text texts ih =>
    obtain ⟨hlength, hsame⟩ := ih (skipping_scan s (rest ++ text) hs) (scan s (rest ++ text)).rest
    have hagree : Agree (if s.skipping then
        ((rest ++ text).takeWhile isBreak).map (false, ·) else [])
        (scan { inReasoning := s.inReasoning } (rest ++ text)) (scan s (rest ++ text)) := by
      obtain ⟨m, skipping⟩ := s
      cases skipping with
      | false => exact ⟨rfl, rfl, rfl⟩
      | true =>
        obtain rfl : m = false := hs rfl
        exact (scan_skip false (rest ++ text)).1
    simp only [scans, remembered, late, hagree.out, hagree.rest, hagree.inReasoning,
      channels_append, ReasoningDelta.append, length_append]
    refine ⟨?_, ?_⟩
    · rw [hlength]
      split
      · rw [channels_visible]
        simp only [ReasoningDelta.visible, Bool.false_eq_true, if_false]
        omega
      · simp only [channels, filter_nil, map_nil, length_nil]
        omega
    · intro hzero
      rw [hsame (by omega)]
      split
      · rename_i hskip
        rw [if_pos hskip] at hzero
        have hnil : (rest ++ text).takeWhile isBreak = [] :=
          eq_nil_of_length_eq_zero (by omega)
        rw [hnil]
        rfl
      · rfl

/-! ### Where the late line breaks are -/

/-- The text ends with a closing marker, or with one and line breaks behind it. -/
def EndsClosed (text : List Char) : Prop :=
  ∃ before breaks, text = before ++ closing ++ breaks ∧ ∀ c ∈ breaks, isBreak c = true

def StartsWithBreak (text : List Char) : Prop := ∃ c, text.head? = some c ∧ isBreak c = true

/-- While line breaks are dropped, the text up to there ends closed. -/
theorem skipping_endsClosed (s : TagState) (xs before : List Char)
    (h : s.skipping = true → EndsClosed before) :
    ∃ taken, xs = taken ++ (scan s xs).rest ∧
      ((scan s xs).state.skipping = true → EndsClosed (before ++ taken)) := by
  refine scan_induction (P := fun s xs r => ∀ before, (s.skipping = true → EndsClosed before) →
    ∃ taken, xs = taken ++ r.rest ∧ (r.state.skipping = true → EndsClosed (before ++ taken)))
    ?_ ?_ s xs before h
  · intro s xs _ before h
    exact ⟨[], rfl, by simpa using h⟩
  · intro s xs s' out rest hpull ih before h
    have hstep : ∃ head, xs = head ++ rest ∧ (s'.skipping = true → EndsClosed (before ++ head)) := by
      rcases begins_cases xs with ho | hc | ⟨hnone, hb⟩ | ⟨x, xs, rfl, hx⟩
      · rw [pull_opening ho] at hpull
        cases hpull
        refine ⟨opening, (prefix_iff_eq_append.mp ho).symm, ?_⟩
        intro hskip
        cases hskip
      · rw [pull_closing hc] at hpull
        cases hpull
        refine ⟨closing, (prefix_iff_eq_append.mp hc).symm, fun _ => ?_⟩
        exact ⟨before, [], (List.append_nil _).symm, fun c hc => by cases hc⟩
      · rw [pull_wait hnone hb] at hpull
        cases hpull
      · rw [pull_char hx] at hpull
        refine ⟨[x], ?_⟩
        split at hpull
        · rename_i hskip
          cases hpull
          refine ⟨rfl, fun _ => ?_⟩
          obtain ⟨w, breaks, rfl, hbreaks⟩ := h hskip.1
          exact ⟨w, breaks ++ [x], by simp,
            forall_mem_append.mpr ⟨hbreaks, forall_mem_singleton.mpr hskip.2⟩⟩
        · cases hpull
          exact ⟨rfl, fun hskip => by cases hskip⟩
    obtain ⟨head, rfl, hhead⟩ := hstep
    obtain ⟨taken, hrest, htaken⟩ := ih (before ++ head) hhead
    refine ⟨head ++ taken, ?_, ?_⟩
    · rw [List.append_assoc]
      exact congrArg _ hrest
    · rw [← List.append_assoc]
      exact htaken

variable {breaks : List Char}

theorem scan_breaks (h : ∀ c ∈ breaks, isBreak c = true) :
    scan { inReasoning := false, skipping := true } breaks =
      ⟨{ inReasoning := false, skipping := true }, [], []⟩ := by
  induction breaks with
  | nil => exact scan_wait rfl
  | cons x breaks ih =>
    have hx := h x mem_cons_self
    have hpull := @pull_char { inReasoning := false, skipping := true } breaks x
      (not_begins_break hx)
    rw [if_pos ⟨rfl, hx⟩] at hpull
    rw [scan_emit hpull, ih fun c hc => h c (mem_cons_of_mem x hc)]
    rfl

variable {held : List Char}

theorem scan_to_closing (s : TagState)
    (hfree : ∀ i < held.length, ¬Begins ((held ++ (closing ++ breaks)).drop i))
    (hbreaks : ∀ c ∈ breaks, isBreak c = true) :
    (scan s (held ++ (closing ++ breaks))).state.skipping = true ∧
      (scan s (held ++ (closing ++ breaks))).rest = [] := by
  induction held generalizing s with
  | nil =>
    rw [List.nil_append, scan_emit (pull_closing (prefix_append closing breaks)),
      drop_left, scan_breaks hbreaks]
    exact ⟨rfl, rfl⟩
  | cons x held ih =>
    have hx : ¬Begins (x :: (held ++ (closing ++ breaks))) := hfree 0 (Nat.succ_pos _)
    have hrest := fun t => ih t fun i hi => hfree (i + 1) (Nat.succ_lt_succ hi)
    have hpull := pull_char (s := s) hx
    split at hpull
    · rw [cons_append, scan_emit hpull]
      exact hrest _
    · rw [cons_append, scan_emit hpull]
      exact hrest _

/-- A marker has its first character nowhere else. -/
theorem marker_eq (h : IsMarker marker) : ∃ rest, marker = '<' :: rest ∧ '<' ∉ rest := by
  rcases h with rfl | rfl
  · exact ⟨_, rfl, by decide⟩
  · exact ⟨_, rfl, by decide⟩

/-- The beginning of a marker does not grow into one when a marker follows. -/
theorem not_begins_held {after : List Char} (hmarker : IsMarker marker) (hheld : held <+: marker)
    (hnone : ∀ m, IsMarker m → ¬m <+: held) {i : Nat} (hi : i < held.length) :
    ¬Begins ((held ++ '<' :: after).drop i) := by
  obtain ⟨rest, rfl, hrest⟩ := marker_eq hmarker
  rintro ⟨m, hm, hbegins⟩
  obtain ⟨mrest, rfl, hmrest⟩ := marker_eq hm
  cases i with
  | zero =>
    cases held with
    | nil => exact absurd hi (Nat.not_lt_zero 0)
    | cons x held =>
      have hmem : '<' ∈ mrest := by
        rcases hbegins with hpre | hpre
        · rcases List.prefix_or_prefix_of_prefix hpre (prefix_append _ _) with h | h
          · exact absurd h (hnone _ hm)
          · obtain ⟨t, ht⟩ := h
            rw [← ht, drop_zero, prefix_append_right_inj] at hpre
            cases t with
            | nil =>
              have hself : x :: held = '<' :: mrest := by simpa using ht
              have hnot := hnone _ hm
              rw [hself] at hnot
              exact absurd prefix_rfl hnot
            | cons c t =>
              have htail : mrest = held ++ c :: t := by
                simp only [cons_append, List.cons.injEq] at ht
                exact ht.2.symm
              rw [htail, (cons_prefix_cons.mp hpre).1]
              simp
        · obtain ⟨t, ht⟩ := hpre
          have htail : mrest = held ++ '<' :: after ++ t := by
            simp only [drop_zero, cons_append, List.cons.injEq] at ht
            exact ht.2.symm
          rw [htail]
          simp
      exact hmrest hmem
  | succ i =>
    rw [drop_append_of_le_length (Nat.le_of_lt hi)] at hbegins
    have hdrop : held.drop (i + 1) <+: rest.drop i := hheld.drop (i + 1)
    cases hq : held.drop (i + 1) with
    | nil =>
      have hlen := congrArg List.length hq
      rw [length_drop, length_nil] at hlen
      omega
    | cons y q =>
      have hy : y ∈ rest := by
        rw [hq] at hdrop
        exact mem_of_mem_drop (hdrop.subset mem_cons_self)
      rw [hq] at hbegins
      have hhead : '<' = y := by
        rcases hbegins with hpre | hpre
        · exact (cons_prefix_cons.mp hpre).1
        · exact (cons_prefix_cons.mp hpre).1.symm
      exact hrest (hhead ▸ hy)

/-- Behind the beginning of a marker a closing marker is found all the same. -/
theorem scan_closed {s : TagState} (hheld : pull s held = .wait)
    (hbreaks : ∀ c ∈ breaks, isBreak c = true) :
    (scan s (held ++ closing ++ breaks)).state.skipping = true ∧
      (scan s (held ++ closing ++ breaks)).rest = [] := by
  rw [List.append_assoc]
  obtain ⟨marker, hmarker, hpre⟩ := settled_cases hheld
  refine scan_to_closing s (fun i hi => ?_) hbreaks
  refine not_begins_held hmarker hpre ?_ hi
  rintro m (rfl | rfl) hm
  · rw [pull_opening hm] at hheld
    cases hheld
  · rw [pull_closing hm] at hheld
    cases hheld

/-- A text ends closed exactly when the scan of it drops line breaks and holds nothing back. -/
theorem endsClosed_iff (m : Bool) (text : List Char) :
    EndsClosed text ↔ (scan { inReasoning := m } text).state.skipping = true ∧
      (scan { inReasoning := m } text).rest = [] := by
  constructor
  · rintro ⟨before, breaks, rfl, hbreaks⟩
    have hclosed := scan_closed (scan_settled { inReasoning := m } before) hbreaks
    rw [List.append_assoc, scan_append, ← List.append_assoc]
    exact hclosed
  · rintro ⟨hskip, hrest⟩
    obtain ⟨taken, htext, htaken⟩ := skipping_endsClosed { inReasoning := m } text []
      fun h => by cases h
    rw [hrest, List.append_nil] at htext
    rw [htext]
    exact htaken hskip

theorem startsWithBreak_iff {text : List Char} :
    StartsWithBreak text ↔ text.takeWhile isBreak ≠ [] := by
  cases text with
  | nil => simp [StartsWithBreak]
  | cons x text =>
    by_cases hx : isBreak x = true
    · simp [StartsWithBreak, hx]
    · simp [StartsWithBreak, hx]

theorem held_not_break {s : TagState} {x : Char} {rest : List Char}
    (h : pull s (x :: rest) = .wait) : isBreak x = false := by
  obtain ⟨marker, hmarker, hpre⟩ := settled_cases h
  obtain ⟨tail, rfl, -⟩ := marker_eq hmarker
  obtain rfl := (cons_prefix_cons.mp hpre).1
  rfl

/-- No line break is late exactly when no fragment ends closed before one. -/
theorem late_eq_zero_iff {m : Bool} {text : List Char} (texts : List (List Char)) :
    late (scan { inReasoning := m } text).state (scan { inReasoning := m } text).rest texts = 0 ↔
      ∀ before after, texts = before ++ after →
        ¬(EndsClosed (text ++ before.flatten) ∧ StartsWithBreak after.flatten) := by
  induction texts generalizing text with
  | nil =>
    refine iff_of_true rfl ?_
    rintro before after hsplit ⟨-, c, hc, -⟩
    obtain ⟨-, rfl⟩ := append_eq_nil_iff.mp hsplit.symm
    cases hc
  | cons fragment texts ih =>
    have hnext : ∀ xs, (scan (scan { inReasoning := m } text).state
        ((scan { inReasoning := m } text).rest ++ xs)).state =
          (scan { inReasoning := m } (text ++ xs)).state ∧
        (scan (scan { inReasoning := m } text).state
          ((scan { inReasoning := m } text).rest ++ xs)).rest =
            (scan { inReasoning := m } (text ++ xs)).rest := by
      intro xs
      rw [scan_append { inReasoning := m } text xs]
      exact ⟨rfl, rfl⟩
    have hbreak : (if (scan { inReasoning := m } text).state.skipping then
        (((scan { inReasoning := m } text).rest ++ fragment).takeWhile isBreak).length else 0) = 0 ↔
          ¬(EndsClosed text ∧ StartsWithBreak fragment) := by
      rw [endsClosed_iff m, startsWithBreak_iff]
      cases hskip : (scan { inReasoning := m } text).state.skipping with
      | false => simp
      | true =>
        cases hrest : (scan { inReasoning := m } text).rest with
        | nil => simp
        | cons x rest =>
          have hx : isBreak x = false := held_not_break (hrest ▸ scan_settled _ text)
          simp [hx]
    rw [late, (hnext fragment).1, (hnext fragment).2, Nat.add_eq_zero_iff, ih, hbreak]
    constructor
    · rintro ⟨hhere, hlater⟩ before after hsplit
      cases before with
      | cons x before =>
        obtain ⟨rfl, hrest⟩ := cons_eq_cons.mp hsplit
        rw [flatten_cons, ← List.append_assoc]
        exact hlater before after hrest
      | nil =>
        obtain rfl : fragment :: texts = after := hsplit
        rw [flatten_nil, List.append_nil, flatten_cons]
        rintro ⟨hclosed, hbreak⟩
        cases fragment with
        | nil => exact hlater [] texts rfl ⟨by simpa using hclosed, hbreak⟩
        | cons c fragment => exact hhere ⟨hclosed, hbreak⟩
    · intro hall
      refine ⟨?_, ?_⟩
      · rintro ⟨hclosed, c, hc, hbreak⟩
        refine hall [] (fragment :: texts) rfl ⟨by simpa using hclosed, c, ?_, hbreak⟩
        rw [flatten_cons, head?_append, hc]
        rfl
      · intro before after hsplit
        have hthis := hall (fragment :: before) after (congrArg _ hsplit)
        rwa [flatten_cons, ← List.append_assoc] at hthis

end TaggedReasoningParser

open TaggedReasoningParser

/-- **A stream is divided as the undivided text is** exactly when no fragment ends with a closing
    marker, or with one and line breaks behind it, before a fragment that begins with a line
    break. -/
theorem stream_eq_split_iff (startInReasoning : Bool) (texts : List (List Char)) :
    ({ inReasoning := startInReasoning } : TaggedReasoningParser).stream texts =
        splitTaggedReasoning texts.flatten startInReasoning ↔
      ∀ before after, texts = before ++ after →
        ¬(EndsClosed before.flatten ∧ StartsWithBreak after.flatten) := by
  have hwait : ∀ s, pull s [] = .wait := fun s => rfl
  have hstart : scan { inReasoning := startInReasoning } [] =
      ⟨{ inReasoning := startInReasoning }, [], []⟩ := scan_wait (hwait _)
  obtain ⟨hlength, hsame⟩ :=
    scans_late (s := { inReasoning := startInReasoning }) (fun h => by cases h) [] texts
  have hlate := @late_eq_zero_iff startInReasoning [] texts
  simp only [hstart, List.nil_append] at hlate
  have hstream := stream_eq (hwait { inReasoning := startInReasoning }) texts
  have hremembered := remembered_eq (hwait { inReasoning := startInReasoning }) texts
  rw [List.nil_append] at hremembered
  rw [hstream, split_eq, ← hremembered, ← hlate]
  constructor
  · intro heq
    rw [heq] at hlength
    omega
  · intro hzero
    rw [hsame hzero]

/-- The line break after the closing marker arrives late and is taken for content. -/
theorem lateBreak_content :
    ({} : TaggedReasoningParser).stream ["</think>".toList, "\nyes".toList] =
        { content := "\nyes".toList } ∧
      splitTaggedReasoning "</think>\nyes".toList false = { content := "yes".toList } := by
  decide +kernel

end TyloQuant.Protocol
