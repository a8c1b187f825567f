import TyloQuant.Protocol.XmlToolCalls
import TyloQuant.Protocol.ToolStreams

/-!
# Streams of tool calls in XML

The parser of the Qwen and the GLM dialect as a scanner.  A call ends with the first closing tag
up to which the text is a call, and no closing tag that comes later changes that.
-/

namespace TyloQuant.Protocol

open Lib List

namespace XMLToolCallStreamParser

variable {V E : Type} (p : XMLToolCallStreamParser V E)

theorem closedCall_none {buffer : List Char} {search : Nat}
    (h : findFrom stop buffer search = none) : p.closedCall buffer search = .ok none := by
  rw [closedCall]
  split
  · rfl
  · rename_i closeAt hsome
    cases hsome.symm.trans h

variable {call : ToolCall}

section Closed

variable {buffer : List Char} {search closeAt : Nat}
  (h : findFrom stop buffer search = some closeAt)
include h

theorem closedCall_call (hparse : p.parseCall (buffer.take closeAt) = .ok call) :
    p.closedCall buffer search = .ok (some (call, closeAt)) := by
  rw [closedCall]
  split
  · rename_i hnone
    cases hnone.symm.trans h
  · rename_i i hi
    cases hi.symm.trans h
    rw [hparse]

theorem closedCall_other {e : E} (hparse : p.parseCall (buffer.take closeAt) = .error (.other e)) :
    p.closedCall buffer search = .error (.other e) := by
  rw [closedCall]
  split
  · rename_i hnone
    cases hnone.symm.trans h
  · rename_i i hi
    cases hi.symm.trans h
    rw [hparse]

theorem closedCall_retry {message : String}
    (hparse : p.parseCall (buffer.take closeAt) = .error (.parseError message)) :
    p.closedCall buffer search = p.closedCall buffer (closeAt + stop.length) := by
  rw [closedCall]
  split
  · rename_i hnone
    cases hnone.symm.trans h
  · rename_i i hi
    cases hi.symm.trans h
    rw [hparse]

end Closed

/-- The induction over the closing tags that a search for a call is. -/
theorem closedCall_induction {buffer : List Char}
    {P : Nat → Except (Raised E) (Option (ToolCall × Nat)) → Prop}
    (hnone : ∀ search, findFrom stop buffer search = none → P search (.ok none))
    (hcall : ∀ search i call, findFrom stop buffer search = some i →
      p.parseCall (buffer.take i) = .ok call → P search (.ok (some (call, i))))
    (hother : ∀ search i e, findFrom stop buffer search = some i →
      p.parseCall (buffer.take i) = .error (.other e) → P search (.error (.other e)))
    (hretry : ∀ search i message, findFrom stop buffer search = some i →
      p.parseCall (buffer.take i) = .error (.parseError message) →
      P (i + stop.length) (p.closedCall buffer (i + stop.length)) →
      P search (p.closedCall buffer (i + stop.length)))
    (search : Nat) : P search (p.closedCall buffer search) := by
  induction hn : buffer.length - search using Nat.strong_induction_on generalizing search with
  | _ n ih =>
    cases hfind : findFrom stop buffer search with
    | none =>
      rw [p.closedCall_none hfind]
      exact hnone search hfind
    | some i =>
      have hfound := findFrom_some (by decide) hfind
      have hpos : 0 < stop.length := by decide
      cases hparse : p.parseCall (buffer.take i) with
      | ok call =>
        rw [p.closedCall_call hfind hparse]
        exact hcall search i call hfind hparse
      | error e =>
        cases e with
        | other e =>
          rw [p.closedCall_other hfind hparse]
          exact hother search i e hfind hparse
        | parseError message =>
          rw [p.closedCall_retry hfind hparse]
          exact hretry search i message hfind hparse (ih _ (by omega) _ rfl)

variable {i : Nat}

theorem closedCall_found {buffer : List Char} {search : Nat}
    (h : p.closedCall buffer search = .ok (some (call, i))) :
    stop <+: buffer.drop i ∧ p.parseCall (buffer.take i) = .ok call := by
  refine p.closedCall_induction (P := fun _ result => result = .ok (some (call, i)) →
    stop <+: buffer.drop i ∧ p.parseCall (buffer.take i) = .ok call) ?_ ?_ ?_ ?_ search h
  · intro search _ h
    cases h
  · intro search j call' hfind hparse h
    cases h
    exact ⟨findFrom_begins hfind, hparse⟩
  · intro search j e _ _ h
    cases h
  · intro search j message _ _ ih h
    exact ih h

/-- A closing tag stays where it is when more text comes, and so does what is in front of it. -/
theorem closedCall_append {buffer : List Char} {search : Nat}
    (h : p.closedCall buffer search ≠ .ok none) (ys : List Char) :
    p.closedCall (buffer ++ ys) search = p.closedCall buffer search := by
  have htake : ∀ search i, findFrom stop buffer search = some i →
      (buffer ++ ys).take i = buffer.take i := by
    intro search i hfind
    have hfound := findFrom_some (by decide) hfind
    exact take_append_of_le_length (by omega)
  have hmore : ∀ search i, findFrom stop buffer search = some i →
      findFrom stop (buffer ++ ys) search = some i :=
    fun search i hfind => findFrom_append (by decide) hfind ys
  refine p.closedCall_induction (P := fun search result => result ≠ .ok none →
    p.closedCall (buffer ++ ys) search = result) ?_ ?_ ?_ ?_ search h
  · intro search _ h
    exact absurd rfl h
  · intro search i call hfind hparse _
    exact p.closedCall_call (hmore search i hfind) ((htake search i hfind).symm ▸ hparse)
  · intro search i e hfind hparse _
    exact p.closedCall_other (hmore search i hfind) ((htake search i hfind).symm ▸ hparse)
  · intro search i message hfind hparse ih h
    rw [p.closedCall_retry (hmore search i hfind) ((htake search i hfind).symm ▸ hparse)]
    exact ih h

variable {text : List Char}

theorem stop_apart {j : Nat} (hi : stop <+: text.drop i) (hj : stop <+: text.drop j) (hlt : i < j) :
    i + stop.length ≤ j := by
  by_contra hoverlap
  have hhead : ∀ k < stop.length, k ≠ 0 → stop[k]? ≠ stop[0]? := by decide
  refine hhead (j - i) (by omega) (by omega) ?_
  have hat : ∀ {at' k : Nat}, stop <+: text.drop at' → k < stop.length →
      stop[k]? = text[at' + k]? := by
    intro at' k hpre hk
    obtain ⟨rest, hrest⟩ := hpre
    rw [← getElem?_drop, ← hrest, getElem?_append_left hk]
  have hleft := hat hi (k := j - i) (by omega)
  have hright := hat hj (k := 0) (by decide)
  rw [hleft, hright]
  congr 1
  omega

/-- While no call is closed, the text up to any closing tag fails to be one. -/
theorem closedCall_waits {buffer : List Char} {search : Nat}
    (h : p.closedCall buffer search = .ok none) (hsearch : search ≤ i)
    (hi : stop <+: buffer.drop i) : ∃ message,
      p.parseCall (buffer.take i) = .error (.parseError message) := by
  refine p.closedCall_induction (P := fun search result => result = .ok none → search ≤ i →
    ∃ message, p.parseCall (buffer.take i) = .error (.parseError message))
    ?_ ?_ ?_ ?_ search h hsearch
  · intro search hnone _ hle
    refine absurd ?_ (find_none (Option.map_eq_none_iff.mp hnone) (i - search))
    rw [drop_drop, Nat.add_sub_cancel' hle]
    exact hi
  · intro search j call _ _ h
    cases h
  · intro search j e _ _ h
    cases h
  · intro search j message hfind hparse ih h hle
    obtain ⟨k, hk, hj⟩ := Option.map_eq_some_iff.mp hfind
    by_cases hat : i = j
    · exact ⟨message, hat ▸ hparse⟩
    · refine ih h ?_
      refine stop_apart (findFrom_begins hfind) hi ?_
      by_contra hbefore
      refine (find_some hk).2 (i - search) (by omega) ?_
      rw [drop_drop, Nat.add_sub_cancel' hle]
      exact hi

/-- The call behind a start tag. -/
def pullCall (buffer : List Char) : Pull (Raised E) Unit Piece Char :=
  match p.closedCall buffer 0 with
  | .error e => .fail e
  | .ok none => .wait
  | .ok (some (call, closeAt)) =>
    .emit () [.block (start ++ buffer.take (closeAt + stop.length)) [call]]
      (buffer.drop (closeAt + stop.length))

/-- What is taken off at the head of a text: a call with its tags, or one character. -/
def pull (text : List Char) : Pull (Raised E) Unit Piece Char :=
  if start <+: text then p.pullCall (text.drop start.length)
  else if text <+: start then .wait
  else takeOff text

theorem pull_fail {buffer : List Char} {e : Raised E} (h : p.closedCall buffer 0 = .error e) :
    p.pull (start ++ buffer) = .fail e := by
  rw [pull, if_pos (prefix_append start buffer), drop_left, pullCall, h]

theorem pull_wait {buffer : List Char} (h : p.closedCall buffer 0 = .ok none) :
    p.pull (start ++ buffer) = .wait := by
  rw [pull, if_pos (prefix_append start buffer), drop_left, pullCall, h]

theorem pull_call {buffer : List Char} {closeAt : Nat}
    (h : p.closedCall buffer 0 = .ok (some (call, closeAt))) :
    p.pull (start ++ buffer) =
      .emit () [.block (start ++ buffer.take (closeAt + stop.length)) [call]]
        (buffer.drop (closeAt + stop.length)) := by
  rw [pull, if_pos (prefix_append start buffer), drop_left, pullCall, h]

theorem pull_held (h : text <+: start) (h' : ¬start <+: text) : p.pull text = .wait := by
  rw [pull, if_neg h', if_pos h]

variable {rest : List Char}

theorem pull_text {c : Char} (h : ¬start <+: c :: rest) (h' : ¬c :: rest <+: start) :
    p.pull (c :: rest) = .emit () [.text c] rest := by
  rw [pull, if_neg h, if_neg h', takeOff]

theorem start_or (text : List Char) : (∃ buffer, text = start ++ buffer) ∨
    (¬start <+: text ∧ text <+: start) ∨ (¬start <+: text ∧ ¬text <+: start) := by
  by_cases hstart : start <+: text
  · obtain ⟨buffer, rfl⟩ := hstart
    exact .inl ⟨buffer, rfl⟩
  · by_cases hheld : text <+: start
    · exact .inr (.inl ⟨hstart, hheld⟩)
    · exact .inr (.inr ⟨hstart, hheld⟩)

/-- How a step takes something off. -/
theorem pull_emits {out : List Piece} {u : Unit} (h : p.pull text = .emit u out rest) :
    (∃ body call, out = [.block (start ++ body ++ stop) [call]] ∧
      p.parseCall body = .ok call ∧ text = start ++ body ++ stop ++ rest) ∨
    ∃ c, out = [.text c] ∧ text = c :: rest := by
  rcases start_or text with ⟨buffer, rfl⟩ | ⟨hstart, hheld⟩ | ⟨hstart, hheld⟩
  · cases hclosed : p.closedCall buffer 0 with
    | error e =>
      rw [p.pull_fail hclosed] at h
      cases h
    | ok closed =>
      cases closed with
      | none =>
        rw [p.pull_wait hclosed] at h
        cases h
      | some found =>
        obtain ⟨call, closeAt⟩ := found
        obtain ⟨hstop, hparse⟩ := p.closedCall_found hclosed
        rw [p.pull_call hclosed] at h
        cases h
        have htake := take_through hstop
        refine .inl ⟨buffer.take closeAt, call, ?_, hparse, ?_⟩
        · rw [htake, List.append_assoc]
        · rw [List.append_assoc start, ← htake, List.append_assoc, take_append_drop]
  · rw [p.pull_held hheld hstart] at h
    cases h
  · cases text with
    | nil => exact absurd List.nil_prefix hheld
    | cons c text =>
      rw [p.pull_text hstart hheld] at h
      cases h
      exact .inr ⟨c, rfl, rfl⟩

/-- The parser as a scanner. -/
def scanner : Scanner (Raised E) Unit Piece Char where
  pull _ text := p.pull text
  shorter := by
    intro _ text _ out rest h
    rcases p.pull_emits h with ⟨body, call, -, -, rfl⟩ | ⟨c, -, rfl⟩
    · have hpos : 0 < start.length := by decide
      simp only [length_append]
      omega
    · exact Nat.lt_succ_self rest.length
  steady := by
    intro _ text ys h
    rcases start_or text with ⟨buffer, rfl⟩ | ⟨hstart, hheld⟩ | ⟨hstart, hheld⟩
    · rw [List.append_assoc]
      cases hclosed : p.closedCall buffer 0 with
      | error e =>
        have hmore := p.closedCall_append (by rw [hclosed]; simp) ys
        rw [p.pull_fail hclosed, p.pull_fail (hmore.trans hclosed)]
        rfl
      | ok closed =>
        cases closed with
        | none => exact absurd (p.pull_wait hclosed) h
        | some found =>
          obtain ⟨call, closeAt⟩ := found
          have hmore := p.closedCall_append (by rw [hclosed]; simp) ys
          have hlen := (p.closedCall_found hclosed).1.length_le
          have hlt := p.closedCall_bounds hclosed
          rw [length_drop] at hlen
          rw [p.pull_call hclosed, p.pull_call (hmore.trans hclosed)]
          rw [take_append_of_le_length (by omega), drop_append_of_le_length (by omega)]
          rfl
    · exact absurd (p.pull_held hheld hstart) h
    · cases text with
      | nil => exact absurd List.nil_prefix hheld
      | cons c text =>
        have hpre := not_prefix_append hstart hheld ys
        rw [p.pull_text hstart hheld]
        exact p.pull_text hpre fun hlong =>
          hheld ((prefix_append (c :: text) ys).trans hlong)

/-- The text that a parser has taken in and not given out. -/
def held (s : XmlState) : List Char := if s.inCall then start ++ s.buffer else s.buffer

/-- The state of a parser that holds a text back. -/
def stateOf (rest : List Char) : XmlState :=
  if start <+: rest then { buffer := rest.drop start.length, inCall := true }
  else { buffer := rest }

theorem held_stateOf (rest : List Char) : held (stateOf rest) = rest := by
  unfold stateOf
  split
  · rename_i hstart
    obtain ⟨buffer, rfl⟩ := hstart
    rw [drop_left]
    rfl
  · rfl

theorem stateOf_call (buffer : List Char) :
    stateOf (start ++ buffer) = { buffer, inCall := true } := by
  rw [stateOf, if_pos (prefix_append start buffer), drop_left]

theorem loop_call {buffer : List Char} {closeAt : Nat} (hne : buffer ≠ [])
    (h : p.closedCall buffer 0 = .ok (some (call, closeAt)))
    (hrest : buffer.drop (closeAt + stop.length) = rest) :
    p.loop { buffer, inCall := true } =
      (p.loop { buffer := rest }).map fun t => (t.1, Delta.append { calls := [call] } t.2) := by
  rw [loop, if_neg hne, if_pos rfl]
  split
  · rename_i e he
    cases he.symm.trans h
  · rename_i he
    cases he.symm.trans h
  · rename_i call' closeAt' he
    cases he.symm.trans h
    rw [hrest]
    cases p.loop { buffer := rest } <;> rfl

theorem loop_open {buffer : List Char} {markerAt : Nat} (hne : buffer ≠ [])
    (h : find start buffer = some markerAt) :
    p.loop { buffer } =
      (p.loop { buffer := buffer.drop (markerAt + start.length), inCall := true }).map
        fun t => (t.1, Delta.append { visible := buffer.take markerAt } t.2) := by
  rw [loop, if_neg hne, if_neg Bool.false_ne_true]
  split
  · rename_i i hi
    cases hi.symm.trans h
    cases p.loop { buffer := buffer.drop (markerAt + start.length), inCall := true } <;> rfl
  · rename_i hnone
    cases hnone.symm.trans h

theorem loop_pass {buffer : List Char} (hne : buffer ≠ []) (h : find start buffer = none) :
    p.loop { buffer } =
      .ok ({ buffer := buffer.drop (buffer.length - protectedPrefixWidth buffer start) },
        { visible := buffer.take (buffer.length - protectedPrefixWidth buffer start) }) := by
  rw [loop, if_neg hne, if_neg Bool.false_ne_true]
  split
  · rename_i i hi
    cases hi.symm.trans h
  · rfl

theorem loop_nil (inCall : Bool) : p.loop { buffer := [], inCall } =
      (p.scanner.run () (held { buffer := [], inCall })).map (shownAs stateOf) := by
  rw [loop, if_pos rfl]
  cases inCall with
  | false =>
    have hrun : p.scanner.run () [] = .ok ⟨(), [], []⟩ :=
      p.scanner.run_wait (p.pull_held List.nil_prefix (by decide))
    show _ = (p.scanner.run () []).map (shownAs stateOf)
    rw [hrun]
    rfl
  | true =>
    have hrun : p.scanner.run () (start ++ []) = .ok ⟨(), [], start ++ []⟩ :=
      p.scanner.run_wait (p.pull_wait (p.closedCall_none (by decide)))
    show _ = (p.scanner.run () (start ++ [])).map (shownAs stateOf)
    rw [hrun]
    rfl

section Step

variable {buffer : List Char} (hne : buffer ≠ [])
  (ih : ∀ s : XmlState, s.buffer.length < buffer.length →
    p.loop s = (p.scanner.run () (held s)).map (shownAs stateOf))
include hne ih

theorem loop_inCall : p.loop { buffer, inCall := true } =
    (p.scanner.run () (start ++ buffer)).map (shownAs stateOf) := by
  cases hclosed : p.closedCall buffer 0 with
  | error e =>
    have hrun : p.scanner.run () (start ++ buffer) = .error e :=
      p.scanner.run_fail (p.pull_fail hclosed)
    rw [hrun, loop, if_neg hne, if_pos rfl]
    split <;> rename_i he <;> cases he.symm.trans hclosed
    rfl
  | ok closed =>
    cases closed with
    | none =>
      have hrun : p.scanner.run () (start ++ buffer) = .ok ⟨(), [], start ++ buffer⟩ :=
        p.scanner.run_wait (p.pull_wait hclosed)
      rw [hrun, loop, if_neg hne, if_pos rfl]
      split <;> rename_i he <;> cases he.symm.trans hclosed
      show _ = Except.ok (stateOf (start ++ buffer), deltaOf [])
      rw [stateOf_call]
      rfl
    | some found =>
      obtain ⟨call, closeAt⟩ := found
      have hlt := p.closedCall_bounds hclosed
      have hlen : (buffer.drop (closeAt + stop.length)).length < buffer.length := by
        rw [length_drop]
        have hpos : 0 < stop.length := by decide
        omega
      have hrun : p.scanner.run () (start ++ buffer) = _ := p.scanner.run_emit (p.pull_call hclosed)
      rw [p.loop_call hne hclosed rfl, ih { buffer := _ } hlen, hrun, map_shown_after,
        deltaOf_block]
      rfl

theorem loop_visible : p.loop { buffer } = (p.scanner.run () buffer).map (shownAs stateOf) := by
  cases hfind : find start buffer with
  | some markerAt =>
    obtain ⟨htag, hfirst⟩ := find_some hfind
    have hlt := find_lt (by decide) hfind
    have hpass : p.scanner.run () buffer = _ := p.scanner.run_pass (f := fun c => [Piece.text c])
      hlt.le (by
        intro i hi c rest hdrop
        refine p.pull_text (hdrop ▸ hfirst i hi) ?_
        exact hdrop ▸ not_prefix_before (by decide) htag hi)
    have hlen : (buffer.drop (markerAt + start.length)).length < buffer.length := by
      rw [length_drop]
      have hpos : 0 < start.length := by decide
      omega
    have hheld : held { buffer := buffer.drop (markerAt + start.length), inCall := true } =
        buffer.drop markerAt := by
      obtain ⟨tail, htail⟩ := htag
      show start ++ buffer.drop (markerAt + start.length) = buffer.drop markerAt
      rw [← drop_drop, ← htail, drop_left]
    rw [p.loop_open hne hfind, ih { buffer := _, inCall := true } hlen, hheld, hpass,
      map_shown_after, deltaOf_text]
  | none =>
    obtain ⟨hpre, hfirst⟩ := heldWidth_one (find_none hfind)
    have hpass : p.scanner.run () buffer = _ := p.scanner.run_pass (f := fun c => [Piece.text c])
      (n := buffer.length - protectedPrefixWidth buffer start) (Nat.sub_le _ _) (by
        intro i hi c rest hdrop
        refine p.pull_text (hdrop ▸ find_none hfind i) ?_
        exact hdrop ▸ hfirst i hi)
    have hrun : p.scanner.run ()
        (buffer.drop (buffer.length - protectedPrefixWidth buffer start)) = _ :=
      p.scanner.run_wait (p.pull_held hpre (find_none hfind _))
    rw [p.loop_pass hne hfind, hpass, hrun, map_shown_after]
    show _ = Except.ok (stateOf _, Delta.append _ (deltaOf []))
    rw [stateOf, if_neg (find_none hfind _), deltaOf_text, deltaOf_nil, Delta.append_nil]

end Step

/-- **The loop of `feed` is a run of the scanner**, on the text that the parser held back and the
    new text. -/
theorem loop_eq (s : XmlState) : p.loop s = (p.scanner.run () (held s)).map (shownAs stateOf) := by
  induction hn : s.buffer.length using Nat.strong_induction_on generalizing s with
  | _ n ih =>
    obtain ⟨buffer, inCall⟩ := s
    have ih' : ∀ s : XmlState, s.buffer.length < buffer.length →
        p.loop s = (p.scanner.run () (held s)).map (shownAs stateOf) :=
      fun s hs => ih _ (hn ▸ hs) s rfl
    by_cases hne : buffer = []
    · rw [hne]
      exact p.loop_nil inCall
    · cases inCall with
      | true => exact p.loop_inCall hne ih'
      | false => exact p.loop_visible hne ih'

/-- `finish`, as a function of the text that is held back. -/
def finishText (rest : List Char) : Except (Raised E) Delta := p.finish (stateOf rest)

theorem feed_eq (rest text : List Char) :
    p.feed (stateOf rest) text = (p.scanner.run () (rest ++ text)).map (shownAs stateOf) := by
  have hheld : held { stateOf rest with buffer := (stateOf rest).buffer ++ text } =
      held (stateOf rest) ++ text := by
    unfold held
    split
    · rw [List.append_assoc]
    · rfl
  rw [feed, loop_eq, hheld, held_stateOf]

theorem rfind_begins {marker : List Char} (h : rfind marker text = some i) :
    marker <+: text.drop i := by
  induction text generalizing i with
  | nil =>
    rw [rfind] at h
    split at h
    · rename_i hnil
      rw [hnil]
      exact List.nil_prefix
    · cases h
  | cons x text ih =>
    rw [rfind] at h
    split at h
    · rename_i j hj
      cases h
      exact ih hj
    · split at h
      · rename_i hhere
        cases h
        exact hhere
      · cases h

/-- A stream does not end in a call: the text up to its last closing tag was tried already. -/
theorem finish_text {d : Delta} (hwait : p.pull rest = .wait) (h : p.finishText rest = .ok d) :
    d = { visible := rest } := by
  unfold finishText finish at h
  rcases start_or rest with ⟨buffer, rfl⟩ | ⟨hstart, hheld⟩ | ⟨hstart, hheld⟩
  · rw [stateOf_call, if_pos rfl] at h
    have hclosed : p.closedCall buffer 0 = .ok none := by
      cases hclosed : p.closedCall buffer 0 with
      | error e =>
        rw [p.pull_fail hclosed] at hwait
        cases hwait
      | ok closed =>
        cases closed with
        | none => rfl
        | some found =>
          rw [p.pull_call hclosed] at hwait
          cases hwait
    dsimp only at h
    split at h
    · rename_i closeAt hlast
      obtain ⟨message, hparse⟩ :=
        p.closedCall_waits hclosed (Nat.zero_le closeAt) (rfind_begins hlast)
      rw [hparse] at h
      cases h
    · cases h
  · rw [stateOf, if_neg hstart, if_neg Bool.false_ne_true] at h
    split at h
    · cases h
    · cases h
      rfl
  · cases rest with
    | nil => exact absurd List.nil_prefix hheld
    | cons c rest =>
      rw [p.pull_text hstart hheld] at hwait
      cases hwait

/-- A piece that the parser takes off: a visible character, or one call in its tags. -/
def Recognised : Piece → Prop
  | .text _ => True
  | .block raw calls =>
    ∃ body call, raw = start ++ body ++ stop ∧ calls = [call] ∧ p.parseCall body = .ok call

theorem stream_eq (texts : List (List Char)) :
    p.stream {} texts = (p.scanner.run () texts.flatten).bind (closeScan p.finishText) := by
  have hwait : p.scanner.pull () [] = .wait := p.pull_held List.nil_prefix (by decide)
  exact stream_scan p.scanner (fun rest => rfl) (fun s text texts => rfl)
    p.feed_eq hwait texts

theorem stream_pieces {texts : List (List Char)} {d : Delta} (h : p.stream {} texts = .ok d) :
    ∃ pieces : List Piece, texts.flatten = pieces.flatMap Piece.raw ∧ d = deltaOf pieces ∧
      ∀ b ∈ pieces, p.Recognised b := by
  rw [stream_eq] at h
  refine scan_pieces p.scanner ?_ ?_ (fun c => trivial) (fun rest d => p.finish_text) h
  · intro _ text _ out rest hpull
    rcases p.pull_emits hpull with ⟨body, call, rfl, -, rfl⟩ | ⟨c, rfl, rfl⟩
    · simp [Piece.raw]
    · rfl
  · intro _ text _ out rest hpull b hb
    rcases p.pull_emits hpull with ⟨body, call, rfl, hparse, -⟩ | ⟨c, rfl, -⟩
    · rw [mem_singleton.mp hb]
      exact ⟨body, call, rfl, rfl, hparse⟩
    · rw [mem_singleton.mp hb]
      trivial

end XMLToolCallStreamParser

end TyloQuant.Protocol
