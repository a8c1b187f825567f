import TyloQuant.Protocol.XmlStream
import TyloQuant.Protocol.Dsml

/-!
# Streams of tool calls in DSML

The parser of DeepSeek's tagged text as a scanner, and what holds of the streams of both parsers.
-/

namespace TyloQuant.Protocol

open Lib List

namespace DSMLStreamParser

variable {V E : Type} (p : DSMLStreamParser V E)

/-- No start tag begins with another. -/
theorem blockStart_inj {name name' : List Char} (h : name ∈ p.blockNames)
    (h' : name' ∈ p.blockNames) (hpre : blockStart name <+: blockStart name') :
    name = name' := by
  have hspaced : ∀ a ∈ [" calls".toList], ∀ b ∈ [" calls".toList],
      blockStart a <+: blockStart b → a = b := by decide
  have hplain : ∀ a ∈ ["tool_calls".toList, "function_calls".toList],
      ∀ b ∈ ["tool_calls".toList, "function_calls".toList],
      blockStart a <+: blockStart b → a = b := by decide
  unfold blockNames at h h'
  split at h
  · rename_i hstyle
    rw [if_pos hstyle] at h'
    exact hspaced name h name' h' hpre
  · rename_i hstyle
    rw [if_neg hstyle] at h'
    exact hplain name h name' h' hpre

/-- The block whose start tag a text begins with. -/
def nameAt (text : List Char) : Option (List Char) :=
  p.blockNames.find? fun name => blockStart name <+: text

theorem nameAt_some {text name : List Char} (h : p.nameAt text = some name) :
    name ∈ p.blockNames ∧ blockStart name <+: text := by
  have hdecide := find?_some (p := fun name => decide (blockStart name <+: text)) h
  exact ⟨mem_of_find?_eq_some h, of_decide_eq_true hdecide⟩

theorem nameAt_none {text name : List Char} (h : p.nameAt text = none)
    (hname : name ∈ p.blockNames) : ¬blockStart name <+: text := by
  intro hpre
  have hno := find?_eq_none.mp h name hname
  exact hno (decide_eq_true hpre)

theorem nameAt_start {name : List Char} (h : name ∈ p.blockNames) (buffer : List Char) :
    p.nameAt (blockStart name ++ buffer) = some name := by
  have hpre := prefix_append (blockStart name) buffer
  cases hat : p.nameAt (blockStart name ++ buffer) with
  | none => exact absurd hpre (p.nameAt_none hat h)
  | some name' =>
    obtain ⟨hname', hpre'⟩ := p.nameAt_some hat
    rcases List.prefix_or_prefix_of_prefix hpre' hpre with hle | hle
    · rw [p.blockStart_inj hname' h hle]
    · rw [p.blockStart_inj h hname' hle]

theorem find_blockStart (text : List Char) :
    (p.blockStarts.find? fun marker => marker <+: text) = (p.nameAt text).map blockStart :=
  find?_map ..

theorem name_of_blockStart (name : List Char) :
    ((blockStart name).drop dsmlPrefix.length).dropLast = name := by
  rw [blockStart, List.append_assoc, drop_left, dropLast_concat]

theorem prefix_of_blockStart {name text : List Char} (h : blockStart name <+: text) :
    dsmlPrefix <+: text := by
  rw [blockStart, List.append_assoc] at h
  exact (prefix_append _ _).trans h

/-- The block behind a start tag. -/
def pullBlock (name buffer : List Char) : Pull (Raised E) Unit Piece Char :=
  match find (blockClose name) buffer with
  | none => .wait
  | some closeAt =>
    match p.parseBlock name (buffer.take closeAt) with
    | .error e => .fail e
    | .ok calls =>
      .emit () [.block (blockStart name ++ buffer.take (closeAt + (blockClose name).length)) calls]
        (buffer.drop (closeAt + (blockClose name).length))

def malformed : Raised E := .parseError "unexpected or malformed DSML protocol marker"

/-- What is taken off at the head of a text: a block with its tags, or one character. -/
def pull (text : List Char) : Pull (Raised E) Unit Piece Char :=
  match p.nameAt text with
  | some name => p.pullBlock name (text.drop (blockStart name).length)
  | none =>
    if dsmlPrefix <+: text then
      if p.blockStarts.any fun marker => text <+: marker then .wait else .fail malformed
    else if text <+: dsmlPrefix then .wait
    else takeOff text

section Block

variable {name : List Char} (hname : name ∈ p.blockNames)
include hname

theorem pull_block (buffer : List Char) :
    p.pull (blockStart name ++ buffer) = p.pullBlock name buffer := by
  rw [pull, p.nameAt_start hname]
  dsimp only
  rw [drop_left]

theorem pull_wait {buffer : List Char} (h : find (blockClose name) buffer = none) :
    p.pull (blockStart name ++ buffer) = .wait := by
  rw [p.pull_block hname, pullBlock, h]

variable {buffer : List Char} {closeAt : Nat}
  (h : find (blockClose name) buffer = some closeAt)
include h

theorem pull_fail {e : Raised E} (hparse : p.parseBlock name (buffer.take closeAt) = .error e) :
    p.pull (blockStart name ++ buffer) = .fail e := by
  rw [p.pull_block hname, pullBlock, h]
  dsimp only
  rw [hparse]

theorem pull_calls {calls : List ToolCall}
    (hparse : p.parseBlock name (buffer.take closeAt) = .ok calls) :
    p.pull (blockStart name ++ buffer) =
      .emit () [.block (blockStart name ++ buffer.take (closeAt + (blockClose name).length)) calls]
        (buffer.drop (closeAt + (blockClose name).length)) := by
  rw [p.pull_block hname, pullBlock, h]
  dsimp only
  rw [hparse]

end Block

section Plain

variable {text : List Char} (h : p.nameAt text = none)
include h

theorem pull_begun (hpre : dsmlPrefix <+: text)
    (hany : (p.blockStarts.any fun marker => text <+: marker) = true) : p.pull text = .wait := by
  rw [pull, h]
  dsimp only
  rw [if_pos hpre, if_pos hany]

theorem pull_malformed (hpre : dsmlPrefix <+: text)
    (hany : ¬(p.blockStarts.any fun marker => text <+: marker) = true) :
    p.pull text = .fail malformed := by
  rw [pull, h]
  dsimp only
  rw [if_pos hpre, if_neg hany]

theorem pull_held (hpre : ¬dsmlPrefix <+: text) (hheld : text <+: dsmlPrefix) :
    p.pull text = .wait := by
  rw [pull, h]
  dsimp only
  rw [if_neg hpre, if_pos hheld]

end Plain

theorem nameAt_plain {text : List Char} (h : ¬dsmlPrefix <+: text) : p.nameAt text = none := by
  cases hat : p.nameAt text with
  | none => rfl
  | some name => exact absurd (prefix_of_blockStart (p.nameAt_some hat).2) h

variable {rest : List Char}

theorem pull_text {c : Char} (h : ¬dsmlPrefix <+: c :: rest) (h' : ¬c :: rest <+: dsmlPrefix) :
    p.pull (c :: rest) = .emit () [.text c] rest := by
  rw [pull, p.nameAt_plain h]
  dsimp only
  rw [if_neg h, if_neg h', takeOff]

/-- What a text may begin with. -/
inductive Head (text : List Char) : Prop where
  | block (name buffer : List Char) (hname : name ∈ p.blockNames)
      (h : text = blockStart name ++ buffer)
  | begun (h : p.nameAt text = none) (hpre : dsmlPrefix <+: text)
      (hany : (p.blockStarts.any fun marker => text <+: marker) = true)
  | malformed (h : p.nameAt text = none) (hpre : dsmlPrefix <+: text)
      (hany : ¬(p.blockStarts.any fun marker => text <+: marker) = true)
  | held (hpre : ¬dsmlPrefix <+: text) (hheld : text <+: dsmlPrefix)
  | visible (c : Char) (rest : List Char) (h : text = c :: rest)
      (hpre : ¬dsmlPrefix <+: text) (hheld : ¬text <+: dsmlPrefix)

theorem head (text : List Char) : p.Head text := by
  by_cases hpre : dsmlPrefix <+: text
  · cases hat : p.nameAt text with
    | some name =>
      obtain ⟨hname, buffer, hbuffer⟩ := p.nameAt_some hat
      exact .block name buffer hname hbuffer.symm
    | none =>
      by_cases hany : (p.blockStarts.any fun marker => text <+: marker) = true
      · exact .begun hat hpre hany
      · exact .malformed hat hpre hany
  · by_cases hheld : text <+: dsmlPrefix
    · exact .held hpre hheld
    · cases text with
      | nil => exact absurd List.nil_prefix hheld
      | cons c rest => exact .visible c rest rfl hpre hheld

/-- How a step takes something off. -/
theorem pull_emits {text : List Char} {out : List Piece} {u : Unit}
    (h : p.pull text = .emit u out rest) :
    (∃ name ∈ p.blockNames, ∃ body calls,
      out = [.block (blockStart name ++ body ++ blockClose name) calls] ∧
      p.parseBlock name body = .ok calls ∧
      text = blockStart name ++ body ++ blockClose name ++ rest) ∨
    ∃ c, out = [.text c] ∧ text = c :: rest := by
  cases p.head text with
  | block name buffer hname htext =>
    subst htext
    cases hfind : find (blockClose name) buffer with
    | none =>
      rw [p.pull_wait hname hfind] at h
      cases h
    | some closeAt =>
      cases hparse : p.parseBlock name (buffer.take closeAt) with
      | error e =>
        rw [p.pull_fail hname hfind hparse] at h
        cases h
      | ok calls =>
        rw [p.pull_calls hname hfind hparse] at h
        cases h
        have htake := take_through (find_some hfind).1
        refine .inl ⟨name, hname, buffer.take closeAt, calls, ?_, hparse, ?_⟩
        · rw [htake, List.append_assoc]
        · rw [List.append_assoc (blockStart name), ← htake, List.append_assoc,
            take_append_drop]
  | begun hat hpre hany =>
    rw [p.pull_begun hat hpre hany] at h
    cases h
  | malformed hat hpre hany =>
    rw [p.pull_malformed hat hpre hany] at h
    cases h
  | held hpre hheld =>
    rw [p.pull_held (p.nameAt_plain hpre) hpre hheld] at h
    cases h
  | visible c tail htext hpre hheld =>
    subst htext
    rw [p.pull_text hpre hheld] at h
    cases h
    exact .inr ⟨c, rfl, rfl⟩

/-- The parser as a scanner. -/
def scanner : Scanner (Raised E) Unit Piece Char where
  pull _ text := p.pull text
  shorter := by
    intro _ text _ out rest h
    rcases p.pull_emits h with ⟨name, -, body, calls, -, -, rfl⟩ | ⟨c, -, rfl⟩
    · have hpos := length_pos_of_ne_nil (blockClose_ne name)
      simp only [length_append]
      omega
    · exact Nat.lt_succ_self rest.length
  steady := by
    intro _ text ys h
    cases p.head text with
    | block name buffer hname htext =>
      subst htext
      rw [List.append_assoc]
      cases hfind : find (blockClose name) buffer with
      | none => exact absurd (p.pull_wait hname hfind) h
      | some closeAt =>
        have hmore := find_append hfind ys
        have hlen := (find_some hfind).1.length_le
        have hlt := find_lt (blockClose_ne name) hfind
        rw [length_drop] at hlen
        have htake : (buffer ++ ys).take closeAt = buffer.take closeAt :=
          take_append_of_le_length (by omega)
        cases hparse : p.parseBlock name (buffer.take closeAt) with
        | error e =>
          rw [p.pull_fail hname hfind hparse, p.pull_fail hname hmore (htake.symm ▸ hparse)]
          rfl
        | ok calls =>
          rw [p.pull_calls hname hfind hparse, p.pull_calls hname hmore (htake.symm ▸ hparse),
            take_append_of_le_length (by omega),
            drop_append_of_le_length (by omega)]
          rfl
    | begun hat hpre hany => exact absurd (p.pull_begun hat hpre hany) h
    | malformed hat hpre hany =>
      rw [p.pull_malformed hat hpre hany, p.pull_malformed]
      · rfl
      · cases hmore : p.nameAt (text ++ ys) with
        | none => rfl
        | some name =>
          obtain ⟨hname, hstart⟩ := p.nameAt_some hmore
          refine absurd hstart (not_prefix_append (p.nameAt_none hat hname) ?_ ys)
          intro hbegun
          exact hany (any_eq_true.mpr
            ⟨_, mem_map_of_mem hname, decide_eq_true hbegun⟩)
      · exact hpre.trans (prefix_append text ys)
      · intro hmore
        obtain ⟨marker, hmarker, hbegun⟩ := any_eq_true.mp hmore
        refine hany (any_eq_true.mpr ⟨marker, hmarker, decide_eq_true ?_⟩)
        exact (prefix_append text ys).trans (of_decide_eq_true hbegun)
    | held hpre hheld =>
      exact absurd (p.pull_held (p.nameAt_plain hpre) hpre hheld) h
    | visible c rest htext hpre hheld =>
      subst htext
      rw [p.pull_text hpre hheld]
      exact p.pull_text (not_prefix_append hpre hheld ys) fun hlong =>
        hheld ((prefix_append (c :: rest) ys).trans hlong)

/-- The text that a parser has taken in and not given out. -/
def held (s : DsmlState) : List Char :=
  match s.blockName with
  | some name => blockStart name ++ s.buffer
  | none => s.buffer

/-- The state of a parser that holds a text back. -/
def stateOf (rest : List Char) : DsmlState :=
  match p.nameAt rest with
  | some name => { buffer := rest.drop (blockStart name).length, blockName := some name }
  | none => { buffer := rest }

theorem stateOf_none (h : p.nameAt rest = none) : p.stateOf rest = { buffer := rest } := by
  rw [stateOf, h]

theorem stateOf_block {name : List Char} (h : name ∈ p.blockNames) (buffer : List Char) :
    p.stateOf (blockStart name ++ buffer) = { buffer, blockName := some name } := by
  rw [stateOf, p.nameAt_start h]
  dsimp only
  rw [drop_left]

theorem held_stateOf (rest : List Char) : held (p.stateOf rest) = rest := by
  cases h : p.nameAt rest with
  | none =>
    rw [p.stateOf_none h]
    rfl
  | some name =>
    obtain ⟨hname, buffer, rfl⟩ := p.nameAt_some h
    rw [p.stateOf_block hname]
    rfl

/-- A parser is only ever inside a block of its own style. -/
def Sound (s : DsmlState) : Prop := ∀ name, s.blockName = some name → name ∈ p.blockNames

theorem sound_stateOf (rest : List Char) : p.Sound (p.stateOf rest) := by
  intro name h
  cases hat : p.nameAt rest with
  | none =>
    rw [p.stateOf_none hat] at h
    cases h
  | some name' =>
    rw [stateOf, hat] at h
    cases h
    exact (p.nameAt_some hat).1

theorem loop_nil {blockName : Option (List Char)} (h : p.Sound { buffer := [], blockName }) :
    p.loop { buffer := [], blockName } =
      (p.scanner.run () (held { buffer := [], blockName })).map (shownAs p.stateOf) := by
  rw [loop, if_pos rfl]
  cases blockName with
  | none =>
    have hplain : ¬dsmlPrefix <+: [] := by decide
    have hrun : p.scanner.run () [] = .ok ⟨(), [], []⟩ :=
      p.scanner.run_wait (p.pull_held (p.nameAt_plain hplain) hplain List.nil_prefix)
    show _ = (p.scanner.run () []).map (shownAs p.stateOf)
    rw [hrun]
    show _ = Except.ok (p.stateOf [], deltaOf [])
    rw [p.stateOf_none (p.nameAt_plain hplain)]
    rfl
  | some name =>
    have hclose : find (blockClose name) [] = none := if_neg (blockClose_ne name)
    have hrun : p.scanner.run () (blockStart name ++ []) = .ok ⟨(), [], blockStart name ++ []⟩ :=
      p.scanner.run_wait (p.pull_wait (h name rfl) hclose)
    show _ = (p.scanner.run () (blockStart name ++ [])).map (shownAs p.stateOf)
    rw [hrun]
    show _ = Except.ok (p.stateOf (blockStart name ++ []), deltaOf [])
    rw [p.stateOf_block (h name rfl)]
    rfl

theorem run_before {buffer : List Char} {markerAt : Nat}
    (hfind : find dsmlPrefix buffer = some markerAt) :
    p.scanner.run () buffer = (p.scanner.run () (buffer.drop markerAt)).map
      (Scanned.after ((buffer.take markerAt).flatMap fun c => [Piece.text c])) := by
  obtain ⟨htag, hfirst⟩ := find_some hfind
  have hlt := find_lt (by decide) hfind
  refine p.scanner.run_pass (f := fun c => [Piece.text c]) hlt.le ?_
  intro i hi c rest hdrop
  refine p.pull_text (hdrop ▸ hfirst i hi) ?_
  exact hdrop ▸ not_prefix_before (by decide) htag hi

section Step

variable {buffer : List Char} (hne : buffer ≠ [])
  (ih : ∀ s : DsmlState, p.Sound s → s.buffer.length < buffer.length →
    p.loop s = (p.scanner.run () (held s)).map (shownAs p.stateOf))
include hne ih

theorem loop_inBlock {name : List Char} (hname : name ∈ p.blockNames) :
    p.loop { buffer, blockName := some name } =
      (p.scanner.run () (blockStart name ++ buffer)).map (shownAs p.stateOf) := by
  rw [loop, if_neg hne]
  dsimp only
  split
  · rename_i hfind
    have hrun : p.scanner.run () (blockStart name ++ buffer) = .ok ⟨(), [], _⟩ :=
      p.scanner.run_wait (p.pull_wait hname hfind)
    rw [hrun]
    show _ = Except.ok (p.stateOf (blockStart name ++ buffer), deltaOf [])
    rw [p.stateOf_block hname]
    rfl
  · rename_i closeAt hfind
    have hlt := find_lt (blockClose_ne name) hfind
    have hpos := length_pos_of_ne_nil (blockClose_ne name)
    cases hparse : p.parseBlock name (buffer.take closeAt) with
    | error e =>
      have hrun : p.scanner.run () (blockStart name ++ buffer) = .error e :=
        p.scanner.run_fail (p.pull_fail hname hfind hparse)
      rw [hrun]
      rfl
    | ok calls =>
      have hrun : p.scanner.run () (blockStart name ++ buffer) = _ :=
        p.scanner.run_emit (p.pull_calls hname hfind hparse)
      have hlen : (buffer.drop (closeAt + (blockClose name).length)).length < buffer.length := by
        rw [length_drop]
        omega
      have hsound : p.Sound
          { buffer := buffer.drop (closeAt + (blockClose name).length), blockName := none } := by
        intro name' h
        cases h
      have hheld : held { buffer := buffer.drop (closeAt + (blockClose name).length) } =
          buffer.drop (closeAt + (blockClose name).length) := rfl
      rw [hrun, map_shown_after, deltaOf_block, ih _ hsound hlen, hheld]
      cases (p.scanner.run () (buffer.drop (closeAt + (blockClose name).length))).map
        (shownAs p.stateOf) <;> rfl

theorem loop_visible : p.loop { buffer } = (p.scanner.run () buffer).map (shownAs p.stateOf) := by
  rw [loop, if_neg hne]
  dsimp only
  split
  · rename_i markerAt hfind
    obtain ⟨htag, hfirst⟩ := find_some hfind
    have hlt := find_lt (by decide) hfind
    rw [p.run_before hfind, map_shown_after, deltaOf_text]
    split
    · rename_i complete hcomplete
      rw [find_blockStart] at hcomplete
      obtain ⟨name, hat, rfl⟩ := Option.map_eq_some_iff.mp hcomplete
      obtain ⟨hname, tail, htail⟩ := p.nameAt_some hat
      have hpos := p.blockStart_pos (mem_map_of_mem hname)
      have hlen : ((buffer.drop markerAt).drop (blockStart name).length).length
          < buffer.length := by
        simp only [length_drop]
        omega
      have hsound : p.Sound { buffer := (buffer.drop markerAt).drop (blockStart name).length
                              blockName := some name } := by
        intro name' h
        cases h
        exact hname
      have hheld : held { buffer := (buffer.drop markerAt).drop (blockStart name).length
                          blockName := some name } = buffer.drop markerAt := by
        show blockStart name ++ (buffer.drop markerAt).drop (blockStart name).length = _
        rw [← htail, drop_left]
      rw [name_of_blockStart, ih _ hsound hlen, hheld]
      cases (p.scanner.run () (buffer.drop markerAt)).map (shownAs p.stateOf) <;> rfl
    · rename_i hnone
      rw [find_blockStart, Option.map_eq_none_iff] at hnone
      split
      · rename_i hany
        have hrun : p.scanner.run () (buffer.drop markerAt) = .ok ⟨(), [], _⟩ :=
          p.scanner.run_wait (p.pull_begun hnone htag hany)
        rw [hrun]
        show _ = Except.ok (p.stateOf (buffer.drop markerAt), Delta.append _ (deltaOf []))
        rw [p.stateOf_none hnone, deltaOf_nil, Delta.append_nil]
      · rename_i hany
        have hrun : p.scanner.run () (buffer.drop markerAt) = .error malformed :=
          p.scanner.run_fail (p.pull_malformed hnone htag hany)
        rw [hrun]
        rfl
  · rename_i hfind
    obtain ⟨hpre, hfirst⟩ := heldWidth_one (find_none hfind)
    have hpass : p.scanner.run () buffer = _ := p.scanner.run_pass (f := fun c => [Piece.text c])
      (n := buffer.length - protectedPrefixWidth buffer) (Nat.sub_le _ _) (by
        intro i hi c rest hdrop
        refine p.pull_text (hdrop ▸ find_none hfind i) ?_
        exact hdrop ▸ hfirst i hi)
    have hplain := p.nameAt_plain (find_none hfind (buffer.length - protectedPrefixWidth buffer))
    have hrun : p.scanner.run ()
        (buffer.drop (buffer.length - protectedPrefixWidth buffer)) = .ok ⟨(), [], _⟩ :=
      p.scanner.run_wait (p.pull_held hplain (find_none hfind _) hpre)
    rw [hpass, hrun, map_shown_after]
    show _ = Except.ok (p.stateOf _, Delta.append _ (deltaOf []))
    rw [p.stateOf_none hplain, deltaOf_text, deltaOf_nil, Delta.append_nil]

end Step

/-- **The loop of `feed` is a run of the scanner**, on the text that the parser held back and the
    new text. -/
theorem loop_eq {s : DsmlState} (hs : p.Sound s) :
    p.loop s = (p.scanner.run () (held s)).map (shownAs p.stateOf) := by
  induction hn : s.buffer.length using Nat.strong_induction_on generalizing s with
  | _ n ih =>
    obtain ⟨buffer, blockName⟩ := s
    have ih' : ∀ s : DsmlState, p.Sound s → s.buffer.length < buffer.length →
        p.loop s = (p.scanner.run () (held s)).map (shownAs p.stateOf) :=
      fun s hsound hlen => ih _ (hn ▸ hlen) hsound rfl
    by_cases hne : buffer = []
    · subst hne
      exact p.loop_nil hs
    · cases blockName with
      | some name => exact p.loop_inBlock hne ih' (hs name rfl)
      | none => exact p.loop_visible hne ih'

theorem feed_eq (rest text : List Char) : p.feed (p.stateOf rest) text =
    (p.scanner.run () (rest ++ text)).map (shownAs p.stateOf) := by
  have hheld : ∀ s : DsmlState, held { s with buffer := s.buffer ++ text } = held s ++ text := by
    rintro ⟨buffer, _ | name⟩
    · rfl
    · exact (List.append_assoc ..).symm
  have hsound : p.Sound { p.stateOf rest with buffer := (p.stateOf rest).buffer ++ text } :=
    p.sound_stateOf rest
  rw [feed, p.loop_eq hsound, hheld, held_stateOf]

/-- `finish`, as a function of the text that is held back. -/
def finishText (rest : List Char) : Except (Raised E) Delta := finish (p.stateOf rest)

variable {d : Delta}

theorem finish_text (h : p.finishText rest = .ok d) : d = { visible := rest } := by
  unfold finishText finish at h
  cases hat : p.nameAt rest with
  | some name =>
    rw [stateOf, hat] at h
    cases h
  | none =>
    rw [p.stateOf_none hat] at h
    dsimp only at h
    split at h
    · cases h
    · cases h
      rfl

/-- A piece that the parser takes off: a visible character, or one block of calls in its tags. -/
def Recognised : Piece → Prop
  | .text _ => True
  | .block raw calls => ∃ name ∈ p.blockNames, ∃ body,
      raw = blockStart name ++ body ++ blockClose name ∧ p.parseBlock name body = .ok calls

theorem stream_eq (texts : List (List Char)) :
    p.stream {} texts = (p.scanner.run () texts.flatten).bind (closeScan p.finishText) := by
  have hplain : ¬dsmlPrefix <+: [] := by decide
  have hnone := p.nameAt_plain hplain
  have hwait : p.scanner.pull () [] = .wait := p.pull_held hnone hplain List.nil_prefix
  have hscan := stream_scan p.scanner
    (fun rest => (rfl : p.stream (p.stateOf rest) [] = _)) (fun s text texts => rfl)
    p.feed_eq hwait texts
  rw [p.stateOf_none hnone] at hscan
  exact hscan

theorem stream_pieces {texts : List (List Char)} (h : p.stream {} texts = .ok d) :
    ∃ pieces : List Piece, texts.flatten = pieces.flatMap Piece.raw ∧ d = deltaOf pieces ∧
      ∀ b ∈ pieces, p.Recognised b := by
  rw [stream_eq] at h
  refine scan_pieces p.scanner ?_ ?_ (fun c => trivial) (fun rest d _ => p.finish_text) h
  · intro _ text _ out rest hpull
    rcases p.pull_emits hpull with ⟨name, -, body, calls, rfl, -, rfl⟩ | ⟨c, rfl, rfl⟩
    · simp [Piece.raw]
    · rfl
  · intro _ text _ out rest hpull b hb
    rcases p.pull_emits hpull with ⟨name, hname, body, calls, rfl, hparse, -⟩ | ⟨c, rfl, -⟩
    · rw [mem_singleton.mp hb]
      exact ⟨name, hname, body, rfl, hparse⟩
    · rw [mem_singleton.mp hb]
      trivial

end DSMLStreamParser

/-- **Streaming does not depend on the fragments and loses nothing**, for either parser.  Two
    streams of one text both raise the same or both give the same visible text and calls; and where
    they succeed, the text is the visible characters and the recognised blocks in their order. -/
theorem tool_call_streams {V E V' E' : Type} (x : XMLToolCallStreamParser V E)
    (d : DSMLStreamParser V' E') :
    (∀ texts texts' : List (List Char), texts.flatten = texts'.flatten →
      x.stream {} texts = x.stream {} texts' ∧ d.stream {} texts = d.stream {} texts') ∧
    (∀ texts delta, x.stream {} texts = .ok delta →
      ∃ pieces : List Piece, texts.flatten = pieces.flatMap Piece.raw ∧ delta = deltaOf pieces ∧
        ∀ piece ∈ pieces, x.Recognised piece) ∧
    ∀ texts delta, d.stream {} texts = .ok delta →
      ∃ pieces : List Piece, texts.flatten = pieces.flatMap Piece.raw ∧ delta = deltaOf pieces ∧
        ∀ piece ∈ pieces, d.Recognised piece := by
  refine ⟨?_, fun texts delta => x.stream_pieces, fun texts delta => d.stream_pieces⟩
  intro texts texts' h
  constructor
  · rw [x.stream_eq, x.stream_eq, h]
  · rw [d.stream_eq, d.stream_eq, h]

/-! Streams with one call, to try the theorem on. -/

def samplePython : Python (List Char) Empty where
  loads _ := .error .decode
  dumps _ := "{}".toList
  string := id
  repr := String.ofList

def sampleParser : XMLToolCallStreamParser (List Char) Empty where
  toolSchemas := [("f".toList, [])]
  dialect := .qwen
  python := samplePython

def sampleBlocks : DSMLStreamParser (List Char) Empty where
  toolSchemas := [("f".toList, [])]
  python := samplePython

def sampleDelta : Delta :=
  { visible := ['a'], calls := [{ name := "f".toList, arguments := "{}".toList }] }

def sampleXml : List Char := "a<tool_call><function=f></function></tool_call>".toList

def sampleDsml : List Char := ("a<｜DSML｜tool_calls><｜DSML｜invoke name=\"f\">" ++
  "</｜DSML｜invoke></｜DSML｜tool_calls>").toList

/-- The call arrives whole, or cut in two at any place. -/
theorem tool_call_streams_one_call :
    (∀ n, sampleParser.stream {} [sampleXml.take n, sampleXml.drop n] = .ok sampleDelta ∧
      sampleBlocks.stream {} [sampleDsml.take n, sampleDsml.drop n] = .ok sampleDelta) ∧
    (∃ pieces : List Piece, sampleXml = pieces.flatMap Piece.raw ∧
      sampleDelta = deltaOf pieces ∧ ∀ piece ∈ pieces, sampleParser.Recognised piece) ∧
    ∃ pieces : List Piece, sampleDsml = pieces.flatMap Piece.raw ∧
      sampleDelta = deltaOf pieces ∧ ∀ piece ∈ pieces, sampleBlocks.Recognised piece := by
  have hxml : sampleParser.stream {} [sampleXml] = .ok sampleDelta := by decide +kernel
  have hdsml : sampleBlocks.stream {} [sampleDsml] = .ok sampleDelta := by decide +kernel
  obtain ⟨hsame, hx, hd⟩ := tool_call_streams sampleParser sampleBlocks
  refine ⟨fun n => ?_, ?_, ?_⟩
  · have hcut := fun text : List Char =>
      hsame [text.take n, text.drop n] [text] (by simp)
    exact ⟨(hcut sampleXml).1.trans hxml, (hcut sampleDsml).2.trans hdsml⟩
  · simpa using hx [sampleXml] _ hxml
  · simpa using hd [sampleDsml] _ hdsml

/-- Python with its default limit: `json.loads` of an integer of more than 4300 digits raises a
    `ValueError` that is not a `JSONDecodeError`. -/
def digitLimitPython : Python (List Char) Unit where
  loads value := if 4300 < value.length ∧ value.all Char.isDigit then .error (.other ())
    else .error .decode
  dumps _ := "{}".toList
  string := id
  repr := String.ofList

def digitLimitParser : XMLToolCallStreamParser (List Char) Unit where
  toolSchemas := [("f".toList, [])]
  dialect := .glm
  python := digitLimitPython

/-- A call with a number of 4301 digits as its argument. -/
def longNumber : List Char :=
  "<tool_call>f<arg_key>n</arg_key><arg_value>".toList ++
    (List.replicate 4301 '1' ++ "</arg_value></tool_call>".toList)

set_option maxRecDepth 100000 in
/-- Its stream raises that error: it neither raises a parse error nor succeeds. -/
theorem longNumber_escapes :
    ¬∀ texts texts' : List (List Char), texts.flatten = texts'.flatten →
      (∃ message message', digitLimitParser.stream {} texts = .error (.parseError message) ∧
        digitLimitParser.stream {} texts' = .error (.parseError message')) ∨
      ∃ delta, digitLimitParser.stream {} texts = .ok delta ∧
        digitLimitParser.stream {} texts' = .ok delta := by
  have hraises : digitLimitParser.stream {} [longNumber] = .error (.other ()) := by
    decide +kernel
  intro h
  rcases h [longNumber] [longNumber] rfl with ⟨message, -, herror, -⟩ | ⟨delta, hok, -⟩
  · cases hraises.symm.trans herror
  · cases hraises.symm.trans hok

end TyloQuant.Protocol
