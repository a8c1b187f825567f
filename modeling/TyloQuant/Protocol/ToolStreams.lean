import TyloQuant.Protocol.Text

/-!
# Streams of tool calls

A parser of tool calls is a scanner: it looks at the head of the text it has and takes off one
character or one block of calls, or waits, or fails.  So the result of a stream is a function of
the whole text, and the characters and the blocks that were taken off are the text.
-/

namespace TyloQuant.Protocol

open Lib List

/-! ### Pieces of a text -/

/-- A visible character, or a block of calls with its tags. -/
inductive Piece where
  | text (c : Char)
  | block (raw : List Char) (calls : List ToolCall)

namespace Piece

def raw : Piece → List Char
  | text c => [c]
  | block raw _ => raw

def visible : Piece → List Char
  | text c => [c]
  | block _ _ => []

def calls : Piece → List ToolCall
  | text _ => []
  | block _ calls => calls

end Piece

/-- What the pieces of a text show, and the calls in them. -/
def deltaOf (pieces : List Piece) : Delta :=
  { visible := pieces.flatMap Piece.visible, calls := pieces.flatMap Piece.calls }

@[simp] theorem deltaOf_nil : deltaOf [] = {} := rfl

theorem deltaOf_append (pieces pieces' : List Piece) :
    deltaOf (pieces ++ pieces') = (deltaOf pieces).append (deltaOf pieces') := by
  simp [deltaOf, Delta.append]

@[simp] theorem deltaOf_block (raw : List Char) (calls : List ToolCall) :
    deltaOf [.block raw calls] = { calls } := by
  simp [deltaOf, Piece.visible, Piece.calls]

theorem deltaOf_text (text : List Char) :
    deltaOf (text.flatMap fun c => [Piece.text c]) = { visible := text } := by
  induction text with
  | nil => rfl
  | cons c text ih =>
    rw [flatMap_cons, deltaOf_append, ih]
    simp [deltaOf, Delta.append, Piece.visible, Piece.calls]

theorem raw_text (text : List Char) :
    (text.flatMap fun c => [Piece.text c]).flatMap Piece.raw = text := by
  induction text with
  | nil => rfl
  | cons c text ih =>
    rw [flatMap_cons, flatMap_append, ih]
    rfl

@[simp] theorem Delta.append_nil (d : Delta) : d.append {} = d := by
  simp [Delta.append]

@[simp] theorem Delta.nil_append (d : Delta) : Delta.append {} d = d := by
  simp [Delta.append]

theorem Delta.append_assoc (a b c : Delta) : (a.append b).append c = a.append (b.append c) := by
  simp [Delta.append]

/-! ### Scanners of pieces -/

/-- One character of visible text. -/
def takeOff {E : Type} : List Char → Pull (Raised E) Unit Piece Char
  | [] => .wait
  | c :: rest => .emit () [.text c] rest

variable {text : List Char}

section Scan

variable {E : Type} (M : Scanner (Raised E) Unit Piece Char)

/-- What a run is for a parser whose state is a function of the text that it holds back. -/
def shownAs {τ : Type} (stateOf : List Char → τ) (r : Scanned Unit Piece Char) : τ × Delta :=
  (stateOf r.rest, deltaOf r.out)

theorem map_shown_after {τ : Type} (stateOf : List Char → τ) (out : List Piece)
    (result : Except (Raised E) (Scanned Unit Piece Char)) :
    (result.map (Scanned.after out)).map (shownAs stateOf) =
      (result.map (shownAs stateOf)).map fun t => (t.1, (deltaOf out).append t.2) := by
  cases result with
  | error e => rfl
  | ok r => simp [Except.map, shownAs, deltaOf_append]

/-- What was emitted, and what the end of the stream adds for the text that is left. -/
def closeScan (finish : List Char → Except (Raised E) Delta) (r : Scanned Unit Piece Char) :
    Except (Raised E) Delta :=
  (finish r.rest).map (deltaOf r.out).append

theorem closeScan_after (finish : List Char → Except (Raised E) Delta) (out : List Piece)
    (result : Except (Raised E) (Scanned Unit Piece Char)) :
    ((result.bind (closeScan finish)).bind fun d => .ok ((deltaOf out).append d)) =
      (result.map (Scanned.after out)).bind (closeScan finish) := by
  cases result with
  | error e => rfl
  | ok r =>
    cases hfinish : finish r.rest with
    | error e => simp [Except.bind, Except.map, closeScan, hfinish]
    | ok last =>
      simp [Except.bind, Except.map, closeScan, hfinish, deltaOf_append, Delta.append_assoc]

variable {finish : List Char → Except (Raised E) Delta}

/-- **A stream is one scan of the whole text**, in whatever fragments it comes, when every call
    of `feed` is a run of the scanner. -/
theorem stream_scan {τ : Type} {stateOf : List Char → τ}
    {feed : τ → List Char → Except (Raised E) (τ × Delta)}
    {stream : τ → List (List Char) → Except (Raised E) Delta}
    (hnil : ∀ rest, stream (stateOf rest) [] = finish rest)
    (hcons : ∀ s text texts, stream s (text :: texts) =
      (feed s text).bind fun t => (stream t.1 texts).bind fun d => .ok (t.2.append d))
    (hfeed : ∀ rest text,
      feed (stateOf rest) text = (M.run () (rest ++ text)).map (shownAs stateOf))
    {rest : List Char} (h : M.pull () rest = .wait) (texts : List (List Char)) :
    stream (stateOf rest) texts =
      (M.run () (rest ++ texts.flatten)).bind (closeScan finish) := by
  have hfeeds : ∀ rest, stream (stateOf rest) texts =
      (M.feeds () rest texts).bind (closeScan finish) := by
    induction texts with
    | nil =>
      intro rest
      rw [hnil]
      show finish rest = (finish rest).map (Delta.append {})
      cases finish rest <;> simp [Except.map]
    | cons text texts ih =>
      intro rest
      rw [hcons, hfeed, Scanner.feeds]
      cases M.run () (rest ++ text) with
      | error e => rfl
      | ok r =>
        show (stream (stateOf r.rest) texts).bind _ = Except.bind (Except.map _ _) _
        rw [ih]
        exact closeScan_after finish r.out _
  rw [hfeeds, M.feeds_eq h]

/-- When the end of a stream shows the text that is left, the pieces are the whole text. -/
theorem scan_pieces {Q : Piece → Prop}
    (hraw : ∀ s xs s' out rest, M.pull s xs = .emit s' out rest →
      out.flatMap Piece.raw ++ rest = xs)
    (hQ : ∀ s xs s' out rest, M.pull s xs = .emit s' out rest → ∀ b ∈ out, Q b)
    (htext : ∀ c, Q (.text c))
    (hfinish : ∀ rest d, M.pull () rest = .wait → finish rest = .ok d → d = { visible := rest })
    {d : Delta} (h : (M.run () text).bind (closeScan finish) = .ok d) :
    ∃ pieces : List Piece, text = pieces.flatMap Piece.raw ∧ d = deltaOf pieces ∧
      ∀ b ∈ pieces, Q b := by
  cases hrun : M.run () text with
  | error e =>
    rw [hrun] at h
    cases h
  | ok r =>
    rw [hrun] at h
    cases hclose : finish r.rest with
    | error e => simp [Except.bind, closeScan, hclose, Except.map] at h
    | ok last =>
      simp only [Except.bind, closeScan, hclose, Except.map, Except.ok.injEq] at h
      have hlast := hfinish r.rest last (M.run_settled hrun) hclose
      refine ⟨r.out ++ r.rest.flatMap fun c => [.text c], ?_, ?_, ?_⟩
      · rw [flatMap_append, raw_text, M.run_conserves hraw hrun]
      · rw [deltaOf_append, deltaOf_text, ← h, hlast]
      · intro b hb
        rcases mem_append.mp hb with hout | hrest
        · exact M.run_forall hQ hrun b hout
        · obtain ⟨c, -, hc⟩ := mem_flatMap.mp hrest
          rw [mem_singleton.mp hc]
          exact htext c

end Scan

variable {marker : List Char} {i : Nat}

theorem findFrom_begins {start : Nat} (h : findFrom marker text start = some i) :
    marker <+: text.drop i := by
  obtain ⟨k, hk, rfl⟩ := Option.map_eq_some_iff.mp h
  rw [← drop_drop]
  exact (find_some hk).1

theorem take_through (h : marker <+: text.drop i) :
    text.take (i + marker.length) = text.take i ++ marker := by
  obtain ⟨rest, hrest⟩ := h
  rw [take_add, ← hrest, take_left]

end TyloQuant.Protocol
