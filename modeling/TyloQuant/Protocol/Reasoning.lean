import TyloQuant.Lib.Incremental

/-!
# Tagged reasoning

`TaggedReasoningParser` divides the text that a model streams into its reasoning, which stands
between two markers, and its answer.  The markers may be cut by the fragments in which the text
arrives, so a fragment's end that may begin one is held back for the next call.

`tagged` is the division that does not know of fragments: it drops the line breaks behind a
closing marker wherever they arrive.  The parser drops only those that are in its buffer when it
finds the marker, and this file says how much that changes.
-/

namespace TyloQuant.Protocol

open Lib

/-! ### The parser -/

structure TaggedReasoningParser where
  inReasoning : Bool := false
  buffer : List Char := []
deriving DecidableEq, Repr

/-- What a call returns: the new reasoning and the new content. -/
structure ReasoningDelta where
  reasoning : List Char := []
  content : List Char := []
deriving DecidableEq, Repr

namespace ReasoningDelta

def append (a b : ReasoningDelta) : ReasoningDelta :=
  { reasoning := a.reasoning ++ b.reasoning, content := a.content ++ b.content }

/-- `visible` goes to the reasoning or to the content. -/
def visible (inReasoning : Bool) (text : List Char) : ReasoningDelta :=
  if inReasoning then { reasoning := text } else { content := text }

end ReasoningDelta

namespace TaggedReasoningParser

/-- `OPEN`. -/
def opening : List Char := ['<', 't', 'h', 'i', 'n', 'k', '>']

/-- `CLOSE`. -/
def closing : List Char := ['<', '/', 't', 'h', 'i', 'n', 'k', '>']

/-- What `lstrip("\r\n")` strips. -/
def isBreak (c : Char) : Bool := c = '\r' ∨ c = '\n'

def protectedSuffix (value : List Char) : Nat := heldWidth [opening, closing] value

/-- The first marker of the buffer, with its place. -/
def firstMarker (buffer : List Char) : Option (Nat × List Char) :=
  match find opening buffer, find closing buffer with
  | none, none => none
  | some i, none => some (i, opening)
  | none, some j => some (j, closing)
  | some i, some j => if j < i then some (j, closing) else some (i, opening)

theorem firstMarker_some {buffer marker : List Char} {i : Nat}
    (h : firstMarker buffer = some (i, marker)) :
    (marker = opening ∨ marker = closing) ∧ find marker buffer = some i ∧
      ∀ other, (other = opening ∨ other = closing) → ∀ j < i, ¬other <+: buffer.drop j := by
  unfold firstMarker at h
  split at h
  · cases h
  · rename_i ho hc
    obtain ⟨rfl, rfl⟩ := Prod.mk.inj (Option.some.inj h)
    refine ⟨Or.inl rfl, ho, ?_⟩
    rintro other (rfl | rfl) j hj
    · exact (find_some ho).2 j hj
    · exact find_none hc j
  · rename_i ho hc
    obtain ⟨rfl, rfl⟩ := Prod.mk.inj (Option.some.inj h)
    refine ⟨Or.inr rfl, hc, ?_⟩
    rintro other (rfl | rfl) j hj
    · exact find_none ho j
    · exact (find_some hc).2 j hj
  · rename_i a b ho hc
    split at h
    · rename_i hlt
      obtain ⟨rfl, rfl⟩ := Prod.mk.inj (Option.some.inj h)
      refine ⟨Or.inr rfl, hc, ?_⟩
      rintro other (rfl | rfl) j hj
      · exact (find_some ho).2 j (by omega)
      · exact (find_some hc).2 j hj
    · rename_i hle
      obtain ⟨rfl, rfl⟩ := Prod.mk.inj (Option.some.inj h)
      refine ⟨Or.inl rfl, ho, ?_⟩
      rintro other (rfl | rfl) j hj
      · exact (find_some ho).2 j hj
      · exact (find_some hc).2 j (by omega)

theorem firstMarker_none {buffer : List Char} (h : firstMarker buffer = none) :
    ∀ marker ∈ [opening, closing], ∀ j, ¬marker <+: buffer.drop j := by
  unfold firstMarker at h
  split at h
  · rename_i ho hc
    intro marker hmarker
    rcases List.mem_pair.mp hmarker with rfl | rfl
    · exact find_none ho
    · exact find_none hc
  · cases h
  · cases h
  · split at h <;> cases h

/-- The buffer behind a marker. -/
def behind (marker rest : List Char) : List Char :=
  if marker = closing then rest.dropWhile isBreak else rest

theorem length_behind (marker rest : List Char) : (behind marker rest).length ≤ rest.length := by
  unfold behind
  split
  · exact (List.dropWhile_suffix _).length_le
  · exact Nat.le_refl _

/-- The loop of `feed`. -/
def loop (inReasoning : Bool) (buffer : List Char) : TaggedReasoningParser × ReasoningDelta :=
  if buffer = [] then ({ inReasoning, buffer }, {})
  else
    match _h : firstMarker buffer with
    | some (position, marker) =>
      let next := loop (marker = opening)
        (behind marker (buffer.drop (position + marker.length)))
      (next.1, (ReasoningDelta.visible inReasoning (buffer.take position)).append next.2)
    | none =>
      let kept := buffer.length - protectedSuffix buffer
      ({ inReasoning, buffer := buffer.drop kept },
        ReasoningDelta.visible inReasoning (buffer.take kept))
termination_by buffer.length
decreasing_by
  obtain ⟨hmarker, hfind, -⟩ := firstMarker_some _h
  have hne : marker ≠ [] := by rcases hmarker with rfl | rfl <;> decide
  have hpos := List.length_pos_of_ne_nil hne
  have hlt := find_lt hne hfind
  have hle := length_behind marker (buffer.drop (position + marker.length))
  rw [List.length_drop] at hle
  omega

def feed (p : TaggedReasoningParser) (text : List Char) : TaggedReasoningParser × ReasoningDelta :=
  if text = [] then (p, {}) else loop p.inReasoning (p.buffer ++ text)

def finish (p : TaggedReasoningParser) : ReasoningDelta :=
  if p.buffer ≠ [] ∧ (p.buffer <+: opening ∨ p.buffer <+: closing) then {}
  else ReasoningDelta.visible p.inReasoning p.buffer

/-- The fragments of a stream, one after the other, and `finish`. -/
def stream (p : TaggedReasoningParser) : List (List Char) → ReasoningDelta
  | [] => p.finish
  | text :: texts => (p.feed text).2.append ((p.feed text).1.stream texts)

end TaggedReasoningParser

def splitTaggedReasoning (text : List Char) (startInReasoning : Bool) : ReasoningDelta :=
  let fed := ({ inReasoning := startInReasoning } : TaggedReasoningParser).feed text
  fed.2.append fed.1.finish

end TyloQuant.Protocol
