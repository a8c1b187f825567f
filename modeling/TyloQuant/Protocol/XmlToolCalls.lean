import TyloQuant.Protocol.Text
import TyloQuant.Lib.Outcome

/-!
# Tool calls in XML

`XMLToolCallStreamParser` takes the calls of the Qwen and the GLM dialect out of a stream of text.
A value may itself contain a closing tag, so the end of a call is the first closing tag up to
which the text is a call; while there is none the parser waits.
-/

namespace TyloQuant.Protocol

open Lib

inductive Dialect where
  | qwen
  | glm
deriving DecidableEq, Repr

def Dialect.value : Dialect → String
  | .qwen => "qwen"
  | .glm => "glm"

structure XMLToolCallStreamParser (V E : Type) where
  toolSchemas : List (List Char × Schema)
  dialect : Dialect
  python : Python V E

/-- What a parser changes while it runs. -/
structure XmlState where
  buffer : List Char := []
  inCall : Bool := false
deriving DecidableEq, Repr

namespace XMLToolCallStreamParser

variable {V E : Type} (p : XMLToolCallStreamParser V E)

/-- `START`. -/
def start : List Char := "<tool_call>".toList

/-- `END`. -/
def stop : List Char := "</tool_call>".toList

def protectedPrefixWidth (value marker : List Char) : Nat := heldWidth [marker] value

def schemaFor (name : List Char) : Except (Raised E) Schema :=
  match p.toolSchemas.find? fun tool => tool.1 = name with
  | some tool => .ok tool.2
  | none => .error (.parseError
      (p.dialect.value ++ " XML invokes unavailable tool " ++ p.python.repr name))

def decodeValue (value : List Char) (schema : Schema) (name : List Char) : Except (Raised E) V :=
  if parameterAllowsString schema name then .ok (p.python.string value)
  else
    match p.python.loads value with
    | .ok v => .ok v
    | .error (.other e) => .error (.other e)
    | .error .decode =>
      match definition schema name with
      | .null => .ok (p.python.string value)
      | _ => .error (.parseError ("parameter " ++ p.python.repr name ++ " is not valid JSON"))

/-- The first closing tag behind which the next parameter or nothing follows. -/
def valueEnd (value : List Char) (search : Nat) (close nextOpen : List Char) (hclose : close ≠ []) :
    Except (Raised E) Nat :=
  match _h : findFrom close value search with
  | none => .error (.parseError ("missing " ++ p.python.repr close))
  | some closeAt =>
    let after := skipWhitespace value (closeAt + close.length)
    if after = value.length ∨ startsWithAt nextOpen value after then .ok closeAt
    else valueEnd value (closeAt + close.length) close nextOpen hclose
termination_by value.length - search
decreasing_by
  have hfound := findFrom_some hclose _h
  have hpos := List.length_pos_of_ne_nil hclose
  omega

def buildCall (name : List Char) (arguments : List (List Char × V)) : Except (Raised E) ToolCall :=
  if name = [] then .error (.parseError "tool name is empty")
  else do
    let _ ← p.schemaFor name
    pure { name, arguments := p.python.dumps arguments }

/-! ### Qwen -/

def parameterPrefix : List Char := "<parameter=".toList

def closeParameter : List Char := "</parameter>".toList

/-- One parameter from a position that is not the end: its key, its value, and where it ends. -/
def qwenParameter (parameters : List Char) (schema : Schema) (arguments : List (List Char × V))
    (position : Nat) : Except (Raised E) ((List Char × V) × Nat) :=
  if ¬startsWithAt parameterPrefix parameters position then
    .error (.parseError "expected Qwen <parameter=...> block")
  else
    match findFrom ['>'] parameters (position + parameterPrefix.length) with
    | none => .error (.parseError "unterminated Qwen parameter name")
    | some keyEnd =>
      let key := strip (slice parameters (position + parameterPrefix.length) keyEnd)
      if key = [] then .error (.parseError "Qwen parameter name is empty")
      else if arguments.any fun argument => argument.1 = key then
        .error (.parseError ("duplicate parameter " ++ p.python.repr key))
      else do
        let valueStart := keyEnd + 1
        let valueEnd ← p.valueEnd parameters valueStart closeParameter parameterPrefix (by decide)
        let value ← p.decodeValue (strip (slice parameters valueStart valueEnd)) schema key
        pure ((key, value), valueEnd + closeParameter.length)

variable {i search : Nat}

theorem valueEnd_bounds {value close nextOpen : List Char} {hclose : close ≠ []}
    (h : p.valueEnd value search close nextOpen hclose = .ok i) :
    search ≤ i ∧ i < value.length := by
  induction hn : value.length - search using Nat.strong_induction_on generalizing search with
  | _ n ih =>
    rw [valueEnd] at h
    split at h
    · cases h
    · rename_i closeAt hfind
      have hfound := findFrom_some hclose hfind
      have hpos := List.length_pos_of_ne_nil hclose
      dsimp only at h
      split at h
      · cases h
        exact hfound
      · have hrest := ih _ (by omega) h rfl
        omega

variable {schema : Schema} {arguments : List (List Char × V)} {next position : Nat}
  {argument : List Char × V}

theorem qwenParameter_lt {parameters : List Char}
    (h : p.qwenParameter parameters schema arguments position = .ok (argument, next)) :
    position < next ∧ position < parameters.length := by
  unfold qwenParameter at h
  split at h
  · cases h
  split at h
  · cases h
  rename_i keyEnd hkey
  have hfound := findFrom_some (by simp) hkey
  dsimp only at h
  split at h
  · cases h
  split at h
  · cases h
  obtain ⟨i, hi, hrest⟩ := bind_eq_ok.mp h
  obtain ⟨value, -, hresult⟩ := bind_eq_ok.mp hrest
  have hbounds := p.valueEnd_bounds hi
  cases hresult
  omega

/-- The loop over the parameters of a Qwen call. -/
def qwenArguments (parameters : List Char) (schema : Schema) (arguments : List (List Char × V))
    (position : Nat) : Except (Raised E) (List (List Char × V)) :=
  if skipWhitespace parameters position = parameters.length then .ok arguments
  else
    match _h : p.qwenParameter parameters schema arguments
        (skipWhitespace parameters position) with
    | .error e => .error e
    | .ok (argument, next) => qwenArguments parameters schema (arguments ++ [argument]) next
termination_by parameters.length - position
decreasing_by
  have hlt := p.qwenParameter_lt _h
  have hle := le_skipWhitespace parameters position
  omega

def functionPrefix : List Char := "<function=".toList

def closeFunction : List Char := "</function>".toList

def parseQwen (text : List Char) : Except (Raised E) ToolCall :=
  let body := strip text
  if ¬functionPrefix <+: body then .error (.parseError "expected Qwen <function=...> block")
  else
    match findFrom ['>'] body functionPrefix.length with
    | none => .error (.parseError "unterminated Qwen function name")
    | some nameEnd =>
      let name := strip (slice body functionPrefix.length nameEnd)
      match rfind closeFunction body with
      | none => .error (.parseError "missing Qwen </function> tag")
      | some functionEnd =>
        if functionEnd < nameEnd then .error (.parseError "missing Qwen </function> tag")
        else if strip (body.drop (functionEnd + closeFunction.length)) ≠ [] then
          .error (.parseError "unexpected text after Qwen function block")
        else do
          let schema ← p.schemaFor name
          let arguments ← p.qwenArguments (slice body (nameEnd + 1) functionEnd) schema [] 0
          p.buildCall name arguments

/-! ### GLM -/

def keyOpen : List Char := "<arg_key>".toList

def keyClose : List Char := "</arg_key>".toList

def valueOpen : List Char := "<arg_value>".toList

def valueClose : List Char := "</arg_value>".toList

/-- One argument from a position that is not the end: its key, its value, and where it ends. -/
def glmArgument (body : List Char) (schema : Schema) (arguments : List (List Char × V))
    (position : Nat) : Except (Raised E) ((List Char × V) × Nat) :=
  if ¬startsWithAt keyOpen body position then
    .error (.parseError "expected GLM <arg_key> block")
  else
    match findFrom keyClose body (position + keyOpen.length) with
    | none => .error (.parseError "missing GLM </arg_key> tag")
    | some keyEnd =>
      let key := strip (slice body (position + keyOpen.length) keyEnd)
      if key = [] then .error (.parseError "GLM argument key is empty")
      else if arguments.any fun argument => argument.1 = key then
        .error (.parseError ("duplicate argument " ++ p.python.repr key))
      else
        let valueAt := skipWhitespace body (keyEnd + keyClose.length)
        if ¬startsWithAt valueOpen body valueAt then
          .error (.parseError "expected GLM <arg_value> block")
        else do
          let valueStart := valueAt + valueOpen.length
          let valueEnd ← p.valueEnd body valueStart valueClose keyOpen (by decide)
          let value ← p.decodeValue (strip (slice body valueStart valueEnd)) schema key
          pure ((key, value), valueEnd + valueClose.length)

theorem glmArgument_lt {body : List Char}
    (h : p.glmArgument body schema arguments position = .ok (argument, next)) :
    position < next ∧ position < body.length := by
  unfold glmArgument at h
  split at h
  · cases h
  split at h
  · cases h
  rename_i keyEnd hkey
  have hfound := findFrom_some (by decide) hkey
  dsimp only at h
  split at h
  · cases h
  split at h
  · cases h
  split at h
  · cases h
  obtain ⟨i, hi, hrest⟩ := bind_eq_ok.mp h
  obtain ⟨value, -, hresult⟩ := bind_eq_ok.mp hrest
  have hbounds := p.valueEnd_bounds hi
  have hle := le_skipWhitespace body (keyEnd + keyClose.length)
  have hpos : 0 < valueClose.length := by decide
  cases hresult
  omega

/-- The loop over the arguments of a GLM call. -/
def glmArguments (body : List Char) (schema : Schema) (arguments : List (List Char × V))
    (position : Nat) : Except (Raised E) (List (List Char × V)) :=
  if ¬position < body.length then .ok arguments
  else if skipWhitespace body position = body.length then .ok arguments
  else
    match _h : p.glmArgument body schema arguments (skipWhitespace body position) with
    | .error e => .error e
    | .ok (argument, next) => glmArguments body schema (arguments ++ [argument]) next
termination_by body.length - position
decreasing_by
  have hlt := p.glmArgument_lt _h
  have hle := le_skipWhitespace body position
  omega

def parseGlm (text : List Char) : Except (Raised E) ToolCall := do
  let body := strip text
  let firstKey := find keyOpen body
  let name := strip (match firstKey with
    | none => body
    | some i => body.take i)
  let schema ← p.schemaFor name
  let arguments ← p.glmArguments body schema [] (firstKey.getD body.length)
  p.buildCall name arguments

def parseCall (body : List Char) : Except (Raised E) ToolCall :=
  match p.dialect with
  | .qwen => p.parseQwen body
  | .glm => p.parseGlm body

/-! ### The stream -/

/-- The first closing tag, from `search` on, up to which the buffer is a call. -/
def closedCall (buffer : List Char) (search : Nat) : Except (Raised E) (Option (ToolCall × Nat)) :=
  match _h : findFrom stop buffer search with
  | none => .ok none
  | some closeAt =>
    match p.parseCall (buffer.take closeAt) with
    | .ok call => .ok (some (call, closeAt))
    | .error (.other e) => .error (.other e)
    | .error (.parseError _) => closedCall buffer (closeAt + stop.length)
termination_by buffer.length - search
decreasing_by
  have hfound := findFrom_some (by decide) _h
  have hpos : 0 < stop.length := by decide
  omega

theorem closedCall_bounds {buffer : List Char} {call : ToolCall}
    (h : p.closedCall buffer search = .ok (some (call, i))) : i < buffer.length := by
  induction hn : buffer.length - search using Nat.strong_induction_on generalizing search with
  | _ n ih =>
    rw [closedCall] at h
    split at h
    · cases h
    · rename_i closeAt hfind
      have hfound := findFrom_some (by decide) hfind
      have hpos : 0 < stop.length := by decide
      split at h
      · cases h
        exact hfound.2
      · cases h
      · exact ih _ (by omega) h rfl

/-- The loop of `feed`. -/
def loop (s : XmlState) : Except (Raised E) (XmlState × Delta) :=
  if s.buffer = [] then .ok (s, {})
  else if s.inCall then
    match _h : p.closedCall s.buffer 0 with
    | .error e => .error e
    | .ok none => .ok (s, {})
    | .ok (some (call, closeAt)) => do
        let (s, delta) ← loop { buffer := s.buffer.drop (closeAt + stop.length), inCall := false }
        pure (s, Delta.append { calls := [call] } delta)
  else
    match _h : find start s.buffer with
    | some markerAt => do
        let (t, delta) ← loop { buffer := s.buffer.drop (markerAt + start.length), inCall := true }
        pure (t, Delta.append { visible := s.buffer.take markerAt } delta)
    | none =>
      let kept := s.buffer.length - protectedPrefixWidth s.buffer start
      .ok ({ s with buffer := s.buffer.drop kept }, { visible := s.buffer.take kept })
termination_by s.buffer.length
decreasing_by
  · have hlt := p.closedCall_bounds _h
    rw [List.length_drop]
    have hpos : 0 < stop.length := by decide
    omega
  · have hlt := find_lt (by decide) _h
    rw [List.length_drop]
    have hpos : 0 < start.length := by decide
    omega

def feed (s : XmlState) (text : List Char) : Except (Raised E) (XmlState × Delta) :=
  p.loop { s with buffer := s.buffer ++ text }

def finish (s : XmlState) : Except (Raised E) Delta :=
  if s.inCall then
    match rfind stop s.buffer with
    | some closeAt => do
        let call ← p.parseCall (s.buffer.take closeAt)
        if strip (s.buffer.drop (closeAt + stop.length)) ≠ [] then
          .error (.parseError "unexpected text after XML tool-call block")
        else pure { calls := [call] }
    | none =>
      .error (.parseError ("incomplete " ++ p.dialect.value ++ " XML tool-call block"))
  else if s.buffer ≠ [] ∧ s.buffer <+: start then
    .error (.parseError "incomplete XML tool-call marker")
  else .ok { visible := s.buffer }

/-- The fragments of a stream, one after the other, and `finish`. -/
def stream (s : XmlState) : List (List Char) → Except (Raised E) Delta
  | [] => p.finish s
  | text :: texts => do
      let (s, delta) ← p.feed s text
      let rest ← stream s texts
      pure (delta.append rest)

end XMLToolCallStreamParser

end TyloQuant.Protocol
