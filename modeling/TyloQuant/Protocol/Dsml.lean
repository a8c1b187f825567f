import TyloQuant.Protocol.Text
import TyloQuant.Lib.Outcome

/-!
# Tool calls in DSML

`DSMLStreamParser` takes the blocks of calls out of a stream in DeepSeek's tagged text.  A block
ends with the first closing tag of its name.  The tags come in two styles, with and without a
space behind the prefix.
-/

namespace TyloQuant.Protocol

open Lib

structure DSMLStreamParser (V E : Type) where
  toolSchemas : List (List Char × Schema)
  spacedTags : Bool := false
  python : Python V E

/-- What a parser changes while it runs. -/
structure DsmlState where
  buffer : List Char := []
  blockName : Option (List Char) := none
deriving DecidableEq, Repr

namespace DSMLStreamParser

variable {V E : Type} (p : DSMLStreamParser V E)

/-- `_DSML_PREFIX`. -/
def dsmlPrefix : List Char := "<｜DSML｜".toList

/-- The prefix of a closing tag. -/
def closePrefix : List Char := "</｜DSML｜".toList

def blockNames : List (List Char) :=
  if p.spacedTags then [" calls".toList] else ["tool_calls".toList, "function_calls".toList]

def blockStart (name : List Char) : List Char := dsmlPrefix ++ name ++ ['>']

def blockStarts : List (List Char) := p.blockNames.map blockStart

def invokeTag : List Char := if p.spacedTags then " invoke".toList else "invoke".toList

def parameterTag : List Char := if p.spacedTags then " parameter".toList else "parameter".toList

def protectedPrefixWidth (value : List Char) : Nat := heldWidth [dsmlPrefix] value

/-- `_read_name_attribute`: the name, and the position behind the tag. -/
def readNameAttribute (value : List Char) (position : Nat) (opening : List Char) :
    Except (Raised E) (List Char × Nat) :=
  if ¬startsWithAt opening value position then
    .error (.parseError ("expected " ++ p.python.repr opening ++ " in DSML tool block"))
  else
    let nameStart := position + opening.length
    match findFrom ['"'] value nameStart with
    | none => .error (.parseError "DSML name attribute is missing or empty")
    | some nameEnd =>
      if nameEnd = nameStart then
        .error (.parseError "DSML name attribute is missing or empty")
      else if ¬startsWithAt ['"', '>'] value nameEnd then
        .error (.parseError "malformed DSML name attribute")
      else .ok (slice value nameStart nameEnd, nameEnd + 2)

def decodeValue (value : List Char) (isString : Bool) (schema : Schema) (name : List Char) :
    Except (Raised E) V :=
  if isString then .ok (p.python.string value)
  else
    match p.python.loads value with
    | .ok v => .ok v
    | .error (.other e) => .error (.other e)
    | .error .decode =>
      if parameterAllowsString schema name then .ok (p.python.string value)
      else .error (.parseError
        ("DSML parameter " ++ p.python.repr name ++ " is not valid JSON"))

def stringPrefix : List Char := " string=\"".toList

def closeParameter : List Char := closePrefix ++ p.parameterTag ++ ['>']

def parameterPrefix : List Char := dsmlPrefix ++ p.parameterTag ++ " name=\"".toList

/-- One parameter from its opening tag on: its name, its value, and where it ends. -/
def parameter (value : List Char) (schema : Schema) (arguments : List (List Char × V))
    (position : Nat) : Except (Raised E) ((List Char × V) × Nat) :=
  let nameStart := position + p.parameterPrefix.length
  match findFrom ['"'] value nameStart with
  | none => .error (.parseError "DSML parameter name is missing or empty")
  | some nameEnd =>
    if nameEnd = nameStart then
      .error (.parseError "DSML parameter name is missing or empty")
    else
      let name := slice value nameStart nameEnd
      if arguments.any fun argument => argument.1 = name then
        .error (.parseError ("duplicate DSML parameter " ++ p.python.repr name))
      else if ¬startsWithAt stringPrefix value (nameEnd + 1) then
        .error (.parseError "DSML parameter is missing its string attribute")
      else
        let flagStart := nameEnd + 1 + stringPrefix.length
        match findFrom ['"'] value flagStart with
        | none => .error (.parseError "unterminated DSML string attribute")
        | some flagEnd =>
          let flag := slice value flagStart flagEnd
          if ¬(flag = "true".toList ∨ flag = "false".toList) then
            .error (.parseError ("invalid DSML string attribute " ++ p.python.repr flag))
          else if ¬startsWithAt ['"', '>'] value flagEnd then
            .error (.parseError "malformed DSML parameter opening tag")
          else
            match findFrom p.closeParameter value (flagEnd + 2) with
            | none => .error (.parseError
                ("DSML parameter " ++ p.python.repr name ++ " has no closing tag"))
            | some valueEnd => do
                let decoded ← p.decodeValue (slice value (flagEnd + 2) valueEnd)
                  (flag = "true".toList) schema name
                pure ((name, decoded), valueEnd + p.closeParameter.length)

theorem closeParameter_ne (p : DSMLStreamParser V E) : p.closeParameter ≠ [] := by
  simp [closeParameter]

variable {value : List Char} {next position : Nat}
  {schema : Schema} {arguments : List (List Char × V)}

theorem parameter_lt {argument : List Char × V}
    (h : p.parameter value schema arguments position = .ok (argument, next)) :
    position < next ∧ position < value.length := by
  unfold parameter at h
  dsimp only at h
  split at h
  · cases h
  rename_i nameEnd hname
  have hnameEnd := findFrom_some (by simp) hname
  split at h
  · cases h
  split at h
  · cases h
  split at h
  · cases h
  split at h
  · cases h
  rename_i flagEnd hflag
  have hflagEnd := findFrom_some (by simp) hflag
  split at h
  · cases h
  split at h
  · cases h
  split at h
  · cases h
  rename_i valueEnd hvalue
  have hvalueEnd := findFrom_some p.closeParameter_ne hvalue
  obtain ⟨decoded, -, hresult⟩ := bind_eq_ok.mp h
  cases hresult
  omega

def closeInvoke : List Char := closePrefix ++ p.invokeTag ++ ['>']

/-- The loop of `_parse_invoke`: the arguments, and the position behind the call. -/
def invokeArguments (value : List Char) (schema : Schema) (arguments : List (List Char × V))
    (position : Nat) : Except (Raised E) (List (List Char × V) × Nat) :=
  let position' := skipWhitespace value position
  if startsWithAt p.closeInvoke value position' then
    .ok (arguments, position' + p.closeInvoke.length)
  else if ¬startsWithAt p.parameterPrefix value position' then
    .error (.parseError "expected DSML parameter or invoke closing tag")
  else
    match _h : p.parameter value schema arguments position' with
    | .error e => .error e
    | .ok (argument, next) => invokeArguments value schema (arguments ++ [argument]) next
termination_by value.length - position
decreasing_by
  have hlt := p.parameter_lt _h
  have hle := le_skipWhitespace value position
  omega

def invokePrefix : List Char := dsmlPrefix ++ p.invokeTag ++ " name=\"".toList

def parseInvoke (value : List Char) (position : Nat) : Except (Raised E) (ToolCall × Nat) := do
  let (name, position) ← p.readNameAttribute value position p.invokePrefix
  match p.toolSchemas.find? fun tool => tool.1 = name with
  | none => .error (.parseError ("DSML invokes unavailable tool " ++ p.python.repr name))
  | some tool => do
      let (arguments, position) ← p.invokeArguments value tool.2 [] position
      pure ({ name, arguments := p.python.dumps arguments }, position)

theorem invokeArguments_ge {result : List (List Char × V)}
    (h : p.invokeArguments value schema arguments position = .ok (result, next)) :
    position ≤ next := by
  induction hn : value.length - position using Nat.strong_induction_on
    generalizing position arguments with
  | _ n ih =>
    have hle := le_skipWhitespace value position
    rw [invokeArguments] at h
    split at h
    · cases h
      omega
    split at h
    · cases h
    split at h
    · cases h
    · rename_i argument mid hparameter
      have hlt := p.parameter_lt hparameter
      have hrest := ih _ (by omega) h rfl
      omega

theorem parseInvoke_lt {call : ToolCall} (h : p.parseInvoke value position = .ok (call, next)) :
    position < next ∧ position < value.length := by
  unfold parseInvoke at h
  obtain ⟨⟨name, mid⟩, hname, hrest⟩ := bind_eq_ok.mp h
  have hmid : position < mid ∧ position < value.length := by
    unfold readNameAttribute at hname
    split at hname
    · cases hname
    dsimp only at hname
    split at hname
    · cases hname
    rename_i nameEnd hfind
    have hnameEnd := findFrom_some (by simp) hfind
    split at hname
    · cases hname
    split at hname
    · cases hname
    cases hname
    omega
  dsimp only at hrest
  split at hrest
  · cases hrest
  · obtain ⟨⟨arguments, last⟩, harguments, hresult⟩ := bind_eq_ok.mp hrest
    have hge := p.invokeArguments_ge harguments
    cases hresult
    omega

/-- The loop of `_parse_block`. -/
def blockCalls (body : List Char) (calls : List ToolCall) (position : Nat) :
    Except (Raised E) (List ToolCall) :=
  if skipWhitespace body position = body.length then .ok calls
  else
    match _h : p.parseInvoke body (skipWhitespace body position) with
    | .error e => .error e
    | .ok (call, next) => blockCalls body (calls ++ [call]) next
termination_by body.length - position
decreasing_by
  have hlt := p.parseInvoke_lt _h
  have hle := le_skipWhitespace body position
  omega

def parseBlock (name body : List Char) : Except (Raised E) (List ToolCall) := do
  let calls ← p.blockCalls body [] 0
  if calls = [] then .error (.parseError ("empty DSML " ++ String.ofList name ++ " block"))
  else pure calls

/-! ### The stream -/

def blockClose (name : List Char) : List Char := closePrefix ++ name ++ ['>']

theorem blockClose_ne (name : List Char) : blockClose name ≠ [] := by
  simp [blockClose]

theorem blockStart_pos {marker : List Char} (h : marker ∈ p.blockStarts) : 0 < marker.length := by
  obtain ⟨name, -, rfl⟩ := List.mem_map.mp h
  rw [blockStart, List.length_append]
  exact Nat.lt_add_left _ Nat.one_pos

/-- The loop of `feed`. -/
def loop (s : DsmlState) : Except (Raised E) (DsmlState × Delta) :=
  if s.buffer = [] then .ok (s, {})
  else
    match s.blockName with
    | some name =>
      match _h : find (blockClose name) s.buffer with
      | none => .ok (s, {})
      | some closeAt => do
          let calls ← p.parseBlock name (s.buffer.take closeAt)
          let (t, delta) ← loop
            { buffer := s.buffer.drop (closeAt + (blockClose name).length), blockName := none }
          pure (t, Delta.append { calls } delta)
    | none =>
      match _h : find dsmlPrefix s.buffer with
      | some markerAt =>
        let fragment := s.buffer.drop markerAt
        match _h' : p.blockStarts.find? fun marker => marker <+: fragment with
        | some complete => do
            -- `complete[len(_DSML_PREFIX):-1]`.
            let name := (complete.drop dsmlPrefix.length).dropLast
            let (t, delta) ← loop
              { buffer := fragment.drop complete.length, blockName := some name }
            pure (t, Delta.append { visible := s.buffer.take markerAt } delta)
        | none =>
          if p.blockStarts.any fun marker => fragment <+: marker then
            .ok ({ s with buffer := fragment }, { visible := s.buffer.take markerAt })
          else .error (.parseError "unexpected or malformed DSML protocol marker")
      | none =>
        let kept := s.buffer.length - protectedPrefixWidth s.buffer
        .ok ({ s with buffer := s.buffer.drop kept }, { visible := s.buffer.take kept })
termination_by s.buffer.length
decreasing_by
  · have hlt := find_lt (blockClose_ne name) _h
    have hpos := List.length_pos_of_ne_nil (blockClose_ne name)
    rw [List.length_drop]
    omega
  · have hlt := find_lt (by decide) _h
    have hpos := p.blockStart_pos (List.mem_of_find?_eq_some _h')
    simp only [List.length_drop]
    omega

def feed (s : DsmlState) (text : List Char) : Except (Raised E) (DsmlState × Delta) :=
  p.loop { s with buffer := s.buffer ++ text }

/-- The part of the prefix that nothing but a marker begins with. -/
def distinctive : List Char := "<｜DSML".toList

def finish (s : DsmlState) : Except (Raised E) Delta :=
  match s.blockName with
  | some name => .error (.parseError ("incomplete DSML " ++ String.ofList name ++ " block"))
  | none =>
    if distinctive <+: s.buffer ∨
        ("<｜DS".toList.length ≤ s.buffer.length ∧ s.buffer <+: distinctive) then
      .error (.parseError "incomplete DSML protocol marker")
    else .ok { visible := s.buffer }

/-- The fragments of a stream, one after the other, and `finish`. -/
def stream (s : DsmlState) : List (List Char) → Except (Raised E) Delta
  | [] => finish s
  | text :: texts => do
      let (s, delta) ← p.feed s text
      let rest ← stream s texts
      pure (delta.append rest)

end DSMLStreamParser

end TyloQuant.Protocol
