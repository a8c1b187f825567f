import TyloQuant.Lib.Incremental

/-!
# Text and tool schemas

What the parsers of tool calls use of Python's strings, of `json` and of the tools' schemas.  A
text is the list of its characters and a position is a number of characters.
-/

namespace TyloQuant.Protocol

open Lib

/-! ### Strings -/

/-- `str.isspace` of a character. -/
def isSpace (c : Char) : Bool :=
  let n := c.toNat
  (9 ≤ n ∧ n ≤ 13) ∨ (28 ≤ n ∧ n ≤ 32) ∨ n = 0x85 ∨ n = 0xa0 ∨ n = 0x1680 ∨
    (0x2000 ≤ n ∧ n ≤ 0x200a) ∨ n = 0x2028 ∨ n = 0x2029 ∨ n = 0x202f ∨ n = 0x205f ∨ n = 0x3000

/-- `str.strip`. -/
def strip (text : List Char) : List Char :=
  ((text.dropWhile isSpace).reverse.dropWhile isSpace).reverse

/-- `str.rfind`. -/
def rfind (marker : List Char) : List Char → Option Nat
  | [] => if marker = [] then some 0 else none
  | x :: xs =>
    match rfind marker xs with
    | some i => some (i + 1)
    | none => if marker <+: x :: xs then some 0 else none

/-- `value.startswith(marker, position)`. -/
def startsWithAt (marker value : List Char) (position : Nat) : Bool :=
  marker <+: value.drop position

def skipWhitespace (value : List Char) (position : Nat) : Nat :=
  position + ((value.drop position).takeWhile isSpace).length

/-- `value[start:stop]`. -/
def slice (value : List Char) (start stop : Nat) : List Char := (value.take stop).drop start

theorem le_skipWhitespace (value : List Char) (position : Nat) :
    position ≤ skipWhitespace value position :=
  Nat.le_add_right _ _

theorem findFrom_some {marker value : List Char} {start i : Nat} (hne : marker ≠ [])
    (h : findFrom marker value start = some i) : start ≤ i ∧ i < value.length := by
  obtain ⟨k, hk, rfl⟩ := Option.map_eq_some_iff.mp h
  have hlt := find_lt hne hk
  rw [List.length_drop] at hlt
  omega

/-! ### JSON -/

/-- How `json.loads` fails: with a `JSONDecodeError`, or otherwise. -/
inductive LoadsError (E : Type) where
  | decode
  | other (e : E)

/-- The functions of Python that the parsers call. -/
structure Python (V E : Type) where
  loads : List Char → Except (LoadsError E) V
  /-- `json.dumps` of a dictionary with the options that the parsers give. -/
  dumps : List (List Char × V) → List Char
  /-- A string as a value. -/
  string : List Char → V
  repr : List Char → String

/-- What a parser raises: its own error, or what a call of it has raised. -/
inductive Raised (E : Type) where
  | parseError (message : String)
  | other (e : E)
deriving DecidableEq

/-! ### Schemas -/

inductive SchemaValue where
  | null
  | string (s : List Char)
  | list (items : List SchemaValue)
  | mapping (items : List (List Char × SchemaValue))
  | other

/-- A tool's schema, a `Mapping`. -/
abbrev Schema := List (List Char × SchemaValue)

/-- `mapping.get(key)`. -/
def get (items : List (List Char × SchemaValue)) (key : List Char) : SchemaValue :=
  ((items.find? fun item => item.1 = key).map fun item => item.2).getD .null

/-- The definition of a parameter, where there are properties. -/
def definition (schema : Schema) (name : List Char) : SchemaValue :=
  match get schema "properties".toList with
  | .mapping properties => get properties name
  | _ => .null

def isString : SchemaValue → Bool
  | .string s => s = "string".toList
  | _ => false

/-- `_parameter_allows_string`. -/
def parameterAllowsString (schema : Schema) (name : List Char) : Bool :=
  match definition schema name with
  | .mapping items =>
    match get items "type".toList with
    | .list types => types.any isString
    | type => isString type
  | _ => false

structure ToolCall where
  name : List Char
  arguments : List Char
deriving DecidableEq, Repr

/-- What a call of `feed` adds: visible text and complete calls. -/
structure Delta where
  visible : List Char := []
  calls : List ToolCall := []
deriving DecidableEq, Repr

def Delta.append (a b : Delta) : Delta :=
  { visible := a.visible ++ b.visible, calls := a.calls ++ b.calls }

end TyloQuant.Protocol
