import Mathlib

/-!
# Events of the engine

A request of the engine produces events: its progress and output while it runs, and one terminal
event that ends it.  Timings and metrics are left out.
-/

namespace TyloQuant.Engine

/-- A `std::string`. -/
abbrev Text := List UInt8

def text (s : String) : Text := s.toUTF8.toList

abbrev RequestId := Text

structure ToolCall where
  name : Text
  arguments : Text
  id : Text
deriving DecidableEq

structure MessageDiff where
  reasoningContentDelta : Text
  contentDelta : Text
  toolCallDelta : ToolCall
deriving DecidableEq

structure UsageUpdate where
  promptTokens : Nat := 0
  completionTokens : Nat := 0
deriving DecidableEq

structure Failed where
  code : Text
  message : Text
  retryable : Bool := false
deriving DecidableEq

/-- The data of an event. -/
inductive EventData where
  | prefillProgress (sessionBoundary : Bool)
  | outputDelta (tokenIds : List Int) (diffs : List MessageDiff)
  | usageUpdate (usage : UsageUpdate)
  | completed (finishReason : Text) (usage : UsageUpdate)
  | cancelled (usage : UsageUpdate)
  | failed (failure : Failed)
deriving DecidableEq

def EventData.terminal : EventData → Bool
  | .completed .. | .cancelled .. | .failed .. => true
  | _ => false

end TyloQuant.Engine
