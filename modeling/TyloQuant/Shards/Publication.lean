import TyloQuant.Lib.Call
import TyloQuant.Lib.Table
import TyloQuant.Shards.Names
import TyloQuant.Shards.Planning

/-!
# Publishing a set of shards

`StreamingBlobShardWriter.finalize` and `write_blob_record_shards` build every file of a set under
a temporary name, rename one after the other onto its destination, and then delete the files of an
older set that have no successor.  Any step may fail; both then remove the temporaries and throw.

`Step` names the calls that may fail and `fails` says which of them do.  What building a shard
leaves, or that it throws, is a parameter, as is the order in which a set of names is gone through.
The directory holds the files next to the output; payload files and consumed blobs lie elsewhere.
-/

namespace TyloQuant.Shards

open Lib

/-- The directory of the output. -/
abbrev Dir := Table Name (List UInt8)

/-- The calls that may fail, `stage` apart. -/
inductive Step where
  | newPayload
  | list
  | measure
  | diskSpace
  | hand (index : Nat)
  | beforePublish
  | publish (index : Nat)
  | unlink (name : Name)
  | consume
  | removeWorkDir
  | cleanPayloads
  | clean (index : Nat)
deriving DecidableEq

/-! ### The code -/

section Code

variable (fails : Step → Bool)

def attempt (step : Step) : Call ShardError Dir PUnit :=
  if fails step then Call.throw .os else pure PUnit.unit

def attemptAll : List Step → Call ShardError Dir PUnit
  | [] => pure PUnit.unit
  | step :: steps => do
      attempt fails step
      attemptAll steps

/-- The calls that may throw before anything is written. -/
def lift {α : Type} (x : Except ShardError α) : Call ShardError Dir α :=
  match x with
  | .ok a => pure a
  | .error e => Call.throw e

/-- `os.replace`. -/
def replace (step : Step) (source target : Name) : Call ShardError Dir PUnit := do
  attempt fails step
  let dir ← Call.get
  match dir.lookup source with
  | none => Call.throw .os
  | some content => Call.modify fun dir => (dir.insert target content).erase source

/-- The temporaries are renamed onto their destinations. -/
def publishAll : Nat → List Name → Call ShardError Dir PUnit
  | _, [] => pure PUnit.unit
  | index, destination :: rest => do
      replace fails (.publish index) (temporaryOf destination) destination
      publishAll (index + 1) rest

/-- The stale files are deleted. -/
def unlinkAll : List Name → Call ShardError Dir PUnit
  | [] => pure PUnit.unit
  | name :: rest => do
      attempt fails (.unlink name)
      let dir ← Call.get
      match dir.lookup name with
      | none => Call.throw .os
      | some _ => do
          Call.modify fun dir => dir.erase name
          unlinkAll rest

/-- `tmp.unlink(missing_ok=True)` for every temporary. -/
def cleanAll : Nat → List Name → Call ShardError Dir PUnit
  | _, [] => pure PUnit.unit
  | index, destination :: rest => do
      attempt fails (.clean index)
      Call.modify fun dir => dir.erase (temporaryOf destination)
      cleanAll (index + 1) rest

/-- The paths of the files to write. -/
def destinationsOf (output : Name) (sharded : Bool) (count : Nat) : Except ShardError (List Name) :=
  if count = 1 ∧ !sharded then .ok [output]
  else (List.range count).mapM fun index => formatShardPath output (index + 1) count

/-- `stale_outputs`, where `plain` says that the output itself is looked for. -/
def staleOutputs (plain : Bool) (output : Name) (dir : Dir) : List Name :=
  if plain ∧ output ∈ dir then (matchingShardPaths output dir.keys).insert output
  else matchingShardPaths output dir.keys

/-- `stale_outputs.difference(destinations)`. -/
def withoutSuccessor (stale destinations : List Name) : List Name :=
  stale.filter fun name => !destinations.contains name

/-- What both functions check before they write. -/
def checkOutputs (overwrite : Bool) (stale destinations : List Name) (dir : Dir) :
    Except ShardError Unit :=
  if stale ≠ [] ∧ !overwrite then .error .fileExists
  else if ∃ destination ∈ destinations, temporaryOf destination ∈ dir then .error .fileExists
  else .ok ()

/-- What both functions do first: name the files, look for those that are there, and measure the
    headers.  The result is the stale files and the destinations. -/
def prepare (plain sharded : Bool) (count : Nat) (output : Name) (overwrite : Bool) :
    Call ShardError Dir (List Name × List Name) := do
  let destinations ← lift (destinationsOf output sharded count)
  attempt fails .list
  let dir ← Call.get
  lift (checkOutputs overwrite (staleOutputs plain output dir) destinations dir)
  attempt fails .measure
  pure (staleOutputs plain output dir, destinations)

/-- The `try` block of both functions: the files are staged, published, the stale ones deleted,
    and `finishing` is what follows; `cleaning` comes before the temporaries are removed. -/
def publishSet (arrange : List Name → List Name) (staging : Call ShardError Dir PUnit)
    (finishing cleaning : List Step) (stale destinations : List Name) :
    Call ShardError Dir (List Name) :=
  Call.tryCatch
    (do
      staging
      publishAll fails 0 destinations
      unlinkAll fails (arrange (withoutSuccessor stale destinations))
      attemptAll fails finishing
      pure destinations)
    fun e => do
      attemptAll fails cleaning
      cleanAll fails 0 destinations
      Call.throw e

/-- `stage` for a shard, and the check that it is not empty. -/
def stageFile (stage : Nat → Except ShardError (List UInt8)) (index : Nat) :
    Except ShardError (List UInt8) := do
  let content ← stage index
  if content = [] then .error (.runtime "empty MFQ shard output") else pure content

/-! #### The streaming writer -/

/-- The payload files are renamed to the temporaries. -/
def handAll : Nat → List (Name × List UInt8) → Call ShardError Dir PUnit
  | _, [] => pure PUnit.unit
  | index, (destination, content) :: rest => do
      attempt fails (.hand index)
      Call.modify fun dir => dir.insert (temporaryOf destination) content
      handAll (index + 1) rest

/-- The payload files are finished in the work directory, then handed over. -/
def finishPayloads (stage : Nat → Except ShardError (List UInt8)) (destinations : List Name) :
    Call ShardError Dir PUnit := do
  attempt fails .diskSpace
  let contents ← lift ((List.range destinations.length).mapM (stageFile stage))
  handAll fails 0 (destinations.zip contents)

/-- The outputs of a writer are sharded. -/
def Writer.sharded (w : Writer) : Bool := decide (w.splitMaxSize ≠ 0 ∨ w.splitMaxTensors ≠ 0)

/-- `finalize`, once there is a payload. -/
def Writer.finalizeOpened (arrange : List Name → List Name)
    (stage : Nat → Except ShardError (List UInt8)) (output : Name) (overwrite : Bool)
    (w : Writer) : Call ShardError Dir (List Name) := do
  let found ← prepare fails true w.sharded w.payloads.length output overwrite
  publishSet fails arrange (finishPayloads fails stage found.2) [.consume, .removeWorkDir]
    [.cleanPayloads] found.1 found.2

/-- `finalize`. -/
def Writer.finalize (arrange : List Name → List Name)
    (stage : Nat → Except ShardError (List UInt8)) (output : Name) (overwrite : Bool)
    (assets : List BlobRecord) (w : Writer) : Call ShardError Dir (List Name) :=
  if w.finished then
    Call.throw (.runtime "streaming MFQ writer is already finalized")
  else if assets.any fun record => !isAssetRecord record.name then
    Call.throw (.value "finalize() assets must use the reserved asset namespace")
  else if w.payloads = [] then do
    let w ← lift w.newPayload
    attempt fails .newPayload
    w.finalizeOpened fails arrange stage output overwrite
  else w.finalizeOpened fails arrange stage output overwrite

/-! #### The staged writer -/

/-- The files are written under their temporary names; a shard that throws may leave a part of
    its file. -/
def buildAll (stage : Nat → Except ShardError (List UInt8)) (leftover : Nat → Option (List UInt8)) :
    Nat → List Name → Call ShardError Dir PUnit
  | _, [] => pure PUnit.unit
  | index, destination :: rest =>
    match stageFile stage index with
    | .error e => do
        match leftover index with
        | none => Call.throw e
        | some part => do
            Call.modify fun dir => dir.insert (temporaryOf destination) part
            Call.throw e
    | .ok content => do
        Call.modify fun dir => dir.insert (temporaryOf destination) content
        buildAll stage leftover (index + 1) rest

/-- The files are built and looked at by `before_publish`. -/
def buildFiles (stage : Nat → Except ShardError (List UInt8))
    (leftover : Nat → Option (List UInt8)) (destinations : List Name) :
    Call ShardError Dir PUnit := do
  buildAll stage leftover 0 destinations
  attempt fails .beforePublish

/-- `write_blob_record_shards`; without `preflight` measuring and the disk-space check do not
    fail. -/
def writeBlobRecordShards (arrange : List Name → List Name)
    (stage : Nat → Except ShardError (List UInt8)) (leftover : Nat → Option (List UInt8))
    (output : Name) (records : List BlobRecord) (splitMaxSize splitMaxTensors : Int)
    (overwrite : Bool) : Call ShardError Dir (List Name) := do
  let planned ← lift (planRecordShards records splitMaxSize splitMaxTensors)
  let sharded := decide (splitMaxSize ≠ 0 ∨ splitMaxTensors ≠ 0)
  let found ← prepare fails (!sharded) sharded planned.length output overwrite
  attempt fails .diskSpace
  publishSet fails arrange (buildFiles fails stage leftover found.2) [.consume] [] found.1 found.2

end Code

end TyloQuant.Shards
