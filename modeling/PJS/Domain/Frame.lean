import PJS.Domain.JsonPath
import PJS.Domain.JsonData

/-! Frames of a stream and the patches they carry. -/
namespace PJS

/-- Frame types for different stages of streaming. -/
inductive FrameType where
  | skeleton
  | patch
  | complete
  | error
deriving DecidableEq

inductive FramePatch.PatchOperation where
  | set
  | append
  | merge
  | delete
deriving DecidableEq

/-- Individual patch within a frame. -/
structure FramePatch where
  path : JsonPath
  operation : FramePatch.PatchOperation
  value : JsonData
deriving DecidableEq

/-- Individual frame in a priority stream. -/
structure Frame where
  streamId : StreamId
  frameType : FrameType
  priority : Priority
  sequence : ℕ
  timestamp : DateTime
  payload : JsonData
  metadata : AssocMap String String
deriving DecidableEq

namespace FramePatch

def PatchOperation.name : PatchOperation → String
  | .set => "set"
  | .append => "append"
  | .merge => "merge"
  | .delete => "delete"

/-- Create set operation patch. -/
def set (path : JsonPath) (value : JsonData) : FramePatch := ⟨path, .set, value⟩

/-- A patch as an entry of a frame's payload. -/
def toPayload (patch : FramePatch) : JsonData :=
  .object [("path", .scalar (.string patch.path.toString)),
    ("operation", .scalar (.string patch.operation.name)), ("value", patch.value)]

end FramePatch

namespace Frame

/-- Create new skeleton frame. -/
def skeleton (streamId : StreamId) (sequence : ℕ) (skeletonData : JsonData) (now : DateTime) :
    Frame where
  streamId
  frameType := .skeleton
  priority := .critical
  sequence
  timestamp := now
  payload := skeletonData
  metadata := .empty

/-- Create new patch frame. -/
def patch (streamId : StreamId) (sequence : ℕ) (priority : Priority) (patches : List FramePatch)
    (now : DateTime) : DomainResult Frame :=
  if patches.isEmpty then .error (.invalidFrame "Patch frame must contain at least one patch")
  else .ok {
    streamId
    frameType := .patch
    priority
    sequence
    timestamp := now
    payload := .object [("patches", .array (patches.map FramePatch.toPayload))]
    metadata := .empty }

/-- Create completion frame. -/
def complete (streamId : StreamId) (sequence : ℕ) (checksum : Option String) (now : DateTime) :
    Frame where
  streamId
  frameType := .complete
  priority := .critical
  sequence
  timestamp := now
  payload := match checksum with
    | some checksum => .object [("checksum", .scalar (.string checksum))]
    | none => .object []
  metadata := .empty

/-- Estimate frame size in bytes. -/
def estimatedSize (showFloat : Float → String) (frame : Frame) : ℕ :=
  let payloadSize := (frame.payload.toString showFloat).utf8ByteSize
  let metadataSize :=
    (frame.metadata.entries.map fun e => e.1.utf8ByteSize + e.2.utf8ByteSize + 4).sum
  payloadSize + metadataSize + 200

end Frame

end PJS
