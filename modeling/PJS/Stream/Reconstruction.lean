import PJS.Stream.Priority

/-! The client-side engine that applies skeleton and patch frames to a growing document. -/
namespace PJS

structure ReconstructionStats where
  framesProcessed : UInt32
  patchesApplied : UInt32
  skeletonFrames : UInt32
  patchFrames : UInt32
deriving DecidableEq

structure JsonReconstructor where
  currentState : JsonValue
  frameQueue : List PriorityStreamFrame
  isComplete : Bool
  stats : ReconstructionStats
deriving DecidableEq

inductive ProcessResult where
  | noFrames
  | skeletonApplied
  | patchesApplied (count : ℕ) (priority : Priority) (paths : List JsonPath)
  | reconstructionComplete
deriving DecidableEq

namespace JsonReconstructor

def new : JsonReconstructor := ⟨.null, [], false, ⟨0, 0, 0, 0⟩⟩

/-- Add a frame to the reconstruction queue. -/
def addFrame (r : JsonReconstructor) (frame : PriorityStreamFrame) : JsonReconstructor :=
  { r with frameQueue := r.frameQueue ++ [frame] }

section Paths

/-- Walk to the value at `segments` and update it in place: the mutable reference that
`get_mut_at_path` returns is the argument of `update`. -/
def getMutAtPath : List PathSegment → (JsonValue → Except Error JsonValue) → JsonValue →
    Except Error JsonValue
  | [], update, current => update current
  | .key key :: rest, update, .object map =>
    match map.lookup key with
    | some child => do
      let child ← getMutAtPath rest update child
      return .object (Assoc.replace key child map)
    | none => throw (.other s!"Key not found: {key}")
  | .key _ :: _, _, _ => throw (.other "Expected object")
  | .index idx :: rest, update, .array arr =>
    match arr[idx]? with
    | some child => do
      let child ← getMutAtPath rest update child
      return .array (arr.set idx child)
    | none => throw (.other s!"Index out of bounds: {idx}")
  | .index _ :: _, _, _ => throw (.other "Expected array")

/-- The walk of `get_parent_mut`: every segment but the last. -/
def getParentMut (path : JsonPath) (update : JsonValue → Except Error JsonValue)
    (state : JsonValue) : Except Error JsonValue :=
  getMutAtPath path.segments.dropLast update state

/-- Set value at specified JSON path. -/
def setAtPath (path : JsonPath) (value : JsonValue) (state : JsonValue) :
    Except Error JsonValue :=
  if path.segments.isEmpty then return value
  else match path.lastKey with
    | none => throw (.other "Invalid path for set operation")
    | some targetKey => getParentMut path (fun
      | .object map => return .object (JsonMap.insert map targetKey value)
      | .array arr =>
        match parseUsize targetKey with
        | some index =>
          if index < arr.length then return .array (arr.set index value)
          else throw (.other "Array index out of bounds")
        | none => throw (.other "Invalid array index")
      | .scalar _ => throw (.other "Cannot set field on non-object/array")) state

/-- Append values to array at specified path. -/
def appendAtPath (path : JsonPath) (values : List JsonValue) (state : JsonValue) :
    Except Error JsonValue :=
  getMutAtPath path.segments (fun
    | .array arr => return .array (arr ++ values)
    | _ => throw (.other "Cannot append to non-array")) state

/-- Remove value at specified path. -/
def removeAtPath (path : JsonPath) (state : JsonValue) : Except Error JsonValue :=
  match path.lastKey with
  | none => throw (.other "Invalid path for remove operation")
  | some targetKey => getParentMut path (fun
    | .object map => return .object (map.filter fun e => e.1 ≠ targetKey)
    | .array arr =>
      match parseUsize targetKey with
      | some index => return .array (if index < arr.length then arr.eraseIdx index else arr)
      | none => return .array arr
    | .scalar _ => throw (.other "Cannot remove from non-object/array")) state

end Paths

/-- Apply a single patch to the current JSON state. -/
def applyPatch (patch : JsonPatch) (state : JsonValue) : Except Error JsonValue :=
  match patch.operation with
  | .set value => setAtPath patch.path value state
  | .append values => appendAtPath patch.path values state
  | .replace value => setAtPath patch.path value state
  | .remove => removeAtPath patch.path state

/-- The loop over a frame's patches. A failing patch ends it with the earlier ones applied. -/
def applyPatches (r : JsonReconstructor) (appliedPaths : List JsonPath) :
    List JsonPatch → Except Error (List JsonPath) × JsonReconstructor
  | [] => (.ok appliedPaths, r)
  | patch :: patches =>
    match applyPatch patch r.currentState with
    | .error e => (.error e, r)
    | .ok state =>
      applyPatches { r with
          currentState := state
          stats := { r.stats with patchesApplied := r.stats.patchesApplied + 1 } }
        (appliedPaths ++ [patch.path]) patches

/-- Process a single frame. -/
def processFrame (r : JsonReconstructor) (frame : PriorityStreamFrame) :
    Except Error ProcessResult × JsonReconstructor :=
  let r := { r with stats := { r.stats with framesProcessed := r.stats.framesProcessed + 1 } }
  match frame with
  | .skeleton data _ _ =>
    (.ok .skeletonApplied, { r with
      currentState := data
      stats := { r.stats with skeletonFrames := r.stats.skeletonFrames + 1 } })
  | .patch patches priority =>
    let r := { r with stats := { r.stats with patchFrames := r.stats.patchFrames + 1 } }
    match applyPatches r [] patches with
    | (.error e, r) => (.error e, r)
    | (.ok paths, r) => (.ok (.patchesApplied paths.length priority paths), r)
  | .complete _ => (.ok .reconstructionComplete, { r with isComplete := true })

/-- Process next frame in the queue. -/
def processNextFrame (r : JsonReconstructor) : Except Error ProcessResult × JsonReconstructor :=
  match r.frameQueue with
  | frame :: queue => processFrame { r with frameQueue := queue } frame
  | [] => (.ok .noFrames, r)

/-- The loop of `process_all_frames` over the frames popped from the queue. -/
def processQueue (r : JsonReconstructor) (results : List ProcessResult) :
    List PriorityStreamFrame → Except Error (List ProcessResult) × JsonReconstructor
  | [] => (.ok results, { r with frameQueue := [] })
  | frame :: queue =>
    match processFrame { r with frameQueue := queue } frame with
    | (.error e, r) => (.error e, r)
    | (.ok result, r) => processQueue r (results ++ [result]) queue

/-- Process all queued frames. -/
def processAllFrames (r : JsonReconstructor) :
    Except Error (List ProcessResult) × JsonReconstructor :=
  processQueue r [] r.frameQueue

/-- Queue every frame of a plan on a fresh reconstructor and process them. -/
def replay (plan : StreamingPlan) : Except Error (List ProcessResult) × JsonReconstructor :=
  (plan.frames.foldl addFrame new).processAllFrames

end JsonReconstructor

end PJS
