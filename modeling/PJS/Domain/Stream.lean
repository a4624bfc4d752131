import PJS.Domain.Frame
import PJS.Domain.PriorityHeuristic

/-! The stream entity. A method that mutates the stream and may fail returns its result beside
the stream it leaves behind, so that a failure after a partial update would show. -/
namespace PJS

/-- Stream state in its lifecycle. -/
inductive StreamState where
  | preparing
  | streaming
  | completed
  | failed
  | cancelled
deriving DecidableEq

/-- The `Debug` form. -/
def StreamState.debug : StreamState → String
  | .preparing => "Preparing"
  | .streaming => "Streaming"
  | .completed => "Completed"
  | .failed => "Failed"
  | .cancelled => "Cancelled"

/-- Stream configuration and metadata. -/
structure StreamConfig where
  maxFrameSize : ℕ
  maxFramesPerBatch : ℕ
  enableCompression : Bool
  priorityRules : AssocMap String Priority

def StreamConfig.default : StreamConfig := ⟨64 * 1024, 10, true, .empty⟩

/-- Stream statistics for monitoring. -/
structure StreamStats where
  totalFrames : ℕ
  skeletonFrames : ℕ
  patchFrames : ℕ
  completeFrames : ℕ
  errorFrames : ℕ
  totalBytes : ℕ
  criticalBytes : ℕ
  highPriorityBytes : ℕ
  averageFrameSize : Float

def StreamStats.default : StreamStats := ⟨0, 0, 0, 0, 0, 0, 0, 0, 0.0⟩

/-- Priority data stream entity. -/
structure Stream where
  id : StreamId
  sessionId : SessionId
  state : StreamState
  config : StreamConfig
  stats : StreamStats
  createdAt : DateTime
  updatedAt : DateTime
  completedAt : Option DateTime
  nextSequence : ℕ
  sourceData : Option DataDocument
  metadata : AssocMap String String

/-- What the code of one call reads from outside: `Utc::now()`, reading by reading, the fresh
identifier `StreamId::new` draws, and `Display` of `f64`. -/
structure Env where
  utc : ℕ → DateTime
  uuid : StreamId
  showFloat : Float → String

/-- The environment after `n` readings of the clock. -/
def Env.later (env : Env) (n : ℕ) : Env := { env with utc := fun i => env.utc (n + i) }

namespace Stream

section Lifecycle
variable (env : Env)

/-- Create new stream. -/
def new (sessionId : SessionId) (sourceData : DataDocument) (config : StreamConfig) : Stream where
  id := env.uuid
  sessionId
  state := .preparing
  config
  stats := .default
  createdAt := env.utc 0
  updatedAt := env.utc 0
  completedAt := none
  nextSequence := 1
  sourceData := some sourceData
  metadata := .empty

def addMetadata (stream : Stream) (key value : String) : Stream :=
  { stream with metadata := stream.metadata.insert key value, updatedAt := env.utc 0 }

/-- Start streaming (transition to Streaming state). -/
def startStreaming (stream : Stream) : DomainResult Unit × Stream :=
  match stream.state with
  | .preparing => (.ok (), { stream with state := .streaming, updatedAt := env.utc 0 })
  | state => (.error (.invalidStateTransition
      s!"Cannot start streaming from state: {state.debug}"), stream)

/-- Complete stream successfully. -/
def complete (stream : Stream) : DomainResult Unit × Stream :=
  match stream.state with
  | .streaming => (.ok (), { stream with
      state := .completed, completedAt := some (env.utc 0), updatedAt := env.utc 1 })
  | state => (.error (.invalidStateTransition
      s!"Cannot complete stream from state: {state.debug}"), stream)

/-- Fail stream with error. -/
def fail (stream : Stream) (error : String) : DomainResult Unit × Stream :=
  match stream.state with
  | .preparing | .streaming =>
    (.ok (), addMetadata (env.later 1)
      { stream with state := .failed, completedAt := some (env.utc 0) } "error" error)
  | state => (.error (.invalidStateTransition
      s!"Cannot fail stream from state: {state.debug}"), stream)

/-- Cancel stream. -/
def cancel (stream : Stream) : DomainResult Unit × Stream :=
  match stream.state with
  | .preparing | .streaming => (.ok (), { stream with
      state := .cancelled, completedAt := some (env.utc 0), updatedAt := env.utc 1 })
  | state => (.error (.invalidStateTransition
      s!"Cannot cancel stream from state: {state.debug}"), stream)

/-- Check if stream is active. -/
def isActive (stream : Stream) : Bool :=
  match stream.state with
  | .preparing | .streaming => true
  | _ => false

/-- Stream duration in milliseconds, once it has ended. -/
def duration (stream : Stream) : Option ℤ :=
  stream.completedAt.map fun stop => stop.millisSince stream.createdAt

/-- Update configuration. -/
def updateConfig (stream : Stream) (config : StreamConfig) : DomainResult Unit × Stream :=
  if stream.isActive then (.ok (), { stream with config, updatedAt := env.utc 0 })
  else (.error (.invalidStreamState "Cannot update config of inactive stream"), stream)

end Lifecycle

section Patches

mutual

/-- Skeleton of the source data: its objects with empty arrays and placeholder scalars. -/
def generateSkeleton : JsonData → JsonData
  | .object obj => .object (generateSkeletonFields [] obj)
  | .array _ => .array []
  | .scalar _ => .null

/-- The loop over a map's entries, inserting into `skeleton`. -/
def generateSkeletonFields (skeleton : List (String × JsonData)) :
    List (String × JsonData) → List (String × JsonData)
  | [] => skeleton
  | (key, value) :: rest =>
    generateSkeletonFields
      (Assoc.insert key (match value with
        | .array _ => .array []
        | .object _ => generateSkeleton value
        | .integer _ => .integer 0
        | .float _ => .float 0.0
        | .string _ => .null
        | .bool _ => .bool false
        | .null => .null) skeleton)
      rest

end

/-- Compute a priority for a patch; the stream's own rules win over the heuristic. -/
def computePriority (stream : Stream) (path : JsonPath) (value : JsonData) : Priority :=
  let cfg := PriorityHeuristicConfig.default
  let cfg := if stream.config.priorityRules.entries.isEmpty then cfg
    else { cfg with overrides := stream.config.priorityRules }
  PJS.computePriority cfg path value

/-- The patch of a value that is not an object, unless its priority is below the threshold. -/
def collectLeaf (stream : Stream) (threshold : Priority) (data : JsonData) (path : JsonPath) :
    List (FramePatch × Priority) :=
  let priority := stream.computePriority path data
  if priority ≥ threshold then [(FramePatch.set path data, priority)] else []

mutual

/-- Recursive walker: one `Set` patch per scalar and array, objects are traversed. Keys a path
cannot encode are skipped. -/
def collectPatches (stream : Stream) (threshold : Priority) :
    JsonData → JsonPath → List (FramePatch × Priority)
  | .object map, path => collectFieldPatches stream threshold map path
  | .array arr, path => collectLeaf stream threshold (.array arr) path
  | .scalar s, path => collectLeaf stream threshold (.scalar s) path

def collectFieldPatches (stream : Stream) (threshold : Priority) :
    List (String × JsonData) → JsonPath → List (FramePatch × Priority)
  | [], _ => []
  | (key, value) :: rest, path =>
    (match path.appendKey key with
      | .error _ => []
      | .ok childPath => collectPatches stream threshold value childPath) ++
      collectFieldPatches stream threshold rest path

end

/-- Extract patches with priority filtering, highest priority first. -/
def extractPatches (stream : Stream) (data : JsonData) (threshold : Priority) :
    List (FramePatch × Priority) :=
  Lists.sortDesc Prod.snd (stream.collectPatches threshold data .root)

def notStreaming : DomainError :=
  .invalidStreamState "Stream must be in streaming state to create frames"

/-- Compute prioritized patches for this stream's source data. -/
def extractPrioritizedPatches (stream : Stream) (priorityThreshold : Priority) :
    DomainResult (List (FramePatch × Priority)) :=
  if stream.state ≠ .streaming then .error notStreaming
  else match stream.sourceData with
    | none => .error (.invalidStreamState "No source data available for patches")
    | some sourceData => .ok (stream.extractPatches sourceData.value priorityThreshold)

/-- Group prioritized patches into per-frame chunks. A chunk's priority is the maximum priority
of the patches it contains. -/
def chunkPatchesForCommit (patches : List (FramePatch × Priority)) (maxFrames : ℕ) :
    List (Priority × List FramePatch) :=
  if patches.isEmpty ∨ maxFrames = 0 then []
  else
    let chunkSize := max ((patches.length + maxFrames - 1) / maxFrames) 1
    (patches.toChunks chunkSize).map fun chunk =>
      ((chunk.map Prod.snd).max?.getD .medium, chunk.map Prod.fst)

end Patches

section Frames
variable (env : Env)

/-- Record frame creation for stats. -/
def recordFrameCreated (stream : Stream) (frame : Frame) : Stream :=
  let frameSize := frame.estimatedSize env.showFloat
  let stats := { stream.stats with
    totalFrames := stream.stats.totalFrames + 1
    totalBytes := stream.stats.totalBytes + frameSize }
  let stats := match frame.frameType with
    | .skeleton => { stats with
        skeletonFrames := stats.skeletonFrames + 1
        criticalBytes := stats.criticalBytes + frameSize }
    | .patch =>
      let stats := { stats with patchFrames := stats.patchFrames + 1 }
      if frame.priority.isCritical then
        { stats with criticalBytes := stats.criticalBytes + frameSize }
      else if frame.priority.isHighOrAbove then
        { stats with highPriorityBytes := stats.highPriorityBytes + frameSize }
      else stats
    | .complete => { stats with
        completeFrames := stats.completeFrames + 1
        criticalBytes := stats.criticalBytes + frameSize }
    | .error => { stats with
        errorFrames := stats.errorFrames + 1
        criticalBytes := stats.criticalBytes + frameSize }
  { stream with
    nextSequence := stream.nextSequence + 1
    stats := { stats with
      averageFrameSize := Float.ofNat stats.totalBytes / Float.ofNat stats.totalFrames }
    updatedAt := env.utc 0 }

/-- Generate skeleton frame for the stream. -/
def createSkeletonFrame (stream : Stream) : DomainResult Frame × Stream :=
  if stream.state ≠ .streaming then (.error notStreaming, stream)
  else match stream.sourceData with
    | none => (.error (.invalidStreamState "No source data available for skeleton"), stream)
    | some skeletonData =>
      let skeleton := generateSkeleton skeletonData.value
      let frame := Frame.skeleton stream.id stream.nextSequence skeleton (env.utc 0)
      (.ok frame, stream.recordFrameCreated (env.later 1) frame)

/-- Build and commit one patch frame from an already-chunked group of patches. -/
def finalizePatchFrame (stream : Stream) (priority : Priority) (framePatches : List FramePatch) :
    DomainResult Frame × Stream :=
  if stream.state ≠ .streaming then (.error notStreaming, stream)
  else match Frame.patch stream.id stream.nextSequence priority framePatches (env.utc 0) with
    | .error e => (.error e, stream)
    | .ok frame => (.ok frame, stream.recordFrameCreated (env.later 1) frame)

/-- Create completion frame. -/
def createCompletionFrame (stream : Stream) (checksum : Option String) :
    DomainResult Frame × Stream :=
  if stream.state ≠ .streaming then (.error notStreaming, stream)
  else
    let frame := Frame.complete stream.id stream.nextSequence checksum (env.utc 0)
    (.ok frame, stream.recordFrameCreated (env.later 1) frame)

end Frames

/-- Finalize chunks one at a time; a failure keeps the ones before it. -/
def finalizeChunks (env : Env) (stream : Stream) :
    List (Priority × List FramePatch) → DomainResult (List Frame) × Stream
  | [] => (.ok [], stream)
  | (priority, framePatches) :: rest =>
    match stream.finalizePatchFrame env priority framePatches with
    | (.error e, stream) => (.error e, stream)
    | (.ok frame, stream) =>
      match finalizeChunks (env.later 2) stream rest with
      | (.error e, stream) => (.error e, stream)
      | (.ok frames, stream) => (.ok (frame :: frames), stream)

/-- Turn already-extracted prioritized patches into frames and commit their bookkeeping. -/
def commitPatchFrames (env : Env) (stream : Stream) (patches : List (FramePatch × Priority))
    (maxFrames : ℕ) : DomainResult (List Frame) × Stream :=
  if stream.state ≠ .streaming then (.error notStreaming, stream)
  else stream.finalizeChunks env (chunkPatchesForCommit patches maxFrames)

/-- Create batch of patch frames based on priority. -/
def createPatchFrames (env : Env) (stream : Stream) (priorityThreshold : Priority)
    (maxFrames : ℕ) : DomainResult (List Frame) × Stream :=
  match stream.extractPrioritizedPatches priorityThreshold with
  | .error e => (.error e, stream)
  | .ok patches => stream.commitPatchFrames env patches maxFrames

/-- Chunks are never empty. -/
theorem ne_nil_of_mem_chunkPatchesForCommit {patches : List (FramePatch × Priority)} {n : ℕ}
    {chunk : Priority × List FramePatch} (h : chunk ∈ chunkPatchesForCommit patches n) :
    chunk.2 ≠ [] := by
  unfold chunkPatchesForCommit at h
  split_ifs at h
  · cases h
  · obtain ⟨c, hc, rfl⟩ := List.mem_map.mp h
    simpa using Lists.ne_nil_of_mem_toChunks hc

end Stream

end PJS
