import PJS.Domain.Stream

/-! The session aggregate. A method that mutates the session and may fail returns its result
beside the session it leaves behind. The session reads its own clock, its streams read the
system clock. -/
namespace PJS

/-- Session state in its lifecycle. -/
inductive SessionState where
  | initializing
  | active
  | closing
  | completed
  | failed
deriving DecidableEq

/-- The `Debug` form. -/
def SessionState.debug : SessionState → String
  | .initializing => "Initializing"
  | .active => "Active"
  | .closing => "Closing"
  | .completed => "Completed"
  | .failed => "Failed"

/-- The events that concern sessions and the lifecycle of their streams. -/
inductive DomainEvent where
  | sessionActivated (sessionId : SessionId) (timestamp : DateTime)
  | sessionClosed (sessionId : SessionId) (timestamp : DateTime)
  | sessionTimedOut (sessionId : SessionId) (originalState : SessionState)
      (timeoutDuration : UInt64) (timestamp : DateTime)
  | sessionTimeoutExtended (sessionId : SessionId) (additionalSeconds : UInt64)
      (newExpiresAt : DateTime) (timestamp : DateTime)
  | streamCreated (sessionId : SessionId) (streamId : StreamId) (timestamp : DateTime)
  | streamStarted (sessionId : SessionId) (streamId : StreamId) (timestamp : DateTime)
  | streamCompleted (sessionId : SessionId) (streamId : StreamId) (timestamp : DateTime)
  | streamFailed (sessionId : SessionId) (streamId : StreamId) (error : String)
      (timestamp : DateTime)
  | streamCancelled (sessionId : SessionId) (streamId : StreamId) (timestamp : DateTime)
  | framesBatched (sessionId : SessionId) (frameCount : ℕ) (timestamp : DateTime)
  | streamConfigUpdated (sessionId : SessionId) (streamId : StreamId) (timestamp : DateTime)
deriving DecidableEq

/-- Session configuration. -/
structure SessionConfig where
  maxConcurrentStreams : ℕ
  sessionTimeoutSeconds : UInt64
  defaultStreamConfig : StreamConfig
  enableCompression : Bool
  metadata : AssocMap String String

def SessionConfig.default : SessionConfig := ⟨10, 3600, .default, true, .empty⟩

/-- Session statistics and monitoring. -/
structure SessionStats where
  totalStreams : ℕ
  activeStreams : ℕ
  completedStreams : ℕ
  failedStreams : ℕ
  totalFrames : ℕ
  totalBytes : ℕ
  averageStreamDurationMs : Float
  recentAvgDurationMs : Float

def SessionStats.default : SessionStats := ⟨0, 0, 0, 0, 0, 0, 0.0, 0.0⟩

/-- The aggregate root: a session and its streams. -/
structure StreamSession where
  id : SessionId
  state : SessionState
  config : SessionConfig
  stats : SessionStats
  createdAt : DateTime
  updatedAt : DateTime
  expiresAt : DateTime
  completedAt : Option DateTime
  streams : AssocMap StreamId Stream
  pendingEvents : List DomainEvent
  clientInfo : Option String
  userAgent : Option String
  ipAddress : Option String

/-- Session health information. -/
structure SessionHealth where
  isHealthy : Bool
  activeStreams : ℕ
  failedStreams : ℕ
  isExpired : Bool
  uptimeSeconds : ℤ

/-- What one call reads from outside: besides what its streams read, the session's clock, reading
by reading, and the order in which the map of streams is iterated. -/
structure SessionEnv extends Env where
  now : ℕ → DateTime
  order : List (StreamId × Stream) → List (StreamId × Stream)
  order_perm : ∀ entries, (order entries).Perm entries

namespace StreamSession

/-- Create new session. Adding the timeout to the clock may leave the range of dates, and `none`
is the panic that follows. -/
def withTimeProvider (config : SessionConfig) (id : SessionId) (now : DateTime) :
    Option StreamSession := do
  let expiresAt ← now.addSeconds? config.sessionTimeoutSeconds.toInt64.toInt
  return {
    id
    state := .initializing
    config
    stats := .default
    createdAt := now
    updatedAt := now
    expiresAt
    completedAt := none
    streams := .empty
    pendingEvents := []
    clientInfo := none
    userAgent := none
    ipAddress := none }

/-- Check if session is expired. -/
def isExpired (session : StreamSession) (now : DateTime) : Bool := session.expiresAt < now

/-- Check if session is active. -/
def isActive (session : StreamSession) (now : DateTime) : Bool :=
  session.state == .active && !session.isExpired now

def addEvent (session : StreamSession) (event : DomainEvent) : StreamSession :=
  { session with pendingEvents := session.pendingEvents ++ [event] }

def updateTimestamp (session : StreamSession) (now : DateTime) : StreamSession :=
  { session with updatedAt := now }

/-- Run `f` on the stream that `get_mut` finds. -/
def withStream {α : Type} (session : StreamSession) (streamId : StreamId)
    (f : Stream → DomainResult α × Stream) : DomainResult α × StreamSession :=
  match session.streams.get? streamId with
  | none => (.error (.streamNotFound streamId.toString), session)
  | some stream =>
    let (result, stream) := f stream
    (result, { session with streams := session.streams.insert streamId stream })

variable (env : SessionEnv)

section Lifecycle

/-- Activate session. -/
def activate (session : StreamSession) : DomainResult Unit × StreamSession :=
  match session.state with
  | .initializing =>
    let session := { session with state := .active }.updateTimestamp (env.now 0)
    (.ok (), session.addEvent (.sessionActivated session.id (env.now 1)))
  | state => (.error (.invalidStateTransition
      s!"Cannot activate session from state: {state.debug}"), session)

def notActive : DomainError := .invalidSessionState "Session is not active"

/-- Create new stream in this session. -/
def createStream (session : StreamSession) (sourceData : DataDocument) :
    DomainResult StreamId × StreamSession :=
  if !session.isActive (env.now 0) then (.error notActive, session)
  else if session.streams.size ≥ session.config.maxConcurrentStreams then
    (.error (.tooManyStreams
      s!"Maximum {session.config.maxConcurrentStreams} concurrent streams exceeded"), session)
  else
    let stream := Stream.new env.toEnv session.id sourceData session.config.defaultStreamConfig
    let session := { session with
      streams := session.streams.insert stream.id stream
      stats := { session.stats with
        totalStreams := session.stats.totalStreams + 1
        activeStreams := session.stats.activeStreams + 1 } }
    let session := session.updateTimestamp (env.now 1)
    (.ok stream.id, session.addEvent (.streamCreated session.id stream.id (env.now 2)))

/-- Update configuration of a child stream. -/
def updateStreamConfig (session : StreamSession) (streamId : StreamId) (config : StreamConfig) :
    DomainResult Unit × StreamSession :=
  match session.withStream streamId fun stream => stream.updateConfig env.toEnv config with
  | (.error e, session) => (.error e, session)
  | (.ok (), session) =>
    let session := session.updateTimestamp (env.now 0)
    (.ok (), session.addEvent (.streamConfigUpdated session.id streamId (env.now 1)))

/-- The environment after one reading of the system clock and three of the session's. -/
def afterCreate : SessionEnv :=
  { env with toEnv := env.toEnv.later 1, now := fun i => env.now (3 + i) }

/-- Create a stream and, if provided, apply a custom configuration to it. -/
def createStreamWithConfig (session : StreamSession) (sourceData : DataDocument)
    (config : Option StreamConfig) : DomainResult StreamId × StreamSession :=
  match session.createStream env sourceData with
  | (.error e, session) => (.error e, session)
  | (.ok streamId, session) =>
    match config with
    | none => (.ok streamId, session)
    | some config =>
      match session.updateStreamConfig (afterCreate env) streamId config with
      | (.error e, session) => (.error e, session)
      | (.ok (), session) => (.ok streamId, session)

/-- Start streaming for a specific stream. -/
def startStream (session : StreamSession) (streamId : StreamId) :
    DomainResult Unit × StreamSession :=
  match session.withStream streamId fun stream => stream.startStreaming env.toEnv with
  | (.error e, session) => (.error e, session)
  | (.ok (), session) =>
    let session := session.updateTimestamp (env.now 0)
    (.ok (), session.addEvent (.streamStarted session.id streamId (env.now 1)))

/-- The running means after one more completed stream, which lasted `duration_ms`. -/
def recordDuration (stats : SessionStats) (durationMs : Float) : SessionStats :=
  { stats with
    averageStreamDurationMs := stats.averageStreamDurationMs +
      (durationMs - stats.averageStreamDurationMs) / Float.ofNat stats.completedStreams
    recentAvgDurationMs :=
      if stats.completedStreams = 1 then durationMs
      else 0.5 * durationMs + (1.0 - 0.5) * stats.recentAvgDurationMs }

/-- Complete a stream and read its duration. -/
def completeTimed (env : Env) (stream : Stream) : DomainResult (Option ℤ) × Stream :=
  match stream.complete env with
  | (.error e, stream) => (.error e, stream)
  | (.ok (), stream) => (.ok stream.duration, stream)

/-- Complete a specific stream. -/
def completeStream (session : StreamSession) (streamId : StreamId) :
    DomainResult Unit × StreamSession :=
  match session.withStream streamId (completeTimed env.toEnv) with
  | (.error e, session) => (.error e, session)
  | (.ok duration, session) =>
    let stats := { session.stats with
      activeStreams := session.stats.activeStreams - 1
      completedStreams := session.stats.completedStreams + 1 }
    let stats := match duration with
      | some durationMs => recordDuration stats (Float.ofInt durationMs)
      | none => stats
    let session := { session with stats }.updateTimestamp (env.now 0)
    (.ok (), session.addEvent (.streamCompleted session.id streamId (env.now 1)))

/-- Fail a specific stream. -/
def failStream (session : StreamSession) (streamId : StreamId) (error : String) :
    DomainResult Unit × StreamSession :=
  match session.withStream streamId fun stream => stream.fail env.toEnv error with
  | (.error e, session) => (.error e, session)
  | (.ok (), session) =>
    let session := { session with stats := { session.stats with
      activeStreams := session.stats.activeStreams - 1
      failedStreams := session.stats.failedStreams + 1 } }
    let session := session.updateTimestamp (env.now 0)
    (.ok (), session.addEvent (.streamFailed session.id streamId error (env.now 1)))

/-- Cancel the streams named by `ids`, one after another. -/
def cancelStreams (env : Env) (streams : AssocMap StreamId Stream) :
    List StreamId → AssocMap StreamId Stream
  | [] => streams
  | streamId :: rest =>
    match streams.get? streamId with
    | none => cancelStreams env streams rest
    | some stream =>
      cancelStreams (env.later 2) (streams.insert streamId (stream.cancel env).2) rest

/-- Close session gracefully. -/
def close (session : StreamSession) : DomainResult Unit × StreamSession :=
  match session.state with
  | .active =>
    let activeStreamIds :=
      ((env.order session.streams.entries).filter fun e => e.2.isActive).map Prod.fst
    let session := { session with
      streams := cancelStreams env.toEnv session.streams activeStreamIds
      state := .completed
      completedAt := some (env.now 0) }
    let session := session.updateTimestamp (env.now 1)
    (.ok (), session.addEvent (.sessionClosed session.id (env.now 2)))
  | state => (.error (.invalidStateTransition
      s!"Cannot close session from state: {state.debug}"), session)

/-- Force close expired session. Its streams are cancelled and dropped in the same call. -/
def forceCloseExpired (session : StreamSession) : DomainResult Bool × StreamSession :=
  if !session.isExpired (env.now 0) then (.ok false, session)
  else
    let oldState := session.state
    let session := { session with state := .failed, completedAt := some (env.now 1) }
    let session := { session.updateTimestamp (env.now 2) with streams := .empty }
    (.ok true, session.addEvent (.sessionTimedOut session.id oldState
      session.config.sessionTimeoutSeconds (env.now 3)))

/-- Extend session timeout. `none` is the panic of a sum outside the range of dates. -/
def extendTimeout (session : StreamSession) (additionalSeconds : UInt64) :
    Option (DomainResult Unit × StreamSession) :=
  if session.isExpired (env.now 0) then
    some (.error (.invalidStateTransition "Cannot extend timeout for expired session"), session)
  else do
    let expiresAt ← session.expiresAt.addSeconds? additionalSeconds.toInt64.toInt
    let session := { session with expiresAt }.updateTimestamp (env.now 1)
    return (.ok (), session.addEvent
      (.sessionTimeoutExtended session.id additionalSeconds session.expiresAt (env.now 2)))

/-- Set client information. -/
def setClientInfo (session : StreamSession) (clientInfo : String)
    (userAgent ipAddress : Option String) : StreamSession :=
  { session with clientInfo := some clientInfo, userAgent, ipAddress }.updateTimestamp (env.now 0)

/-- Take all pending events. -/
def takeEvents (session : StreamSession) : List DomainEvent × StreamSession :=
  (session.pendingEvents, { session with pendingEvents := [] })

/-- Check session health. Whether the session is active is decided without reading the clock when
its state already says no. -/
def healthCheck (session : StreamSession) : SessionHealth :=
  let activeCount := session.streams.values.countP Stream.isActive
  let failedCount := session.streams.values.countP fun stream => stream.state = .failed
  let readings := if session.state = .active then 1 else 0
  { isHealthy := session.isActive (env.now 0) && failedCount == 0
    activeStreams := activeCount
    failedStreams := failedCount
    isExpired := session.isExpired (env.now readings)
    uptimeSeconds := ((env.now (readings + 1)).nanos - session.createdAt.nanos).tdiv 1000000000 }

end Lifecycle

section Frames

/-- Compute prioritized patches for one stream. -/
def extractPrioritizedPatchesForStream (session : StreamSession) (streamId : StreamId)
    (priorityThreshold : Priority) : DomainResult (List (FramePatch × Priority)) :=
  match session.streams.get? streamId with
  | none => .error (.streamNotFound streamId.toString)
  | some stream => stream.extractPrioritizedPatches priorityThreshold

/-- Session statistics and event of a batch of frames. -/
def recordFrames (session : StreamSession) (frameCount bytes : ℕ) : StreamSession :=
  let session := { session with stats := { session.stats with
    totalFrames := session.stats.totalFrames + frameCount
    totalBytes := session.stats.totalBytes + bytes } }
  let session := session.updateTimestamp (env.now 0)
  if frameCount = 0 then session
  else session.addEvent (.framesBatched session.id frameCount (env.now 1))

/-- Commit patches to a stream and read how much its byte counter grew. -/
def commitMeasured (env : Env) (patches : List (FramePatch × Priority)) (maxFrames : ℕ)
    (stream : Stream) : DomainResult (List Frame × ℕ) × Stream :=
  let bytesBefore := stream.stats.totalBytes
  match stream.commitPatchFrames env patches maxFrames with
  | (.error e, stream) => (.error e, stream)
  | (.ok frames, stream) => (.ok (frames, stream.stats.totalBytes - bytesBefore), stream)

/-- Commit already-extracted prioritized patches into frames of one stream. The session's byte
counter takes the growth of the stream's own. -/
def commitPatchFramesForStream (session : StreamSession) (streamId : StreamId)
    (patches : List (FramePatch × Priority)) (maxFrames : ℕ) :
    DomainResult (List Frame) × StreamSession :=
  match session.withStream streamId (commitMeasured env.toEnv patches maxFrames) with
  | (.error e, session) => (.error e, session)
  | (.ok (frames, bytes), session) => (.ok frames, session.recordFrames env frames.length bytes)

/-- Generate patch frames for a child stream. -/
def createStreamPatchFrames (session : StreamSession) (streamId : StreamId)
    (priorityThreshold : Priority) (maxFrames : ℕ) : DomainResult (List Frame) × StreamSession :=
  match session.extractPrioritizedPatchesForStream streamId priorityThreshold with
  | .error e => (.error e, session)
  | .ok patches => session.commitPatchFramesForStream env streamId patches maxFrames

/-- Patches of one stream, as extracted for a batch. -/
abbrev Extracted := List (StreamId × List (FramePatch × Priority))

/-- A frame under consideration for a batch. -/
structure Candidate where
  priority : Priority
  streamId : StreamId
  framePatches : List FramePatch

/-- Compute prioritized patches for every stream that is streaming. -/
def extractPrioritizedPatchesForActiveStreams (session : StreamSession)
    (priorityThreshold : Priority) : Extracted :=
  ((env.order session.streams.entries).filter fun e => e.2.state = .streaming).filterMap fun e =>
    match e.2.extractPrioritizedPatches priorityThreshold with
    | .ok patches => some (e.1, patches)
    | .error _ => none

/-- Chunk the patches of every stream that is still streaming. -/
def candidates (session : StreamSession) (extracted : Extracted) : List Candidate :=
  extracted.flatMap fun e =>
    match session.streams.get? e.1 with
    | none => []
    | some stream =>
      if stream.state ≠ .streaming then []
      else (Stream.chunkPatchesForCommit e.2 5).map fun c => ⟨c.1, e.1, c.2⟩

/-- The `batchSize` candidates of highest priority, in their original order. -/
def survivors (cs : List Candidate) (batchSize : ℕ) : List Candidate :=
  let order := (Lists.sortDesc (fun e => e.1.priority) cs.zipIdx).take batchSize
  let keep := order.map Prod.snd
  (cs.zipIdx.filter fun e => e.2 ∈ keep).map Prod.fst

/-- Finalize candidates one after another; a stream that is gone or refuses is passed over. -/
def finalizeCandidates (env : Env) (streams : AssocMap StreamId Stream) :
    List Candidate → List (Priority × Frame) × AssocMap StreamId Stream
  | [] => ([], streams)
  | c :: rest =>
    match streams.get? c.streamId with
    | none => finalizeCandidates env streams rest
    | some stream =>
      match stream.finalizePatchFrame env c.priority c.framePatches with
      | (.error _, stream) => finalizeCandidates env (streams.insert c.streamId stream) rest
      | (.ok frame, stream) =>
        let (frames, streams) :=
          finalizeCandidates (env.later 2) (streams.insert c.streamId stream) rest
        ((c.priority, frame) :: frames, streams)

/-- Turn already-extracted per-stream patches into frames, committing only the `batchSize` of
highest priority, and return these in priority order. -/
def commitPriorityFrames (session : StreamSession) (extracted : Extracted) (batchSize : ℕ) :
    DomainResult (List Frame) × StreamSession :=
  if !session.isActive (env.now 0) then (.error notActive, session)
  else
    let kept := survivors (session.candidates extracted) batchSize
    let (streamFrames, streams) := finalizeCandidates env.toEnv session.streams kept
    let allFrames := (Lists.sortDesc Prod.fst streamFrames).map Prod.snd
    let bytes := (allFrames.map fun frame => frame.estimatedSize env.showFloat).sum
    let session := { session with streams }
    (.ok allFrames, session.recordFrames
      { env with now := fun i => env.now (1 + i) } allFrames.length bytes)

/-- Create frames for all active streams based on priority. -/
def createPriorityFrames (session : StreamSession) (priorityThreshold : Priority)
    (batchSize : ℕ) : DomainResult (List Frame) × StreamSession :=
  session.commitPriorityFrames env
    (session.extractPrioritizedPatchesForActiveStreams env priorityThreshold) batchSize

end Frames

end StreamSession

end PJS
