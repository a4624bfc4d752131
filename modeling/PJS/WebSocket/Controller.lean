import PJS.Lib.Broadcast
import PJS.Stream.Priority

/-! The adaptive stream controller: WebSocket sessions and the tasks that stream their frames.

Time is left out: how long a task sleeps between two frames, which is all that the client metrics
decide, and the age at which a session expires. Machine integers wrap as in a release build. -/
namespace PJS

/-- Stream configuration options. -/
structure StreamOptions where
  maxFrameSize : ℕ
  clientFps : Option UInt32
  compression : Bool
  priorityMapping : Option (AssocMap String UInt8)
deriving DecidableEq

def StreamOptions.default : StreamOptions := ⟨64 * 1024, none, true, none⟩

/-- WebSocket message types for PJS streaming. -/
inductive WsMessage where
  | streamInit (sessionId : String) (data : JsonValue) (options : StreamOptions)
  | streamFrame (sessionId : String) (frameId : UInt32) (priority : UInt8) (payload : JsonValue)
    (isComplete : Bool)
  | frameAck (sessionId : String) (frameId : UInt32) (processingTimeMs : UInt64)
  | streamComplete (sessionId : String) (checksum : String)
  | error (sessionId : Option String) (error : String) (code : UInt16)
  | ping (timestamp : UInt64)
  | pong (timestamp : UInt64)
deriving DecidableEq

/-- The session a frame or a completion belongs to. -/
def WsMessage.streamed : WsMessage → Option String
  | .streamFrame sessionId _ _ _ _ => some sessionId
  | .streamComplete sessionId _ => some sessionId
  | _ => none

/-- What the controller takes from its libraries: the JSON bytes of a value and the SHA-256 digest
of a byte string. -/
structure Wire where
  toVec : JsonValue → List UInt8
  sha256 : List UInt8 → List UInt8

section Sample

def sampleData : JsonValue := .object [("test", JsonValue.string "data")]

/-- The bytes of the sample, and the digest of a stream that consists of it. -/
def Wire.sample : Wire :=
  ⟨fun _ => [123, 34, 116, 101, 115, 116, 34, 58, 34, 100, 97, 116, 97, 34, 125], fun _ =>
    [240, 226, 92, 212, 17, 153, 26, 108, 133, 218, 59, 4, 169, 188, 36, 222,
      55, 19, 202, 28, 20, 233, 16, 222, 4, 190, 23, 123, 126, 222, 115, 40]⟩

end Sample

section Checksum

/-- `to_le_bytes` of a `u64`. -/
def toLeBytes (n : UInt64) : List UInt8 :=
  (List.range 8).map fun i => UInt8.ofNat (n.toNat / 256 ^ i)

/-- `format!("{byte:02x}")`. -/
def hexByte (byte : UInt8) : String :=
  String.ofList [Nat.digitChar (byte.toNat / 16), Nat.digitChar (byte.toNat % 16)]

/-- SHA-256 checksum for stream completion verification. -/
def calculateStreamChecksum (wire : Wire) (framesData : List (List UInt8)) : String :=
  let hashed := framesData.flatten ++ toLeBytes (UInt64.ofNat framesData.length)
  "sha256:" ++ String.join ((wire.sha256 hashed).map hexByte)

end Checksum

/-- A run of `stream_frames`. It is at an await point unless it is `running`; an abort only stops
it at an await point. -/
structure StreamTask where
  sessionId : String
  plan : List StreamFrame
  frameId : ℕ
  framesData : List (List UInt8)
  running : Bool
  finished : Bool
  aborted : Bool
deriving DecidableEq

namespace StreamTask

def spawn (sessionId : String) (plan : List StreamFrame) : StreamTask :=
  ⟨sessionId, plan, 0, [], false, false, false⟩

/-- The message the task sends next: a frame of the plan, and the completion after the last. -/
def message (wire : Wire) (task : StreamTask) : WsMessage :=
  match task.plan[task.frameId]? with
  | some frame =>
    .streamFrame task.sessionId (UInt32.ofNat task.frameId) (UInt8.ofNat frame.priority.value)
      frame.data (task.frameId == task.plan.length - 1)
  | none => .streamComplete task.sessionId (calculateStreamChecksum wire task.framesData)

/-- The task after a send. A frame that finds no receiver ends the loop, and the completion follows
without an await point in between. -/
def sent (wire : Wire) (received : Bool) (task : StreamTask) : StreamTask :=
  match task.plan[task.frameId]? with
  | some frame =>
    let framesData := task.framesData ++ [wire.toVec frame.data]
    if received then
      { task with frameId := task.frameId + 1, framesData := framesData, running := false }
    else { task with frameId := task.plan.length, framesData := framesData }
  | none => { task with running := false, finished := true }

@[simp] theorem streamed_message (wire : Wire) (task : StreamTask) :
    (task.message wire).streamed = some task.sessionId := by
  unfold message
  cases task.plan[task.frameId]? <;> rfl

@[simp] theorem sessionId_sent (wire : Wire) (received : Bool) (task : StreamTask) :
    (task.sent wire received).sessionId = task.sessionId := by
  unfold sent
  cases task.plan[task.frameId]? <;> cases received <;> rfl

end StreamTask

/-- Client performance metrics for adaptive streaming. -/
structure ClientMetrics where
  averageProcessingTimeMs : Float
  framesAcknowledged : UInt32
deriving DecidableEq

def ClientMetrics.default : ClientMetrics := ⟨0.0, 0⟩

/-- Fold a new processing-time observation into the moving average. -/
def ClientMetrics.updateProcessingTime (metrics : ClientMetrics) (processingTimeMs : UInt64) :
    ClientMetrics :=
  let newTime := processingTimeMs.toFloat
  let alpha := 0.3
  { averageProcessingTimeMs :=
      if metrics.framesAcknowledged = 0 then newTime
      else alpha * newTime + (1.0 - alpha) * metrics.averageProcessingTimeMs
    framesAcknowledged := metrics.framesAcknowledged + 1 }

/-- WebSocket streaming session state. -/
structure WebSocketStreamSession where
  id : String
  options : StreamOptions
  plan : List StreamFrame
  acknowledgedFrames : List UInt32
  clientMetrics : ClientMetrics
  /-- The handle of the task that streams the session. -/
  streamTask : Option ℕ
deriving DecidableEq

/-- Adaptive streaming controller, with the tasks it has spawned listed by handle. -/
structure AdaptiveStreamController where
  sessions : AssocMap String WebSocketStreamSession
  tasks : List StreamTask
deriving DecidableEq

namespace AdaptiveStreamController

def new : AdaptiveStreamController := ⟨.empty, []⟩

/-- Create new streaming session under a fresh id. -/
def createSession (controller : AdaptiveStreamController) (sessionId : String) (data : JsonValue)
    (options : StreamOptions) : AdaptiveStreamController :=
  let plan : List StreamFrame := [⟨data, .high, .empty⟩]
  let session := ⟨sessionId, options, plan, [], .default, none⟩
  { controller with sessions := controller.sessions.insert sessionId session }

def abort (controller : AdaptiveStreamController) (handle : ℕ) : AdaptiveStreamController :=
  let aborted (task : StreamTask) := { task with aborted := true }
  { controller with tasks := controller.tasks.modify handle aborted }

/-- Start streaming frames for session. -/
def startStreaming (controller : AdaptiveStreamController) (sessionId : String) :
    Except Error AdaptiveStreamController :=
  match controller.sessions.get? sessionId with
  | none => .error (.invalidSession sessionId)
  | some session =>
    let handle := controller.tasks.length
    let started : AdaptiveStreamController :=
      ⟨controller.sessions.insert sessionId { session with streamTask := some handle },
        controller.tasks ++ [.spawn sessionId session.plan]⟩
    .ok (match session.streamTask with
      | some previous => started.abort previous
      | none => started)

/-- Handle frame acknowledgment. -/
def handleFrameAck (controller : AdaptiveStreamController) (sessionId : String)
    (frameId : UInt32) (processingTimeMs : UInt64) : Except Error AdaptiveStreamController :=
  match controller.sessions.get? sessionId with
  | none => .error (.invalidSession sessionId)
  | some session =>
    let acknowledged := { session with
      acknowledgedFrames := session.acknowledgedFrames ++ [frameId]
      clientMetrics := session.clientMetrics.updateProcessingTime processingTimeMs }
    .ok { controller with sessions := controller.sessions.insert sessionId acknowledged }

/-- Remove a single session by id, and abort its task. -/
def removeSession (controller : AdaptiveStreamController) (sessionId : String) :
    AdaptiveStreamController :=
  match controller.sessions.get? sessionId with
  | none => controller
  | some session =>
    let removed := { controller with sessions := controller.sessions.erase sessionId }
    match session.streamTask with
    | some handle => removed.abort handle
    | none => removed

end AdaptiveStreamController

end PJS
