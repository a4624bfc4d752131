import PJS.Session.Effects

/-! Calls on a session and runs of them. -/
namespace PJS

/-- The operations of the aggregate that change it. -/
inductive Op where
  | activate
  | createStream (sourceData : DataDocument)
  | createStreamWithConfig (sourceData : DataDocument) (config : Option StreamConfig)
  | updateStreamConfig (streamId : StreamId) (config : StreamConfig)
  | startStream (streamId : StreamId)
  | completeStream (streamId : StreamId)
  | failStream (streamId : StreamId) (error : String)
  | createStreamPatchFrames (streamId : StreamId) (priorityThreshold : Priority) (maxFrames : ℕ)
  | commitPatchFramesForStream (streamId : StreamId) (patches : List (FramePatch × Priority))
      (maxFrames : ℕ)
  | createPriorityFrames (priorityThreshold : Priority) (batchSize : ℕ)
  | commitPriorityFrames (extracted : StreamSession.Extracted) (batchSize : ℕ)
  | close
  | forceCloseExpired
  | extendTimeout (additionalSeconds : UInt64)
  | setClientInfo (clientInfo : String) (userAgent ipAddress : Option String)
  | takeEvents

/-- What an operation returns. -/
inductive Value where
  | unit
  | streamId (id : StreamId)
  | flag (b : Bool)
  | frames (frames : List Frame)
  | events (events : List DomainEvent)

inductive Reply where
  | ok (value : Value)
  | err (error : DomainError)
  | panic

def Reply.ofResult {α : Type} (f : α → Value) : DomainResult α → Reply
  | .ok a => .ok (f a)
  | .error e => .err e

/-- The frames a reply carries. -/
def Reply.frames : Reply → List Frame
  | .ok (.frames frames) => frames
  | _ => []

/-- An operation with what it reads from outside. -/
structure Call where
  env : SessionEnv
  op : Op

namespace Call

def finish {α : Type} (f : α → Value) (r : DomainResult α × StreamSession) :
    Reply × StreamSession :=
  (Reply.ofResult f r.1, r.2)

/-- The reply of a call and the session after it. A panic comes before any change. -/
def run (call : Call) (session : StreamSession) : Reply × StreamSession :=
  let env := call.env
  match call.op with
  | .activate => finish (fun _ => .unit) (session.activate env)
  | .createStream data => finish .streamId (session.createStream env data)
  | .createStreamWithConfig data config =>
    finish .streamId (session.createStreamWithConfig env data config)
  | .updateStreamConfig id config =>
    finish (fun _ => .unit) (session.updateStreamConfig env id config)
  | .startStream id => finish (fun _ => .unit) (session.startStream env id)
  | .completeStream id => finish (fun _ => .unit) (session.completeStream env id)
  | .failStream id error => finish (fun _ => .unit) (session.failStream env id error)
  | .createStreamPatchFrames id threshold maxFrames =>
    finish .frames (session.createStreamPatchFrames env id threshold maxFrames)
  | .commitPatchFramesForStream id patches maxFrames =>
    finish .frames (session.commitPatchFramesForStream env id patches maxFrames)
  | .createPriorityFrames threshold batchSize =>
    finish .frames (session.createPriorityFrames env threshold batchSize)
  | .commitPriorityFrames extracted batchSize =>
    finish .frames (session.commitPriorityFrames env extracted batchSize)
  | .close => finish (fun _ => .unit) (session.close env)
  | .forceCloseExpired => finish .flag (session.forceCloseExpired env)
  | .extendTimeout seconds =>
    match session.extendTimeout env seconds with
    | none => (.panic, session)
    | some r => finish (fun _ => .unit) r
  | .setClientInfo info agent address =>
    (.ok .unit, session.setClientInfo env info agent address)
  | .takeEvents => let (events, session) := session.takeEvents; (.ok (.events events), session)

/-- The frames a batch commits, in the order in which it finalizes them. -/
def batchCommits (env : SessionEnv) (session : StreamSession)
    (extracted : StreamSession.Extracted) (batchSize : ℕ) : List Frame :=
  if session.isActive (env.now 0) then
    (StreamSession.finalizeCandidates env.toEnv session.streams
      (StreamSession.survivors (session.candidates extracted) batchSize)).1.map Prod.snd
  else []

/-- The frames a call commits, in the order in which it commits them. A call on one stream
returns its frames in that order, a batch returns them sorted by priority. -/
def committed (call : Call) (session : StreamSession) : List Frame :=
  match call.op with
  | .createPriorityFrames threshold batchSize => batchCommits call.env session
      (session.extractPrioritizedPatchesForActiveStreams call.env threshold) batchSize
  | .commitPriorityFrames extracted batchSize => batchCommits call.env session extracted batchSize
  | _ => (call.run session).1.frames

/-- The identifier a call draws for a new stream. -/
def drawn (call : Call) : Option StreamId :=
  match call.op with
  | .createStream _ | .createStreamWithConfig _ _ => some call.env.uuid
  | _ => none

/-- The session after a run. -/
def after (session : StreamSession) (calls : List Call) : StreamSession :=
  calls.foldl (fun s call => (call.run s).2) session

/-- What each call of a run returned and what it committed. -/
def journal : StreamSession → List Call → List (List Frame × List Frame)
  | _, [] => []
  | session, call :: calls =>
    ((call.run session).1.frames, call.committed session) ::
      journal (call.run session).2 calls

end Call

end PJS
