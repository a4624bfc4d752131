import PJS.WebSocket.Controller
import PJS.Lib.Trace

/-! The server side of the WebSocket transport. Every connection runs its own loop beside the
streaming tasks, and a step is what one of them does between two await points. The steps that
change nothing (pings, binary or unreadable messages, dropped frames) are left out.

`capacity` is the backlog that the broadcast channel keeps for each receiver. -/
namespace PJS

/-- Where a connection stands in `handle_socket`. -/
inductive Activity where
  | selecting
  /-- In the handler of a `StreamInit`, the session created. -/
  | created (sessionId : String)
  /-- In the handler of a `StreamInit`, the session recorded for the connection. -/
  | recorded (sessionId : String)
  /-- The loop has ended and its receiver is gone. -/
  | closed
  /-- The teardown has these sessions left to remove. -/
  | removing (sessionIds : List String)
deriving DecidableEq

/-- The loop runs, and its receiver is subscribed. -/
def Activity.serving : Activity → Bool
  | .selecting | .created _ | .recorded _ => true
  | .closed | .removing _ => false

structure Connection where
  activity : Activity
  frameRx : Receiver (String × WsMessage)
  outgoing : List WsMessage
deriving DecidableEq

namespace Connection

def new : Connection := ⟨.selecting, .subscribe, []⟩

def enter (activity : Activity) (connection : Connection) : Connection :=
  { connection with activity := activity }

/-- The branch of the loop that handles frames from the stream controller. A failed write ends the
loop. -/
def takeFrame (written : Bool) (connection : Connection) : Connection :=
  match connection.frameRx.recv with
  | some (.value _, rest) =>
    ⟨if written then connection.activity else .closed, rest, connection.outgoing⟩
  | some (.lagged _, rest) => { connection with frameRx := rest }
  | none => connection

/-- The branch of the loop that handles outgoing messages from the application. -/
def takeOutgoing (written : Bool) (connection : Connection) : Connection :=
  ⟨if written then connection.activity else .closed, connection.frameRx, connection.outgoing.tail⟩

/-- Receive what a streaming task publishes. -/
def hear (capacity : ℕ) (item : String × WsMessage) (connection : Connection) : Connection :=
  if connection.activity.serving then
    { connection with frameRx := connection.frameRx.offer capacity item }
  else connection

/-- Queue a message of the application. The channel is closed once the loop has ended. -/
def queue (message : WsMessage) (connection : Connection) : Connection :=
  if connection.activity.serving then
    { connection with outgoing := connection.outgoing ++ [message] }
  else connection

/-- The messages a connection is still to write. -/
def pending (connection : Connection) : List WsMessage :=
  connection.frameRx.unread.map Prod.snd ++ connection.outgoing

end Connection

/-- Axum WebSocket transport implementation. -/
structure AxumWebSocketTransport where
  controller : AdaptiveStreamController
  connections : AssocMap String Connection
  connectionSessions : AssocMap String (List String)
deriving DecidableEq

inductive TransportStep where
  | connect (connection : String)
  | takeFrame (connection : String) (written : Bool)
  | takeOutgoing (connection : String) (written : Bool)
  /-- A message of the client, with the id that `Uuid::new_v4` draws if a session is created. -/
  | receive (connection : String) (message : WsMessage) (fresh : String)
  | record (connection : String)
  | start (connection : String)
  /-- The client leaves, the socket fails or a rate limit is exceeded. -/
  | leave (connection : String)
  | teardown (connection : String)
  | removeNext (connection : String)
  | wake (task : ℕ)
  | publish (task : ℕ)
  | sendFrame (connection : String) (message : WsMessage)
  /-- A session is closed by the application, or expires. -/
  | closeStream (sessionId : String)
deriving DecidableEq

namespace AxumWebSocketTransport

def new : AxumWebSocketTransport := ⟨.new, .empty, .empty⟩

/-- The sessions recorded for a connection. -/
def recorded (t : AxumWebSocketTransport) (connection : String) : List String :=
  (t.connectionSessions.get? connection).getD []

def activity (t : AxumWebSocketTransport) (connection : String) : Option Activity :=
  (t.connections.get? connection).map Connection.activity

def onConnection (t : AxumWebSocketTransport) (connection : String)
    (f : Connection → Connection) : AxumWebSocketTransport :=
  { t with connections := t.connections.modify connection f }

/-- The first part of the handler, up to where a new session exists; an error is only logged. -/
def handleMessage (t : AxumWebSocketTransport) (connection : String) (message : WsMessage)
    (fresh : String) : AxumWebSocketTransport :=
  match message with
  | .streamInit _ data options =>
    { t with controller := t.controller.createSession fresh data options }.onConnection connection
      (.enter (.created fresh))
  | .frameAck sessionId frameId processingTimeMs =>
    match t.controller.handleFrameAck sessionId frameId processingTimeMs with
    | .ok controller => { t with controller := controller }
    | .error _ => t
  | _ => t

def recordSession (t : AxumWebSocketTransport) (connection : String) : AxumWebSocketTransport :=
  match t.activity connection with
  | some (.created sessionId) =>
    let sessionIds := t.recorded connection ++ [sessionId]
    { t with connectionSessions := t.connectionSessions.insert connection sessionIds }.onConnection
      connection (.enter (.recorded sessionId))
  | _ => t

def startSession (t : AxumWebSocketTransport) (connection : String) : AxumWebSocketTransport :=
  match t.activity connection with
  | some (.recorded sessionId) =>
    let started := match t.controller.startStreaming sessionId with
      | .ok controller => { t with controller := controller }
      | .error _ => t
    started.onConnection connection (.enter .selecting)
  | _ => t

/-- Forget the connection and its sessions. -/
def tearDown (t : AxumWebSocketTransport) (connection : String) : AxumWebSocketTransport :=
  { t with connectionSessions := t.connectionSessions.erase connection }.onConnection connection
    (.enter (.removing (t.recorded connection)))

/-- Abort the streaming tasks this connection started, one session at a time. -/
def removeNext (t : AxumWebSocketTransport) (connection : String) : AxumWebSocketTransport :=
  match t.activity connection with
  | some (.removing (sessionId :: sessionIds)) =>
    { t with controller := t.controller.removeSession sessionId }.onConnection connection
      (.enter (.removing sessionIds))
  | some (.removing []) => { t with connections := t.connections.erase connection }
  | _ => t

def subscribed (t : AxumWebSocketTransport) : Bool :=
  t.connections.values.any fun connection => connection.activity.serving

def onTask (t : AxumWebSocketTransport) (task : ℕ) (f : StreamTask → StreamTask) :
    AxumWebSocketTransport :=
  { t with controller := { t.controller with tasks := t.controller.tasks.modify task f } }

/-- A streaming task sends its next message to every receiver of the broadcast channel. -/
def publish (capacity : ℕ) (wire : Wire) (t : AxumWebSocketTransport) (task : ℕ) :
    AxumWebSocketTransport :=
  match t.controller.tasks[task]? with
  | some streamTask =>
    let item := (streamTask.sessionId, streamTask.message wire)
    { t with connections := t.connections.mapVal (.hear capacity item) }.onTask task
      (.sent wire t.subscribed)
  | none => t

/-- A step can be taken. -/
def enabled (t : AxumWebSocketTransport) : TransportStep → Bool
  | .connect c => t.activity c = none
  | .takeFrame c _ => t.activity c = some .selecting ∧
    ((t.connections.get? c).bind fun connection => connection.frameRx.recv).isSome
  | .takeOutgoing c _ => t.activity c = some .selecting ∧
    (t.connections.get? c).any fun connection => !connection.outgoing.isEmpty
  | .receive c _ _ | .leave c => t.activity c = some .selecting
  | .record c => (t.activity c).any fun a => (a matches .created _)
  | .start c => (t.activity c).any fun a => (a matches .recorded _)
  | .teardown c => t.activity c = some .closed
  | .removeNext c => (t.activity c).any fun a => (a matches .removing _)
  | .wake task => t.controller.tasks[task]?.any fun s => !s.running && !s.finished && !s.aborted
  | .publish task => t.controller.tasks[task]?.any fun s => s.running
  | .sendFrame _ _ | .closeStream _ => true

/-- The transport after a step. -/
def after (capacity : ℕ) (wire : Wire) (t : AxumWebSocketTransport) :
    TransportStep → AxumWebSocketTransport
  | .connect c => { t with connections := t.connections.insert c .new }
  | .takeFrame c written => t.onConnection c (.takeFrame written)
  | .takeOutgoing c written => t.onConnection c (.takeOutgoing written)
  | .receive c message fresh => t.handleMessage c message fresh
  | .record c => t.recordSession c
  | .start c => t.startSession c
  | .leave c => t.onConnection c (.enter .closed)
  | .teardown c => t.tearDown c
  | .removeNext c => t.removeNext c
  | .wake task => t.onTask task fun s => { s with running := true }
  | .publish task => t.publish capacity wire task
  | .sendFrame c message => t.onConnection c (.queue message)
  | .closeStream sessionId => { t with controller := t.controller.removeSession sessionId }

/-- The message a step writes to a connection. -/
def written (t : AxumWebSocketTransport) : TransportStep → Option (String × WsMessage)
  | .takeFrame c true =>
    match (t.connections.get? c).bind fun connection => connection.frameRx.recv with
    | some (.value item, _) => some (c, item.2)
    | _ => none
  | .takeOutgoing c true => do
    let connection ← t.connections.get? c
    let message ← connection.outgoing.head?
    return (c, message)
  | _ => none

end AxumWebSocketTransport

end PJS
