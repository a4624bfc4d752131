import PJS.WebSocket.Transport

/-! The WebSocket client, and its exchange with a server over one connection that loses nothing.
The instants that the client keeps are left out; how long it took over a frame comes with the
step. -/
namespace PJS

/-- Frame received by client. -/
structure ReceivedFrame where
  processed : Bool
deriving DecidableEq

/-- Client-side stream session. -/
structure ClientStreamSession where
  id : String
  receivedFrames : AssocMap UInt32 ReceivedFrame
  reconstructedData : JsonValue
  isComplete : Bool
deriving DecidableEq

namespace ClientStreamSession

def new (id : String) : ClientStreamSession := ⟨id, .empty, .object [], false⟩

/-- Simple merge strategy. -/
def applyFrameToData (data payload : JsonValue) : JsonValue :=
  match data, payload with
  | .object dataMap, .object payloadMap =>
    .object (payloadMap.foldl (fun map e => JsonMap.insert map e.1 e.2) dataMap)
  | _, _ => payload

def receiveFrame (frameId : UInt32) (payload : JsonValue) (isComplete : Bool)
    (session : ClientStreamSession) : ClientStreamSession :=
  { session with
    receivedFrames := session.receivedFrames.insert frameId ⟨true⟩
    reconstructedData := applyFrameToData session.reconstructedData payload
    isComplete := session.isComplete || isComplete }

end ClientStreamSession

/-- WebSocket client for receiving PJS streams. `messageTx` is all that is under way to the server.
`requesting` are the calls of `request_stream` that have sent their request and not registered
their session, `replying` is the answer that the handler of incoming messages still has to send,
and `returned` are the ids that `request_stream` has returned, each with the data it was given. -/
structure PjsWebSocketClient where
  sessions : AssocMap String ClientStreamSession
  messageTx : List WsMessage
  requesting : List (String × JsonValue)
  replying : Option WsMessage
  returned : List (String × JsonValue)
deriving DecidableEq

namespace PjsWebSocketClient

def new : PjsWebSocketClient := ⟨.empty, [], [], none, []⟩

/-- Request stream initialization, up to where the request is sent. -/
def requestStream (client : PjsWebSocketClient) (fresh : String) (data : JsonValue)
    (options : Option StreamOptions) : PjsWebSocketClient :=
  { client with
    messageTx := client.messageTx ++ [.streamInit fresh data (options.getD .default)]
    requesting := client.requesting ++ [(fresh, data)] }

/-- The rest of `request_stream`: initialize session tracking and return. -/
def register (client : PjsWebSocketClient) (id : String) (data : JsonValue) :
    PjsWebSocketClient :=
  { client with
    sessions := client.sessions.insert id (.new id)
    requesting := client.requesting.erase (id, data)
    returned := client.returned ++ [(id, data)] }

/-- Get current reconstructed data for session. -/
def getCurrentData (client : PjsWebSocketClient) (sessionId : String) : Option JsonValue :=
  (client.sessions.get? sessionId).map ClientStreamSession.reconstructedData

/-- Check if stream is complete. -/
def isStreamComplete (client : PjsWebSocketClient) (sessionId : String) : Bool :=
  ((client.sessions.get? sessionId).map ClientStreamSession.isComplete).getD false

/-- Handle a message, up to where an answer is to be sent. -/
def handleIncomingMessage (client : PjsWebSocketClient) (message : WsMessage)
    (processingTimeMs : UInt64) : PjsWebSocketClient :=
  match message with
  | .streamFrame sessionId frameId _ payload isComplete =>
    { client with
      sessions := client.sessions.modify sessionId (.receiveFrame frameId payload isComplete)
      replying := some (.frameAck sessionId frameId processingTimeMs) }
  | .streamComplete sessionId _ =>
    let complete (session : ClientStreamSession) := { session with isComplete := true }
    { client with sessions := client.sessions.modify sessionId complete }
  | .ping timestamp => { client with replying := some (.pong timestamp) }
  | _ => client

def reply (client : PjsWebSocketClient) : PjsWebSocketClient :=
  { client with messageTx := client.messageTx ++ client.replying.toList, replying := none }

end PjsWebSocketClient

/-- A client, a server it is connected to, and the messages under way to the client. -/
structure Exchange where
  client : PjsWebSocketClient
  server : AxumWebSocketTransport
  downstream : List WsMessage
deriving DecidableEq

inductive ExchangeStep where
  /-- A call of `request_stream`, with the id that `Uuid::new_v4` draws. -/
  | request (fresh : String) (data : JsonValue) (options : Option StreamOptions)
  | register (id : String) (data : JsonValue)
  | deliver (processingTimeMs : UInt64)
  | reply
  | server (e : TransportStep)

namespace Exchange

/-- The client has just connected. -/
def opened (capacity : ℕ) (wire : Wire) (connection : String) : Exchange :=
  ⟨.new, AxumWebSocketTransport.new.after capacity wire (.connect connection), []⟩

/-- The server takes what the client sent, in order, and does not lose the connection. -/
def serves (x : Exchange) (connection : String) : TransportStep → Prop
  | .receive c message _ => c = connection ∧ x.client.messageTx.head? = some message
  | .takeFrame c written => c = connection ∧ written = true
  | .record c | .start c => c = connection
  | .wake _ | .publish _ => True
  | _ => False

instance (x : Exchange) (connection : String) :
    (e : TransportStep) → Decidable (x.serves connection e)
  | .receive c message _ =>
    inferInstanceAs (Decidable (c = connection ∧ x.client.messageTx.head? = some message))
  | .takeFrame c written => inferInstanceAs (Decidable (c = connection ∧ written = true))
  | .record c | .start c => inferInstanceAs (Decidable (c = connection))
  | .wake _ | .publish _ => isTrue trivial
  | .connect _ | .takeOutgoing _ _ | .leave _ | .teardown _ | .removeNext _ | .sendFrame _ _
  | .closeStream _ => isFalse not_false

/-- A step can be taken. -/
def Enabled (connection : String) (x : Exchange) : ExchangeStep → Prop
  | .request _ _ _ => True
  | .register id data => (id, data) ∈ x.client.requesting
  | .deliver _ => x.downstream ≠ [] ∧ x.client.replying = none
  | .reply => x.client.replying ≠ none
  | .server e => x.serves connection e ∧ x.server.enabled e = true

instance (connection : String) (x : Exchange) :
    (e : ExchangeStep) → Decidable (x.Enabled connection e)
  | .request _ _ _ => isTrue trivial
  | .register id data => inferInstanceAs (Decidable ((id, data) ∈ x.client.requesting))
  | .deliver _ => inferInstanceAs (Decidable (x.downstream ≠ [] ∧ x.client.replying = none))
  | .reply => inferInstanceAs (Decidable (x.client.replying ≠ none))
  | .server e => inferInstanceAs (Decidable (x.serves connection e ∧ x.server.enabled e = true))

/-- The exchange after a step. -/
def after (capacity : ℕ) (wire : Wire) (x : Exchange) : ExchangeStep → Exchange
  | .request fresh data options =>
    { x with client := x.client.requestStream fresh data options }
  | .register id data => { x with client := x.client.register id data }
  | .deliver processingTimeMs =>
    match x.downstream with
    | message :: rest =>
      { x with
        client := x.client.handleIncomingMessage message processingTimeMs
        downstream := rest }
    | [] => x
  | .reply => { x with client := x.client.reply }
  | .server e =>
    let messageTx := if e matches .receive _ _ _ then x.client.messageTx.tail
      else x.client.messageTx
    { client := { x.client with messageTx := messageTx }
      server := x.server.after capacity wire e
      downstream := x.downstream ++ (x.server.written e).toList.map Prod.snd }

/-- No message is under way, no handler is running and every streaming task has finished. -/
structure Quiescent (connection : String) (x : Exchange) : Prop where
  upstream : x.client.messageTx = []
  downstream : x.downstream = []
  requesting : x.client.requesting = []
  replying : x.client.replying = none
  selecting : x.server.activity connection = some .selecting
  pending : (x.server.connections.get? connection).map Connection.pending = some []
  finished : ∀ task ∈ x.server.controller.tasks, task.finished = true

/-- Runs of a client and a server. -/
abbrev Run (capacity : ℕ) (wire : Wire) (connection : String) :=
  Trace (Enabled connection) (after capacity wire) (opened capacity wire connection)

end Exchange

end PJS
