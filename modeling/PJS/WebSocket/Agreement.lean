import PJS.WebSocket.Client
import PJS.WebSocket.Effects

/-! What a client learns of the streams it requests. The server creates every session under an id
of its own and drops the one in the request, so no message that reaches the client names a session
the client knows. -/
namespace PJS

namespace AxumWebSocketTransport

variable {capacity : ℕ} {wire : Wire} {t : AxumWebSocketTransport} {ids : List String}

/-- Every session that the transport has come to know is one of `ids`. -/
structure Minted (ids : List String) (t : AxumWebSocketTransport) : Prop where
  created : ∀ c id, t.activity c = some (.created id) → id ∈ ids
  recorded : ∀ c id, t.activity c = some (.recorded id) → id ∈ ids
  streaming : ∀ id ∈ t.controller.streaming, id ∈ ids
  pending : ∀ c connection, t.connections.get? c = some connection →
    ∀ message ∈ connection.pending, ∀ id, message.streamed = some id → id ∈ ids

theorem minted_new (ids : List String) : new.Minted ids := by
  constructor
  · intro c id h
    cases h
  · intro c id h
    cases h
  · intro id h
    cases h
  · intro c connection h
    simp [new, AssocMap.get?, AssocMap.empty] at h

theorem Minted.after (h : t.Minted ids) {e : TransportStep} (hen : t.enabled e = true)
    (hfresh : ∀ c sessionId data options id,
      e = .receive c (.streamInit sessionId data options) id → id ∈ ids)
    (hsend : ∀ c message id, e = .sendFrame c message → message.streamed = some id → id ∈ ids) :
    (t.after capacity wire e).Minted ids := by
  constructor
  · intro c id hc
    obtain ⟨y, hy, hyid⟩ := activity_eq_some.mp hc
    rcases moves_after hen hy with ⟨-, rfl⟩ | ⟨x, hx, hmoves⟩
    · cases hyid
    · rcases hmoves.created hyid with hxid | ⟨sessionId, data, options, he⟩
      · exact h.created c id (activity_eq_some.mpr ⟨x, hx, hxid⟩)
      · exact hfresh c sessionId data options id he
  · intro c id hc
    obtain ⟨y, hy, hyid⟩ := activity_eq_some.mp hc
    rcases moves_after hen hy with ⟨-, rfl⟩ | ⟨x, hx, hmoves⟩
    · cases hyid
    · rcases hmoves.recorded hyid with hxid | hxid
      · exact h.recorded c id (activity_eq_some.mpr ⟨x, hx, hxid⟩)
      · exact h.created c id (activity_eq_some.mpr ⟨x, hx, hxid⟩)
  · intro id hid
    rcases streaming_after hid with hold | ⟨c, hc⟩
    · exact h.streaming id hold
    · exact h.recorded c id hc
  · intro c y hy message hm id hid
    rcases moves_after hen hy with ⟨-, rfl⟩ | ⟨x, hx, hmoves⟩
    · cases hm
    · rcases hmoves.pending hm with hold | ⟨task, s, -, hs, rfl⟩ | he
      · exact h.pending c x hx message hold id hid
      · rw [StreamTask.streamed_message, Option.some.injEq] at hid
        subst hid
        exact h.streaming s.sessionId (List.mem_map_of_mem (List.mem_of_getElem? hs))
      · exact hsend c message id he hid

end AxumWebSocketTransport

namespace PjsWebSocketClient

variable {message : WsMessage} {id : String}

/-- A message leaves the sessions it is not about alone. -/
theorem get?_handleIncomingMessage (client : PjsWebSocketClient) (processingTimeMs : UInt64)
    (h : message.streamed ≠ some id) :
    (client.handleIncomingMessage message processingTimeMs).sessions.get? id =
      client.sessions.get? id := by
  cases message with
  | streamFrame sessionId frameId priority payload isComplete =>
    have hne : id ≠ sessionId := fun hid => h (congrArg some hid.symm)
    exact (AssocMap.get?_modify _ _ _ _).trans (if_neg hne)
  | streamComplete sessionId checksum =>
    have hne : id ≠ sessionId := fun hid => h (congrArg some hid.symm)
    exact (AssocMap.get?_modify _ _ _ _).trans (if_neg hne)
  | _ => rfl

/-- A message adds no session. -/
theorem exists_get?_of_handleIncomingMessage {client : PjsWebSocketClient}
    {processingTimeMs : UInt64} {session : ClientStreamSession}
    (h : (client.handleIncomingMessage message processingTimeMs).sessions.get? id = some session) :
    ∃ before, client.sessions.get? id = some before := by
  have hmodify : ∀ sessionId f, (client.sessions.modify sessionId f).get? id = some session →
      ∃ before, client.sessions.get? id = some before := by
    intro sessionId f hf
    rw [AssocMap.get?_modify] at hf
    split_ifs at hf
    · obtain ⟨before, hbefore, -⟩ := Option.map_eq_some_iff.mp hf
      exact ⟨before, hbefore⟩
    · exact ⟨session, hf⟩
  cases message with
  | streamFrame sessionId frameId priority payload isComplete => exact hmodify sessionId _ h
  | streamComplete sessionId checksum => exact hmodify sessionId _ h
  | _ => exact ⟨session, h⟩

theorem requesting_handleIncomingMessage (client : PjsWebSocketClient) (message : WsMessage)
    (processingTimeMs : UInt64) :
    (client.handleIncomingMessage message processingTimeMs).requesting = client.requesting := by
  cases message <;> rfl

theorem returned_handleIncomingMessage (client : PjsWebSocketClient) (message : WsMessage)
    (processingTimeMs : UInt64) :
    (client.handleIncomingMessage message processingTimeMs).returned = client.returned := by
  cases message <;> rfl

end PjsWebSocketClient

namespace Exchange

variable {capacity : ℕ} {wire : Wire} {connection : String} {x : Exchange}
  {steps : List ExchangeStep}

/-- The ids that the client draws. -/
def requested (steps : List ExchangeStep) : List String :=
  steps.filterMap fun
    | .request fresh _ _ => some fresh
    | _ => none

/-- The ids that the server draws. -/
def created (steps : List ExchangeStep) : List String :=
  steps.filterMap fun
    | .server (.receive _ (.streamInit _ _ _) fresh) => some fresh
    | _ => none

/-- The client knows the sessions in `ours` and nothing of them, and hears of those in `theirs`. -/
structure Apart (ours theirs : List String) (x : Exchange) : Prop where
  sessions : ∀ id session, x.client.sessions.get? id = some session →
    id ∈ ours ∧ session.reconstructedData = .object [] ∧ session.isComplete = false
  requesting : ∀ call ∈ x.client.requesting, call.1 ∈ ours
  returned : ∀ call ∈ x.client.returned, ∃ session, x.client.sessions.get? call.1 = some session
  server : x.server.Minted theirs
  downstream : ∀ message ∈ x.downstream, ∀ id, message.streamed = some id → id ∈ theirs

theorem apart_opened (ours theirs : List String) :
    (opened capacity wire connection).Apart ours theirs := by
  have hserver : (AxumWebSocketTransport.new.after capacity wire (.connect connection)).Minted
      theirs :=
    (AxumWebSocketTransport.minted_new theirs).after rfl (fun _ _ _ _ _ he => by cases he)
      fun _ _ _ he => by cases he
  constructor
  · intro id session h
    cases h
  · intro call h
    cases h
  · intro call h
    cases h
  · exact hserver
  · intro message h
    cases h

theorem Apart.register {ours theirs : List String} (h : x.Apart ours theirs) {id : String}
    {data : JsonValue} (hid : id ∈ ours) :
    Apart ours theirs { x with client := x.client.register id data } := by
  refine ⟨fun j session hj => ?_, fun call hc => ?_, fun call hc => ?_, h.server, h.downstream⟩
  · rw [PjsWebSocketClient.register, AssocMap.get?_insert] at hj
    split_ifs at hj with hjid
    · cases hj
      exact ⟨hjid ▸ hid, rfl, rfl⟩
    · exact h.sessions j session hj
  · exact h.requesting call (List.mem_of_mem_erase hc)
  · simp only [PjsWebSocketClient.register, AssocMap.get?_insert]
    split_ifs with hcid
    · exact ⟨_, rfl⟩
    · rcases List.mem_append.mp hc with hold | hnew
      · exact h.returned call hold
      · exact absurd (congrArg Prod.fst (List.mem_singleton.mp hnew)) hcid

/-- No session of the client is the one a message is about. -/
theorem Apart.deliver {ours theirs : List String} (h : x.Apart ours theirs)
    (hdisjoint : ours.Disjoint theirs) {message : WsMessage} {rest : List WsMessage}
    (hx : x.downstream = message :: rest) (processingTimeMs : UInt64) :
    Apart ours theirs { x with
      client := x.client.handleIncomingMessage message processingTimeMs
      downstream := rest } := by
  have hmine : ∀ id session, x.client.sessions.get? id = some session →
      message.streamed ≠ some id := by
    intro id session hs hm
    have htheirs := h.downstream message (by rw [hx]; exact List.mem_cons_self) id hm
    exact hdisjoint (h.sessions id session hs).1 htheirs
  have hsame : ∀ id session, x.client.sessions.get? id = some session →
      (x.client.handleIncomingMessage message processingTimeMs).sessions.get? id =
        some session := by
    intro id session hs
    rw [x.client.get?_handleIncomingMessage processingTimeMs (hmine id session hs), hs]
  refine ⟨fun id session hs => ?_, fun call hc => ?_, fun call hc => ?_, h.server, ?_⟩
  · obtain ⟨before, hbefore⟩ := PjsWebSocketClient.exists_get?_of_handleIncomingMessage hs
    rw [hsame id before hbefore, Option.some.injEq] at hs
    exact hs ▸ h.sessions id before hbefore
  · rw [PjsWebSocketClient.requesting_handleIncomingMessage] at hc
    exact h.requesting call hc
  · rw [PjsWebSocketClient.returned_handleIncomingMessage] at hc
    obtain ⟨session, hs⟩ := h.returned call hc
    exact ⟨session, hsame call.1 session hs⟩
  · intro later hlater
    exact h.downstream later (by rw [hx]; exact List.mem_cons_of_mem message hlater)

theorem Apart.after {ours theirs : List String} (h : x.Apart ours theirs)
    (hdisjoint : ours.Disjoint theirs) {e : ExchangeStep} (hen : x.Enabled connection e)
    (hours : ∀ id ∈ requested [e], id ∈ ours) (htheirs : ∀ id ∈ created [e], id ∈ theirs) :
    (x.after capacity wire e).Apart ours theirs := by
  cases e with
  | request fresh data options =>
    refine ⟨h.sessions, fun call hc => ?_, h.returned, h.server, h.downstream⟩
    rcases List.mem_append.mp hc with hold | hnew
    · exact h.requesting call hold
    · rw [List.mem_singleton.mp hnew]
      exact hours fresh List.mem_cons_self
  | register id data => exact h.register (h.requesting (id, data) hen)
  | deliver processingTimeMs =>
    simp only [Exchange.after]
    split
    · rename_i message rest hx
      exact h.deliver hdisjoint hx processingTimeMs
    · exact h
  | reply => exact ⟨h.sessions, h.requesting, h.returned, h.server, h.downstream⟩
  | server e =>
    obtain ⟨hserves, hserver⟩ := hen
    refine ⟨h.sessions, h.requesting, h.returned, ?_, fun message hm id hid => ?_⟩
    · refine h.server.after hserver ?_ ?_
      · rintro c sessionId data options id rfl
        exact htheirs id List.mem_cons_self
      · rintro c message id rfl
        exact hserves.elim
    · rcases List.mem_append.mp hm with hold | hnew
      · exact h.downstream message hold id hid
      · obtain ⟨⟨c, written⟩, hw, rfl⟩ := List.mem_map.mp hnew
        obtain ⟨y, hy, -, hpending⟩ :=
          AxumWebSocketTransport.mem_pending_of_written hserver (Option.mem_toList.mp hw)
        exact h.server.pending c y hy _ hpending id hid

theorem apart_of_run (h : Run capacity wire connection steps x)
    (hids : (requested steps).Disjoint (created steps)) :
    x.Apart (requested steps) (created steps) := by
  refine Trace.invariant (fun y e he hen hy => hy.after hids hen ?_ ?_) h (apart_opened _ _)
  · intro id hid
    exact List.mem_filterMap.mpr ⟨e, he, by simpa [requested] using hid⟩
  · intro id hid
    exact List.mem_filterMap.mpr ⟨e, he, by simpa [created] using hid⟩

/-- Whatever the two do, a requested stream never completes and its data stays empty. -/
theorem request_unanswered (h : Run capacity wire connection steps x)
    (hids : (requested steps).Disjoint (created steps)) {id : String} {data : JsonValue}
    (hr : (id, data) ∈ x.client.returned) :
    x.client.isStreamComplete id = false ∧ x.client.getCurrentData id = some (.object []) := by
  have hapart := apart_of_run h hids
  obtain ⟨session, hs⟩ := hapart.returned (id, data) hr
  obtain ⟨-, hdata, hcomplete⟩ := hapart.sessions id session hs
  constructor
  · rw [PjsWebSocketClient.isStreamComplete, hs, Option.map_some, Option.getD_some, hcomplete]
  · rw [PjsWebSocketClient.getCurrentData, hs, Option.map_some, hdata]

section Examples

/-- One request, from the call to the last message. -/
def conversation (c id sessionId : String) (data : JsonValue) : List ExchangeStep :=
  [.request id data none, .register id data,
    .server (.receive c (.streamInit id data .default) sessionId), .server (.record c),
    .server (.start c), .server (.wake 0), .server (.publish 0), .server (.takeFrame c true),
    .deliver 0, .reply, .server (.receive c (.frameAck sessionId 0 0) sessionId),
    .server (.wake 0), .server (.publish 0), .server (.takeFrame c true), .deliver 0]

theorem request_unanswered_sample :
    let c := "6f9b2f0a-3c1d-4e57-9a44-0d3b5c1e7f21"
    let id := "0a5c8e3d-94b1-4f6e-a7d2-1c3b5f7e9d08"
    let sessionId := "b1e7c4d2-8a90-4f3b-8c65-2e4f9d7a1036"
    let steps := conversation c id sessionId sampleData
    let x := steps.foldl (after 1024 .sample) (opened 1024 .sample c)
    x.client.returned = [(id, sampleData)] ∧
      x.client.isStreamComplete id = false ∧ x.client.getCurrentData id = some (.object []) := by
  intro c id sessionId steps x
  have hr : x.client.returned = [(id, sampleData)] := by decide +kernel
  have hrun : Run 1024 .sample c steps x := Trace.of_guarded (by decide +kernel)
  have hapart : ∀ a ∈ requested steps, a ∉ created steps := by decide +kernel
  have hids : (requested steps).Disjoint (created steps) := fun a ha => hapart a ha
  have hmem : (id, sampleData) ∈ x.client.returned := by
    rw [hr]
    exact List.mem_singleton_self _
  exact ⟨hr, request_unanswered hrun hids hmem⟩

/-- All is quiet, and the server has streamed the data in full, but the client has none of it. -/
theorem request_lost : ∃ c steps x id data, Run 1024 .sample c steps x ∧ x.Quiescent c ∧
    (id, data) ∈ x.client.returned ∧ x.client.isStreamComplete id = false ∧
    x.client.getCurrentData id ≠ some data := by
  let c := "6f9b2f0a-3c1d-4e57-9a44-0d3b5c1e7f21"
  let id := "0a5c8e3d-94b1-4f6e-a7d2-1c3b5f7e9d08"
  let sessionId := "b1e7c4d2-8a90-4f3b-8c65-2e4f9d7a1036"
  refine ⟨c, conversation c id sessionId sampleData, _, id, sampleData,
    Trace.of_guarded (by decide +kernel), ⟨?_, ?_, ?_, ?_, ?_, ?_, ?_⟩, ?_, ?_, ?_⟩ <;>
    decide +kernel

end Examples

end Exchange

end PJS
