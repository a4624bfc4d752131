import PJS.WebSocket.Transport

/-! What one step of the transport does: to a connection, to the record of its sessions and to the
streaming tasks. Every invariant of the transport is derived from these three results. -/
namespace PJS

namespace Connection

variable {connection : Connection} {message : WsMessage} {written : Bool}

theorem mem_pending : message ∈ connection.pending ↔
    (∃ item ∈ connection.frameRx.unread, item.2 = message) ∨ message ∈ connection.outgoing := by
  rw [pending, List.mem_append, List.mem_map]

theorem mem_pending_takeFrame (h : message ∈ (connection.takeFrame written).pending) :
    message ∈ connection.pending := by
  rw [mem_pending] at h ⊢
  unfold takeFrame at h
  cases hrecv : connection.frameRx.recv with
  | none => simpa [hrecv] using h
  | some read =>
    obtain ⟨got, rest⟩ := read
    rcases Receiver.recv_cases hrecv with ⟨v, rfl, hu⟩ | ⟨rfl, hu⟩
    · rw [hu]
      refine h.imp ?_ fun hout => by simpa [hrecv] using hout
      rintro ⟨item, hitem, rfl⟩
      exact ⟨item, List.mem_cons_of_mem v (by simpa [hrecv] using hitem), rfl⟩
    · simpa [hrecv, hu] using h

/-- Writing leaves the loop where it was, or ends it. -/
theorem activity_takeFrame (written : Bool) (connection : Connection) :
    (connection.takeFrame written).activity = connection.activity ∨
      (connection.takeFrame written).activity = .closed := by
  unfold takeFrame
  split
  · cases written
    · exact .inr rfl
    · exact .inl rfl
  · exact .inl rfl
  · exact .inl rfl

theorem mem_pending_takeOutgoing (h : message ∈ (connection.takeOutgoing written).pending) :
    message ∈ connection.pending := by
  rw [mem_pending] at h ⊢
  exact h.imp id List.mem_of_mem_tail

theorem activity_takeOutgoing (written : Bool) (connection : Connection) :
    (connection.takeOutgoing written).activity = connection.activity ∨
      (connection.takeOutgoing written).activity = .closed := by
  cases written
  · exact .inr rfl
  · exact .inl rfl

theorem activity_hear (capacity : ℕ) (item : String × WsMessage) (connection : Connection) :
    (connection.hear capacity item).activity = connection.activity := by
  unfold hear
  split <;> rfl

theorem mem_pending_hear {capacity : ℕ} {item : String × WsMessage}
    (h : message ∈ (connection.hear capacity item).pending) :
    message ∈ connection.pending ∨ message = item.2 := by
  unfold hear at h
  split_ifs at h
  · rw [mem_pending] at h ⊢
    rcases h with ⟨heard, hmem, rfl⟩ | hout
    · rcases Receiver.mem_unread_offer hmem with hold | rfl
      · exact .inl (.inl ⟨heard, hold, rfl⟩)
      · exact .inr rfl
    · exact .inl (.inr hout)
  · exact .inl h

theorem activity_queue (queued : WsMessage) (connection : Connection) :
    (connection.queue queued).activity = connection.activity := by
  unfold queue
  split <;> rfl

theorem mem_pending_queue {queued : WsMessage} (h : message ∈ (connection.queue queued).pending) :
    message ∈ connection.pending ∨ message = queued := by
  unfold queue at h
  split_ifs at h
  · rw [mem_pending] at h ⊢
    rcases h with hheard | hout
    · exact .inl (.inl hheard)
    · rcases List.mem_append.mp hout with hold | hnew
      · exact .inl (.inr hold)
      · exact .inr (List.mem_singleton.mp hnew)
  · exact .inl h

end Connection

namespace AdaptiveStreamController

/-- The sessions that tasks stream. -/
def streaming (controller : AdaptiveStreamController) : List String :=
  controller.tasks.map StreamTask.sessionId

variable {controller controller' : AdaptiveStreamController} {sessionId : String}

@[simp] theorem streaming_abort (controller : AdaptiveStreamController) (handle : ℕ) :
    (controller.abort handle).streaming = controller.streaming :=
  Lists.map_modify_eq (g := StreamTask.sessionId)
    (f := fun task => { task with aborted := true }) (fun _ => rfl) controller.tasks handle

theorem streaming_startStreaming (h : controller.startStreaming sessionId = .ok controller') :
    controller'.streaming = controller.streaming ++ [sessionId] := by
  unfold startStreaming at h
  split at h
  · cases h
  · rename_i session hget
    simp only [Except.ok.injEq] at h
    subst h
    cases session.streamTask <;> simp [streaming, abort, Lists.map_modify_eq, StreamTask.spawn]

theorem streaming_handleFrameAck {frameId : UInt32} {processingTimeMs : UInt64}
    (h : controller.handleFrameAck sessionId frameId processingTimeMs = .ok controller') :
    controller'.streaming = controller.streaming := by
  unfold handleFrameAck at h
  split at h
  · cases h
  · cases h
    rfl

@[simp] theorem streaming_removeSession (controller : AdaptiveStreamController)
    (sessionId : String) :
    (controller.removeSession sessionId).streaming = controller.streaming := by
  unfold removeSession
  split
  · rfl
  · rename_i session hget
    split
    · exact streaming_abort _ _
    · rfl

end AdaptiveStreamController

namespace AxumWebSocketTransport

variable {capacity : ℕ} {wire : Wire} {t : AxumWebSocketTransport} {c : String}
  {e : TransportStep}

theorem get?_onConnection (t : AxumWebSocketTransport) (c d : String)
    (f : Connection → Connection) : (t.onConnection c f).connections.get? d =
      if d = c then (t.connections.get? d).map f else t.connections.get? d :=
  AssocMap.get?_modify c d f t.connections

theorem activity_of_get? {connection : Connection} {a : Activity}
    (h : t.connections.get? c = some connection) (ha : t.activity c = some a) :
    connection.activity = a := by
  rwa [activity, h, Option.map_some, Option.some.injEq] at ha

theorem activity_eq_some {a : Activity} : t.activity c = some a ↔
    ∃ connection, t.connections.get? c = some connection ∧ connection.activity = a :=
  Option.map_eq_some_iff

section Connections

/-- What a step makes of an open connection. -/
inductive Moves (capacity : ℕ) (wire : Wire) (t : AxumWebSocketTransport) (c : String) :
    TransportStep → Connection → Connection → Prop
  | stays (e : TransportStep) (x : Connection) : Moves capacity wire t c e x x
  | takesFrame (written : Bool) (x : Connection) :
    Moves capacity wire t c (.takeFrame c written) x (x.takeFrame written)
  | takesOutgoing (written : Bool) (x : Connection) :
    Moves capacity wire t c (.takeOutgoing c written) x (x.takeOutgoing written)
  | creates {sessionId : String} {data : JsonValue} {options : StreamOptions} {fresh : String}
    {x : Connection} (h : x.activity = .selecting) :
    Moves capacity wire t c (.receive c (.streamInit sessionId data options) fresh) x
      (x.enter (.created fresh))
  | records {id : String} {x : Connection} (h : x.activity = .created id) :
    Moves capacity wire t c (.record c) x (x.enter (.recorded id))
  | starts {id : String} {x : Connection} (h : x.activity = .recorded id) :
    Moves capacity wire t c (.start c) x (x.enter .selecting)
  | leaves {x : Connection} (h : x.activity = .selecting) :
    Moves capacity wire t c (.leave c) x (x.enter .closed)
  | tearsDown {x : Connection} (h : x.activity = .closed) :
    Moves capacity wire t c (.teardown c) x (x.enter (.removing (t.recorded c)))
  | removes {id : String} {ids : List String} {x : Connection}
    (h : x.activity = .removing (id :: ids)) :
    Moves capacity wire t c (.removeNext c) x (x.enter (.removing ids))
  | hears {task : ℕ} {s : StreamTask} (h : t.controller.tasks[task]? = some s) (x : Connection) :
    Moves capacity wire t c (.publish task) x
      (x.hear capacity (s.sessionId, s.message wire))
  | queues (message : WsMessage) (x : Connection) :
    Moves capacity wire t c (.sendFrame c message) x (x.queue message)

/-- A step that works on connection `d` leaves the others alone. -/
theorem moves_onConnection {u : AxumWebSocketTransport} {d : String} {y : Connection}
    {f : Connection → Connection} (hu : u.connections = t.connections)
    (hf : ∀ x, t.connections.get? d = some x → Moves capacity wire t d e x (f x))
    (h : (u.onConnection d f).connections.get? c = some y) :
    ∃ x, t.connections.get? c = some x ∧ Moves capacity wire t c e x y := by
  rw [get?_onConnection, hu] at h
  split_ifs at h with hc
  · subst hc
    obtain ⟨x, hx, rfl⟩ := Option.map_eq_some_iff.mp h
    exact ⟨x, hx, hf x hx⟩
  · exact ⟨y, h, .stays e y⟩

theorem moves_after {y : Connection} (hen : t.enabled e = true)
    (h : (t.after capacity wire e).connections.get? c = some y) :
    (e = .connect c ∧ y = .new) ∨
      ∃ x, t.connections.get? c = some x ∧ Moves capacity wire t c e x y := by
  cases e with
  | connect d =>
    change (t.connections.insert d .new).get? c = some y at h
    rw [AssocMap.get?_insert] at h
    split_ifs at h with hc
    · subst hc
      exact .inl ⟨rfl, (Option.some.inj h).symm⟩
    · exact .inr ⟨y, h, .stays _ y⟩
  | takeFrame d written => exact .inr (moves_onConnection rfl (fun x _ => .takesFrame written x) h)
  | takeOutgoing d written =>
    exact .inr (moves_onConnection rfl (fun x _ => .takesOutgoing written x) h)
  | receive d message fresh =>
    right
    cases message with
    | streamInit sessionId data options =>
      have hd : t.activity d = some .selecting := of_decide_eq_true hen
      refine moves_onConnection ?_ (fun x hx => .creates (activity_of_get? hx hd)) h
      rfl
    | frameAck sessionId frameId processingTimeMs =>
      simp only [after, handleMessage] at h
      split at h <;> exact ⟨y, h, .stays _ y⟩
    | _ => exact ⟨y, h, .stays _ y⟩
  | record d =>
    right
    simp only [after, recordSession] at h
    split at h
    · rename_i id hd
      refine moves_onConnection ?_ (fun x hx => .records (activity_of_get? hx hd)) h
      rfl
    · exact ⟨y, h, .stays _ y⟩
  | start d =>
    right
    simp only [after, startSession] at h
    split at h
    · rename_i id hd
      split at h <;>
        exact moves_onConnection rfl (fun x hx => .starts (activity_of_get? hx hd)) h
    · exact ⟨y, h, .stays _ y⟩
  | leave d =>
    have hd : t.activity d = some .selecting := of_decide_eq_true hen
    exact .inr (moves_onConnection rfl (fun x hx => .leaves (activity_of_get? hx hd)) h)
  | teardown d =>
    have hd : t.activity d = some .closed := of_decide_eq_true hen
    exact .inr (moves_onConnection rfl (fun x hx => .tearsDown (activity_of_get? hx hd)) h)
  | removeNext d =>
    right
    simp only [after, removeNext] at h
    split at h
    · rename_i id ids hd
      refine moves_onConnection ?_ (fun x hx => .removes (activity_of_get? hx hd)) h
      rfl
    · rw [AssocMap.get?_erase] at h
      split_ifs at h
      exact ⟨y, h, .stays _ y⟩
    · exact ⟨y, h, .stays _ y⟩
  | wake task => exact .inr ⟨y, h, .stays _ y⟩
  | publish task =>
    right
    simp only [after, publish] at h
    split at h
    · rename_i s hs
      change (t.connections.mapVal _).get? c = some y at h
      rw [AssocMap.get?_mapVal] at h
      obtain ⟨x, hx, rfl⟩ := Option.map_eq_some_iff.mp h
      exact ⟨x, hx, .hears hs x⟩
    · exact ⟨y, h, .stays _ y⟩
  | sendFrame d message => exact .inr (moves_onConnection rfl (fun x _ => .queues message x) h)
  | closeStream sessionId => exact .inr ⟨y, h, .stays _ y⟩

namespace Moves

variable {x y : Connection}

/-- Where a loop may get to in one step. -/
theorem activity (h : Moves capacity wire t c e x y) : y.activity = x.activity ∨
    (∃ sessionId data options fresh, e = .receive c (.streamInit sessionId data options) fresh ∧
      x.activity = .selecting ∧ y.activity = .created fresh) ∨
    (∃ id, x.activity = .created id ∧ y.activity = .recorded id) ∨
    (∃ id, x.activity = .recorded id ∧ y.activity = .selecting) ∨
    y.activity.serving = false := by
  cases h with
  | stays => exact .inl rfl
  | takesFrame written =>
    refine (x.activity_takeFrame written).imp_right fun hclosed => .inr (.inr (.inr ?_))
    rw [hclosed]
    rfl
  | takesOutgoing written =>
    refine (x.activity_takeOutgoing written).imp_right fun hclosed => .inr (.inr (.inr ?_))
    rw [hclosed]
    rfl
  | creates hx => exact .inr (.inl ⟨_, _, _, _, rfl, hx, rfl⟩)
  | records hx => exact .inr (.inr (.inl ⟨_, hx, rfl⟩))
  | starts hx => exact .inr (.inr (.inr (.inl ⟨_, hx, rfl⟩)))
  | leaves | tearsDown | removes => exact .inr (.inr (.inr (.inr rfl)))
  | hears => exact .inl (Connection.activity_hear _ _ x)
  | queues message => exact .inl (Connection.activity_queue message x)

/-- A loop that has ended does not start again. -/
theorem serving (h : Moves capacity wire t c e x y) (hy : y.activity.serving = true) :
    x.activity.serving = true := by
  rcases h.activity with hsame | ⟨_, _, _, _, -, hx, -⟩ | ⟨_, hx, -⟩ | ⟨_, hx, -⟩ | hended
  · rwa [hsame] at hy
  · rw [hx]
    rfl
  · rw [hx]
    rfl
  · rw [hx]
    rfl
  · rw [hended] at hy
    cases hy

/-- A session is created by a `StreamInit` and by nothing else. -/
theorem created (h : Moves capacity wire t c e x y) {id : String}
    (hy : y.activity = .created id) : x.activity = .created id ∨
      ∃ sessionId data options, e = .receive c (.streamInit sessionId data options) id := by
  rcases h.activity with hsame | ⟨_, _, _, _, he, -, hc⟩ | ⟨_, -, hc⟩ | ⟨_, -, hc⟩ | hended
  · exact .inl (hsame ▸ hy)
  · rw [hy, Activity.created.injEq] at hc
    exact .inr ⟨_, _, _, hc ▸ he⟩
  · rw [hy] at hc
    cases hc
  · rw [hy] at hc
    cases hc
  · rw [hy] at hended
    cases hended

/-- What is recorded was created. -/
theorem recorded (h : Moves capacity wire t c e x y) {id : String}
    (hy : y.activity = .recorded id) :
    x.activity = .recorded id ∨ x.activity = .created id := by
  rcases h.activity with hsame | ⟨_, _, _, _, -, -, hc⟩ | ⟨_, hx, hc⟩ | ⟨_, -, hc⟩ | hended
  · exact .inl (hsame ▸ hy)
  · rw [hy] at hc
    cases hc
  · rw [hy, Activity.recorded.injEq] at hc
    exact .inr (hc ▸ hx)
  · rw [hy] at hc
    cases hc
  · rw [hy] at hended
    cases hended

/-- A connection gets to write what a task publishes or the application queues. -/
theorem pending (h : Moves capacity wire t c e x y) {message : WsMessage}
    (hm : message ∈ y.pending) : message ∈ x.pending ∨
      (∃ task s, e = .publish task ∧ t.controller.tasks[task]? = some s ∧
        message = s.message wire) ∨ e = .sendFrame c message := by
  cases h with
  | takesFrame => exact .inl (Connection.mem_pending_takeFrame hm)
  | takesOutgoing => exact .inl (Connection.mem_pending_takeOutgoing hm)
  | @hears task s hs =>
    refine (Connection.mem_pending_hear hm).imp_right ?_
    rintro rfl
    exact .inl ⟨task, s, rfl, hs, rfl⟩
  | queues queued =>
    refine (Connection.mem_pending_queue hm).imp_right ?_
    rintro rfl
    exact .inr rfl
  | stays | creates | records | starts | leaves | tearsDown | removes => exact .inl hm

end Moves

/-- What is written was pending in a running loop. -/
theorem mem_pending_of_written {message : WsMessage}
    (hen : t.enabled e = true) (h : t.written e = some (c, message)) :
    ∃ connection, t.connections.get? c = some connection ∧ connection.activity = .selecting ∧
      message ∈ connection.pending := by
  unfold written at h
  split at h
  · rename_i d
    obtain ⟨hd, -⟩ : t.activity d = some .selecting ∧ _ := of_decide_eq_true hen
    obtain ⟨connection, hconnection, hselecting⟩ := activity_eq_some.mp hd
    rw [hconnection, Option.bind_some] at h
    split at h
    · rename_i item rest hrecv
      obtain ⟨rfl, rfl⟩ : d = c ∧ item.2 = message := by simpa using h
      refine ⟨connection, hconnection, hselecting, Connection.mem_pending.mpr (.inl ?_)⟩
      rcases Receiver.recv_cases hrecv with ⟨v, hv, hu⟩ | ⟨hlagged, -⟩
      · cases hv
        exact ⟨item, by rw [hu]; exact List.mem_cons_self, rfl⟩
      · cases hlagged
    · cases h
  · rename_i d
    obtain ⟨hd, -⟩ : t.activity d = some .selecting ∧ _ := of_decide_eq_true hen
    obtain ⟨connection, hconnection, hselecting⟩ := activity_eq_some.mp hd
    obtain ⟨head, hhead, rfl, rfl⟩ :
        ∃ head, connection.outgoing.head? = some head ∧ d = c ∧ head = message := by
      simpa [hconnection, Option.bind_eq_some_iff] using h
    exact ⟨connection, hconnection, hselecting,
      Connection.mem_pending.mpr (.inr (List.mem_of_mem_head? hhead))⟩
  · cases h

end Connections

section Records

theorem recorded_insert (t : AxumWebSocketTransport) (c d : String) (sessionIds : List String) :
    { t with connectionSessions := t.connectionSessions.insert c sessionIds }.recorded d =
      if d = c then sessionIds else t.recorded d := by
  rw [recorded, AssocMap.get?_insert]
  split_ifs <;> rfl

theorem recorded_erase (t : AxumWebSocketTransport) (c d : String) :
    { t with connectionSessions := t.connectionSessions.erase c }.recorded d =
      if d = c then [] else t.recorded d := by
  rw [recorded, AssocMap.get?_erase]
  split_ifs <;> rfl

/-- The record of a connection grows by the session just created, or is dropped. -/
theorem recorded_after (capacity : ℕ) (wire : Wire) (t : AxumWebSocketTransport) (c : String)
    (e : TransportStep) : (t.after capacity wire e).recorded c = t.recorded c ∨
      (∃ id, t.activity c = some (.created id) ∧
        (t.after capacity wire e).recorded c = t.recorded c ++ [id]) ∨
      (e = .teardown c ∧ (t.after capacity wire e).recorded c = []) := by
  cases e with
  | record d =>
    simp only [after, recordSession]
    split
    · rename_i id hd
      have hrecorded := recorded_insert t d c (t.recorded d ++ [id])
      by_cases hc : c = d
      · subst hc
        exact .inr (.inl ⟨id, hd, hrecorded.trans (if_pos rfl)⟩)
      · exact .inl (hrecorded.trans (if_neg hc))
    · exact .inl rfl
  | teardown d =>
    have herased := recorded_erase t d c
    by_cases hc : c = d
    · subst hc
      exact .inr (.inr ⟨rfl, herased.trans (if_pos rfl)⟩)
    · exact .inl (herased.trans (if_neg hc))
  | receive d message fresh =>
    cases message with
    | frameAck sessionId frameId processingTimeMs =>
      simp only [after, handleMessage]
      split <;> exact .inl rfl
    | _ => exact .inl rfl
  | start d =>
    simp only [after, startSession]
    split
    · split <;> exact .inl rfl
    · exact .inl rfl
  | removeNext d =>
    simp only [after, removeNext]
    split <;> exact .inl rfl
  | publish task =>
    simp only [after, publish]
    split <;> exact .inl rfl
  | _ => exact .inl rfl

end Records

section Tasks

theorem streaming_onTask (t : AxumWebSocketTransport) (task : ℕ) {f : StreamTask → StreamTask}
    (hf : ∀ s, (f s).sessionId = s.sessionId) :
    (t.onTask task f).controller.streaming = t.controller.streaming :=
  Lists.map_modify_eq (g := StreamTask.sessionId) hf t.controller.tasks task

/-- A new task streams a session that was recorded. -/
theorem streaming_after {id : String}
    (h : id ∈ (t.after capacity wire e).controller.streaming) :
    id ∈ t.controller.streaming ∨ ∃ c, t.activity c = some (.recorded id) := by
  cases e with
  | receive d message fresh =>
    left
    cases message with
    | frameAck sessionId frameId processingTimeMs =>
      simp only [after, handleMessage] at h
      split at h
      · rename_i controller hack
        rwa [AdaptiveStreamController.streaming_handleFrameAck hack] at h
      · exact h
    | _ => exact h
  | start d =>
    simp only [after, startSession] at h
    split at h
    · rename_i sessionId hd
      split at h
      · rename_i controller hstart
        change id ∈ controller.streaming at h
        rw [AdaptiveStreamController.streaming_startStreaming hstart, List.mem_append,
          List.mem_singleton] at h
        refine h.imp_right ?_
        rintro rfl
        exact ⟨d, hd⟩
      · exact .inl h
    · exact .inl h
  | record d =>
    left
    simp only [after, recordSession] at h
    split at h <;> exact h
  | removeNext d =>
    left
    simp only [after, removeNext] at h
    split at h
    · rename_i sessionId sessionIds hd
      change id ∈ (t.controller.removeSession sessionId).streaming at h
      rwa [AdaptiveStreamController.streaming_removeSession] at h
    · exact h
    · exact h
  | closeStream sessionId =>
    left
    change id ∈ (t.controller.removeSession sessionId).streaming at h
    rwa [AdaptiveStreamController.streaming_removeSession] at h
  | wake task =>
    left
    rwa [← streaming_onTask t task (f := fun s => { s with running := true }) (fun _ => rfl)]
  | publish task =>
    left
    simp only [after, publish] at h
    split at h
    · rwa [← streaming_onTask t task (fun s => s.sessionId_sent wire t.subscribed)]
    · exact h
  | _ => exact .inl h

end Tasks

end AxumWebSocketTransport

end PJS
