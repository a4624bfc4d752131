import PJS.WebSocket.Effects

/-! Which sessions' messages a connection writes. All sessions share one broadcast channel and the
loop of a connection writes whatever it hears, so a message reaches the connection that asked for
it alone only if no other connection is subscribed when it is published. -/
namespace PJS

open AxumWebSocketTransport

/-- The sessions that the `StreamInit` messages received on a connection create. -/
def initiated (connection : String) (steps : List TransportStep) : List String :=
  steps.filterMap fun
    | .receive c (.streamInit _ _ _) fresh => if c = connection then some fresh else none
    | _ => none

theorem mem_initiated {c sessionId fresh : String} {data : JsonValue} {options : StreamOptions}
    {steps : List TransportStep}
    (h : .receive c (.streamInit sessionId data options) fresh ∈ steps) :
    fresh ∈ initiated c steps :=
  List.mem_filterMap.mpr ⟨_, h, if_pos rfl⟩

namespace AxumWebSocketTransport

variable {capacity : ℕ} {wire : Wire} {t : AxumWebSocketTransport} {c : String}

/-- Any interleaving of the steps of connections and streaming tasks. -/
abbrev Continues (capacity : ℕ) (wire : Wire) :=
  Trace (fun t e => enabled t e = true) (after capacity wire)

/-- Runs of the transport. -/
abbrev Run (capacity : ℕ) (wire : Wire) := Continues capacity wire new

/-- Every subscribed connection has the session on record. -/
def heardByOwners (t : AxumWebSocketTransport) (sessionId : String) : Bool :=
  t.connections.entries.all fun e => !e.2.activity.serving || (t.recorded e.1).contains sessionId

/-- A task publishes when only owners of its session are subscribed, and the application queues
frames of the connection's own sessions. -/
def exclusive (t : AxumWebSocketTransport) : TransportStep → Bool
  | .publish task => t.controller.tasks[task]?.all fun s => t.heardByOwners s.sessionId
  | .sendFrame c message => message.streamed.all fun id => (t.recorded c).contains id
  | _ => true

/-- Runs in which every step is exclusive when it is taken. -/
abbrev ExclusiveRun (capacity : ℕ) (wire : Wire) :=
  Trace (fun t e => enabled t e = true ∧ exclusive t e = true) (after capacity wire) new

/-- Every message that a running loop still has to write belongs to a session on its record. -/
def Isolated (t : AxumWebSocketTransport) : Prop :=
  ∀ c connection, t.connections.get? c = some connection → connection.activity.serving = true →
    ∀ message ∈ connection.pending, ∀ id, message.streamed = some id → id ∈ t.recorded c

theorem isolated_new : new.Isolated := by
  intro c connection h
  simp [new, AssocMap.get?, AssocMap.empty] at h

/-- While a loop runs its record only grows. -/
theorem mem_recorded_after {e : TransportStep} {x : Connection} {id : String}
    (hen : t.enabled e = true) (hx : t.connections.get? c = some x)
    (hs : x.activity.serving = true) (hid : id ∈ t.recorded c) :
    id ∈ (t.after capacity wire e).recorded c := by
  rcases recorded_after capacity wire t c e with hsame | ⟨new, -, hnew⟩ | ⟨rfl, -⟩
  · rwa [hsame]
  · rw [hnew]
    exact List.mem_append_left _ hid
  · have hclosed : t.activity c = some .closed := of_decide_eq_true hen
    rw [activity_of_get? hx hclosed] at hs
    cases hs

theorem Isolated.after (h : t.Isolated) {e : TransportStep} (hen : t.enabled e = true)
    (hex : t.exclusive e = true) : (t.after capacity wire e).Isolated := by
  intro c y hy hs message hm id hid
  rcases moves_after hen hy with ⟨-, rfl⟩ | ⟨x, hx, hmoves⟩
  · cases hm
  · have hxs := hmoves.serving hs
    refine mem_recorded_after hen hx hxs ?_
    rcases hmoves.pending hm with hold | ⟨task, s, rfl, hs', rfl⟩ | rfl
    · exact h c x hx hxs message hold id hid
    · rw [StreamTask.streamed_message, Option.some.injEq] at hid
      have howners : t.heardByOwners s.sessionId = true := by simpa [exclusive, hs'] using hex
      have hown := List.all_eq_true.mp howners _ (Assoc.mem_of_lookup hx)
      simpa [hxs, hid] using hown
    · simpa [exclusive, hid] using hex

section Records
variable {steps : List TransportStep}

/-- The sessions on record, and those about to be, come from `StreamInit` messages. -/
structure Traced (steps : List TransportStep) (t : AxumWebSocketTransport) : Prop where
  recorded : ∀ c, ∀ id ∈ t.recorded c, id ∈ initiated c steps
  created : ∀ c id, t.activity c = some (.created id) → id ∈ initiated c steps

theorem traced_new (steps : List TransportStep) : new.Traced steps := by
  constructor
  · intro c id h
    simp [AxumWebSocketTransport.recorded, new, AssocMap.get?, AssocMap.empty] at h
  · intro c id h
    cases h

theorem Traced.after (h : t.Traced steps) {e : TransportStep} (hen : t.enabled e = true)
    (he : e ∈ steps) : (t.after capacity wire e).Traced steps := by
  constructor
  · intro c id hid
    rcases recorded_after capacity wire t c e with hsame | ⟨new, hnew, hgrown⟩ | ⟨-, hnil⟩
    · exact h.recorded c id (hsame ▸ hid)
    · rw [hgrown, List.mem_append, List.mem_singleton] at hid
      rcases hid with hold | rfl
      · exact h.recorded c id hold
      · exact h.created c id hnew
    · rw [hnil] at hid
      cases hid
  · intro c id hc
    obtain ⟨y, hy, hyid⟩ := activity_eq_some.mp hc
    rcases moves_after hen hy with ⟨-, rfl⟩ | ⟨x, hx, hmoves⟩
    · cases hyid
    · rcases hmoves.created hyid with hxid | ⟨sessionId, data, options, rfl⟩
      · exact h.created c id (activity_eq_some.mpr ⟨x, hx, hxid⟩)
      · exact mem_initiated he

end Records

/-- As long as messages are published to owners only, a connection writes frames and completions of
sessions that are on its record and come from its own `StreamInit` messages. -/
theorem written_to_owner {e : TransportStep} {message : WsMessage} {id : String}
    {steps : List TransportStep} (h : ExclusiveRun capacity wire steps t)
    (hen : t.enabled e = true) (hw : t.written e = some (c, message))
    (hid : message.streamed = some id) : id ∈ t.recorded c ∧ id ∈ initiated c steps := by
  have hisolated : t.Isolated :=
    Trace.invariant (P := Isolated) (fun t e _ he ht => ht.after he.1 he.2) h isolated_new
  have htraced : t.Traced steps :=
    Trace.invariant (P := Traced steps) (fun t e hmem he ht => ht.after he.1 hmem) h
      (traced_new steps)
  obtain ⟨connection, hc, hselecting, hpending⟩ := mem_pending_of_written hen hw
  have hserving : connection.activity.serving = true := by rw [hselecting]; rfl
  have hrecorded := hisolated c connection hc hserving message hpending id hid
  exact ⟨hrecorded, htraced.recorded c id hrecorded⟩

section Examples

/-- A connection asks for a stream, and its first frame is published. -/
def requesting (c fresh : String) : List TransportStep :=
  [.receive c (.streamInit "stream" sampleData .default) fresh, .record c, .start c, .wake 0,
    .publish 0]

/-- A second connection opens after the frame of the first one is published, and asks for a stream
of its own. -/
def joining (owner id other fresh : String) : List TransportStep :=
  .connect owner :: requesting owner id ++
    [.connect other, .receive other (.streamInit "stream" sampleData .default) fresh, .record other,
      .start other]

theorem written_to_owner_joined :
    let owner := "6f9b2f0a-3c1d-4e57-9a44-0d3b5c1e7f21"
    let other := "d4a86e13-57bc-4b02-b9f7-6c0e2a915d48"
    let id := "b1e7c4d2-8a90-4f3b-8c65-2e4f9d7a1036"
    let fresh := "e52a9f07-41cd-4c8e-a3b6-9d10f8e2b574"
    let steps := joining owner id other fresh
    let t := steps.foldl (after 1024 .sample) new
    t.recorded other = [fresh] ∧ t.written (.takeFrame other true) = none ∧
      t.written (.takeFrame owner true) = some (owner, .streamFrame id 0 80 sampleData true) ∧
      id ∈ t.recorded owner ∧ id ∈ initiated owner steps := by
  intro owner other id fresh steps t
  have hrecorded : t.recorded other = [fresh] := by decide
  have hnothing : t.written (.takeFrame other true) = none := by decide
  have hw : t.written (.takeFrame owner true) =
      some (owner, .streamFrame id 0 80 sampleData true) := by decide
  have howned := written_to_owner (Trace.of_guarded (by decide)) (by decide) hw rfl
  exact ⟨hrecorded, hnothing, hw, howned⟩

/-- A second connection is sent the frame that the first one asked for. -/
theorem frame_written_to_stranger :
    ∃ steps t c message id, Run 1024 .sample steps t ∧
      t.enabled (.takeFrame c true) = true ∧
      t.written (.takeFrame c true) = some (c, message) ∧
      message.streamed = some id ∧ id ∉ t.recorded c ∧ id ∉ initiated c steps := by
  let owner := "6f9b2f0a-3c1d-4e57-9a44-0d3b5c1e7f21"
  let stranger := "d4a86e13-57bc-4b02-b9f7-6c0e2a915d48"
  let id := "b1e7c4d2-8a90-4f3b-8c65-2e4f9d7a1036"
  exact ⟨.connect owner :: .connect stranger :: requesting owner id, _, stranger,
    .streamFrame id 0 80 sampleData true, id, Trace.of_guarded (by decide), by decide, by decide,
    rfl, by decide, by decide⟩

end Examples

section Strangers

variable {x : Connection} {item : String × WsMessage} (capacity : ℕ) (wire : Wire)

theorem get?_onConnection_self (h : t.connections.get? c = some x) (f : Connection → Connection) :
    (t.onConnection c f).connections.get? c = some (f x) := by
  rw [get?_onConnection, if_pos rfl, h, Option.map_some]

theorem enabled_takeFrame (written : Bool) (h : t.connections.get? c = some x)
    (hs : x.activity = .selecting) (hr : x.frameRx.recv ≠ none) :
    t.enabled (.takeFrame c written) = true := by
  refine decide_eq_true ⟨by rw [activity, h, Option.map_some, hs], ?_⟩
  rw [h, Option.bind_some]
  exact Option.isSome_iff_ne_none.mpr hr

/-- A loop that is left to itself writes all it has heard, up to the last. -/
theorem writes_last_of_caught_up {l : List (String × WsMessage)}
    (h : t.connections.get? c = some x) (hs : x.activity = .selecting)
    (hm : x.frameRx.missed = 0) (hl : x.frameRx.unread = l ++ [item]) :
    ∃ es u, Continues capacity wire t es u ∧ initiated c es = [] ∧
      u.enabled (.takeFrame c true) = true ∧ u.written (.takeFrame c true) = some (c, item.2) := by
  induction l generalizing t x with
  | nil =>
    have hrecv : x.frameRx.recv = some (.value item, ⟨[], 0⟩) := by
      simp [Receiver.recv, hm, hl]
    refine ⟨[], t, .nil, rfl, enabled_takeFrame true h hs (by simp [hrecv]), ?_⟩
    simp [written, h, hrecv]
  | cons v l ih =>
    have hrecv : x.frameRx.recv = some (.value v, ⟨l ++ [item], 0⟩) := by
      simp [Receiver.recv, hm, hl]
    have htake : x.takeFrame true = ⟨.selecting, ⟨l ++ [item], 0⟩, x.outgoing⟩ := by
      simp [Connection.takeFrame, hrecv, hs]
    have hnext := get?_onConnection_self h (.takeFrame true)
    rw [htake] at hnext
    obtain ⟨es, u, hes, hquiet, hlast⟩ := ih hnext rfl rfl rfl
    have hen := enabled_takeFrame true h hs (by simp [hrecv])
    exact ⟨.takeFrame c true :: es, u, .cons hen hes, hquiet, hlast⟩

theorem writes_last {l : List (String × WsMessage)} (h : t.connections.get? c = some x)
    (hs : x.activity = .selecting) (hl : x.frameRx.unread = l ++ [item]) :
    ∃ es u, Continues capacity wire t es u ∧ initiated c es = [] ∧
      u.enabled (.takeFrame c true) = true ∧ u.written (.takeFrame c true) = some (c, item.2) := by
  by_cases hm : x.frameRx.missed = 0
  · exact writes_last_of_caught_up capacity wire h hs hm hl
  · have hrecv : x.frameRx.recv = some (.lagged x.frameRx.missed, { x.frameRx with missed := 0 }) :=
      if_pos (Nat.pos_of_ne_zero hm)
    have htake : x.takeFrame true = { x with frameRx := { x.frameRx with missed := 0 } } := by
      simp [Connection.takeFrame, hrecv]
    have hnext := get?_onConnection_self h (.takeFrame true)
    rw [htake] at hnext
    obtain ⟨es, u, hes, hquiet, hlast⟩ := writes_last_of_caught_up capacity wire hnext hs rfl hl
    have hen := enabled_takeFrame true h hs (by simp [hrecv])
    exact ⟨.takeFrame c true :: es, u, .cons hen hes, hquiet, hlast⟩

/-- A running loop comes back to its select. -/
theorem reaches_selecting (h : t.connections.get? c = some x) (hs : x.activity.serving = true) :
    ∃ es u, Continues capacity wire t es u ∧ initiated c es = [] ∧
      u.connections.get? c = some { x with activity := .selecting } := by
  have hstart : ∀ {t : AxumWebSocketTransport} {y : Connection} {id : String},
      t.connections.get? c = some y → y.activity = .recorded id →
      t.enabled (.start c) = true ∧
        (t.after capacity wire (.start c)).connections.get? c =
          some { y with activity := .selecting } := by
    intro t y id hy hid
    have hact : t.activity c = some (.recorded id) := activity_eq_some.mpr ⟨y, hy, hid⟩
    constructor
    · simp [enabled, hact]
    · simp only [after, startSession, hact]
      rw [get?_onConnection_self (x := y)]
      · rfl
      · split <;> exact hy
  obtain ⟨a, rx, out⟩ := x
  cases a with
  | selecting => exact ⟨[], t, .nil, rfl, h⟩
  | created id =>
    have hact : t.activity c = some (.created id) := activity_eq_some.mpr ⟨_, h, rfl⟩
    have hen : t.enabled (.record c) = true := by simp [enabled, hact]
    have hnext : (t.after capacity wire (.record c)).connections.get? c =
        some ⟨.recorded id, rx, out⟩ := by
      simp only [after, recordSession, hact]
      exact get?_onConnection_self (x := ⟨.created id, rx, out⟩) h _
    obtain ⟨hen', hnext'⟩ := hstart hnext rfl
    exact ⟨[.record c, .start c], _, .cons hen (.single hen'), rfl, hnext'⟩
  | recorded id =>
    obtain ⟨hen, hnext⟩ := hstart h rfl
    exact ⟨[.start c], _, .single hen, rfl, hnext⟩
  | closed => cases hs
  | removing ids => cases hs

/-- A message that is published while a stranger is connected can reach the stranger: it takes no
more than the stranger's own loop going on. -/
theorem stranger_written (hcapacity : 0 < capacity) {steps : List TransportStep} {task : ℕ}
    {s : StreamTask} (h : Run capacity wire steps t) (hen : t.enabled (.publish task) = true)
    (htask : t.controller.tasks[task]? = some s) (hx : t.connections.get? c = some x)
    (hserving : x.activity.serving = true) (hstranger : s.sessionId ∉ initiated c steps) :
    ∃ more u, Run capacity wire (steps ++ .publish task :: more) u ∧
      u.enabled (.takeFrame c true) = true ∧
      u.written (.takeFrame c true) = some (c, s.message wire) ∧
      s.sessionId ∉ initiated c (steps ++ .publish task :: more) := by
  let item := (s.sessionId, s.message wire)
  have hheard : (t.after capacity wire (.publish task)).connections.get? c =
      some (x.hear capacity item) := by
    simp only [after, publish, htask]
    change (t.connections.mapVal _).get? c = _
    rw [AssocMap.get?_mapVal, hx, Option.map_some]
  have hstill : (x.hear capacity item).activity.serving = true := by
    rwa [Connection.activity_hear]
  have hlast : ∃ l, (x.hear capacity item).frameRx.unread = l ++ [item] := by
    refine ⟨x.frameRx.unread.drop (x.frameRx.unread.length + 1 - capacity), ?_⟩
    simp only [Connection.hear, hserving, if_true, Receiver.offer]
    exact List.drop_append_of_le_length (by omega)
  obtain ⟨l, hl⟩ := hlast
  obtain ⟨es, u, hes, hquiet, hu⟩ := reaches_selecting capacity wire hheard hstill
  obtain ⟨fs, v, hfs, hquiet', hv, hw⟩ := writes_last capacity wire hu rfl hl
  refine ⟨es ++ fs, v, h.append (.cons hen (hes.append hfs)), hv, hw, ?_⟩
  have hinitiated : initiated c (steps ++ .publish task :: (es ++ fs)) = initiated c steps := by
    simp only [initiated, List.filterMap_append, List.filterMap_cons] at hquiet hquiet' ⊢
    rw [hquiet, hquiet']
    simp
  rwa [hinitiated]

end Strangers

end AxumWebSocketTransport

end PJS
