import PJS.Session.Gates

/-! The events a session raises, over every run from a new session: what they say about the
streams, and how often they say that the session ended. -/
namespace PJS

open Ledger (Entry Steps)

namespace DomainEvent

/-- The stream an event is about, and the state it puts the stream in. -/
def move : DomainEvent → Option (StreamId × StreamState)
  | .streamCreated _ id _ => some (id, .preparing)
  | .streamStarted _ id _ => some (id, .streaming)
  | .streamCompleted _ id _ => some (id, .completed)
  | .streamFailed _ id _ _ => some (id, .failed)
  | .streamCancelled _ id _ => some (id, .cancelled)
  | _ => none

def isClosed : DomainEvent → Bool
  | .sessionClosed _ _ => true
  | _ => false

/-- The event says that the session ended. -/
def isEnding : DomainEvent → Bool
  | .sessionClosed _ _ | .sessionTimedOut _ _ _ _ => true
  | _ => false

theorem isEnding_of_isClosed {e : DomainEvent} (h : e.isClosed = true) : e.isEnding = true := by
  cases e with
  | sessionClosed id t => rfl
  | _ => cases h

end DomainEvent

/-- The state of a stream after a sequence of moves. -/
def stateAfter (id : StreamId) (moves : List (StreamId × StreamState)) : Option StreamState :=
  moves.foldl (fun state m => if m.1 = id then some m.2 else state) none

theorem stateAfter_append_singleton (id : StreamId) (moves : List (StreamId × StreamState))
    (m : StreamId × StreamState) :
    stateAfter id (moves ++ [m]) = if m.1 = id then some m.2 else stateAfter id moves := by
  simp [stateAfter]

/-- The state of a stream as events tell it. -/
def stateByEvents (id : StreamId) (events : List DomainEvent) : Option StreamState :=
  stateAfter id (events.filterMap DomainEvent.move)

namespace Ledger

/-- The move that an entry stands for. -/
def Entry.move : Entry → Option (StreamId × StreamState)
  | .create id => some (id, .preparing)
  | .start id => some (id, .streaming)
  | .complete id => some (id, .completed)
  | .fail id => some (id, .failed)
  | _ => none

variable {l l' : Ledger} {es : List Entry} {moves : List (StreamId × StreamState)}

/-- The moves tell the state of every row. -/
def Told (moves : List (StreamId × StreamState)) (l : Ledger) : Prop :=
  ∀ id, (l.rows.get? id).map Row.state = stateAfter id moves

theorem Told.post (h : Told moves l) {e : Entry} (he : l.Allowed e) (hends : ¬ e.Ends) :
    Told (moves ++ e.move.toList) (l.post e) := by
  have hmodify : ∀ {id : StreamId} {r : Row} (state : StreamState), l.rows.get? id = some r →
      ∀ j, ((l.rows.modify id fun r => { r with state }).get? j).map Row.state =
        stateAfter j (moves ++ [(id, state)]) := by
    intro id r state hr j
    rw [stateAfter_append_singleton, AssocMap.get?_modify, ← h j]
    by_cases hj : j = id
    · simp [hj, hr]
    · simp [hj, Ne.symm hj]
  cases e with
  | activate =>
    intro j
    rw [show Entry.activate.move.toList = [] from rfl, List.append_nil]
    exact h j
  | create id =>
    intro j
    change ((l.rows.insert id .fresh).get? j).map Row.state =
      stateAfter j (moves ++ [(id, .preparing)])
    rw [stateAfter_append_singleton, AssocMap.get?_insert, ← h j]
    by_cases hj : j = id
    · simp [hj, Row.fresh]
    · simp [hj, Ne.symm hj]
  | start id =>
    obtain ⟨r, hr, -⟩ := he
    exact hmodify .streaming hr
  | complete id =>
    obtain ⟨r, hr, -⟩ := he
    exact hmodify .completed hr
  | fail id =>
    obtain ⟨r, hr, -⟩ := he
    exact hmodify .failed hr
  | emit id sequence bytes =>
    intro j
    change ((l.rows.modify id (Row.emit bytes)).get? j).map Row.state = stateAfter j (moves ++ [])
    rw [List.append_nil, ← h j, AssocMap.get?_modify]
    split_ifs
    · rw [Option.map_map]
      rfl
    · rfl
  | close => exact absurd (Or.inl rfl) hends
  | wipe => exact absurd (Or.inr rfl) hends

theorem Told.steps (h : Told moves l) (hs : Steps l es l') (hends : ∀ e ∈ es, ¬ e.Ends) :
    Told (moves ++ es.filterMap Entry.move) l' := by
  induction hs with
  | nil => simpa using h
  | @snoc es t e _ he ih =>
    have htold := (ih fun e he => hends e (by simp [he])).post he (hends e (by simp))
    rw [List.filterMap_append, ← List.append_assoc]
    cases hm : e.move <;> simpa [hm] using htold

/-- A close that no move tells of had nothing to cancel. -/
theorem told_close_iff (h : Told moves l) :
    Told moves (l.post .close) ↔ l.rows.total Row.active = 0 := by
  constructor
  · intro hclosed
    rw [AssocMap.total_eq_zero_iff]
    intro id r hr
    have hsame := (hclosed id).trans (h id).symm
    change ((l.rows.mapVal Row.cancel).get? id).map Row.state = _ at hsame
    rw [AssocMap.get?_mapVal, hr] at hsame
    simp only [Option.map_some, Option.some.injEq] at hsame
    rw [Row.active_eq_zero_iff, ← hsame]
    exact Row.active_eq_zero_iff.mp r.active_cancel
  · intro hidle
    change ∀ id, ((l.rows.mapVal Row.cancel).get? id).map Row.state = _
    rw [mapVal_cancel hidle]
    exact h

/-- Without an ending entry a session is at most activated. -/
theorem phase_of_steps (hs : Steps l es l') (hends : ∀ e ∈ es, ¬ e.Ends) :
    l'.phase = l.phase ∨ l.phase = .initializing ∧ l'.phase = .active := by
  induction hs with
  | nil => exact Or.inl rfl
  | @snoc es t e _ he ih =>
    have ht := ih fun e he => hends e (by simp [he])
    cases e with
    | activate =>
      have hphase : t.phase = .initializing := he
      rcases ht with ht | ⟨-, ht⟩
      · exact Or.inr ⟨ht.symm.trans hphase, rfl⟩
      · cases ht.symm.trans hphase
    | close => exact absurd (Or.inl rfl) (hends .close (by simp))
    | wipe => exact absurd (Or.inr rfl) (hends .wipe (by simp))
    | _ => exact ht

end Ledger

namespace StreamSession

/-- What the events raised between two states of a session say: these moves of its streams, and
not that the session ended. -/
structure Raised (session : StreamSession) (moves : List (StreamId × StreamState))
    (session' : StreamSession) : Prop where
  pending : ∃ events, session'.pendingEvents = session.pendingEvents ++ events ∧
    events.filterMap DomainEvent.move = moves ∧ ∀ e ∈ events, e.isEnding = false
  completedAt : session'.completedAt = session.completedAt

section Raised
variable {session session₁ session₂ : StreamSession} {moves : List (StreamId × StreamState)}

/-- Everything but the events and the end of the session may change. -/
theorem Raised.silent (hp : session₁.pendingEvents = session.pendingEvents)
    (hc : session₁.completedAt = session.completedAt) : session.Raised [] session₁ :=
  ⟨⟨[], by rw [hp, List.append_nil], rfl, by simp⟩, hc⟩

theorem Raised.trans {moves' : List (StreamId × StreamState)} (h : session.Raised moves session₁)
    (h' : session₁.Raised moves' session₂) : session.Raised (moves ++ moves') session₂ := by
  obtain ⟨⟨events, hp, hm, hq⟩, hc⟩ := h
  obtain ⟨⟨events', hp', hm', hq'⟩, hc'⟩ := h'
  refine ⟨⟨events ++ events', ?_, ?_, ?_⟩, hc'.trans hc⟩
  · rw [hp', hp, List.append_assoc]
  · rw [List.filterMap_append, hm, hm']
  · intro e he
    rcases List.mem_append.mp he with he | he
    · exact hq e he
    · exact hq' e he

/-- One more event. -/
theorem Raised.snoc {event : DomainEvent} (h : session.Raised [] session₁)
    (hp : session₂.pendingEvents = session₁.pendingEvents ++ [event])
    (hc : session₂.completedAt = session₁.completedAt) (hq : event.isEnding = false)
    (hm : event.move.toList = moves) : session.Raised moves session₂ := by
  refine h.trans ⟨⟨[event], hp, ?_, by simpa using hq⟩, hc⟩
  rw [← hm]
  cases he : event.move <;> simp [he]

end Raised

/-- The moves that come with a success. -/
def movesOf {α : Type} (result : DomainResult α) (moves : List (StreamId × StreamState)) :
    List (StreamId × StreamState) :=
  match result with
  | .ok _ => moves
  | .error _ => []

section Lifecycle
variable (env : SessionEnv) (session : StreamSession)

theorem activate_raised : session.Raised [] (session.activate env).2 := by
  unfold activate
  split
  · exact Raised.snoc (.silent rfl rfl) rfl rfl rfl rfl
  · exact .silent rfl rfl

theorem createStream_raised (data : DataDocument) :
    session.Raised (movesOf (session.createStream env data).1 [(env.uuid, .preparing)])
      (session.createStream env data).2 := by
  unfold createStream
  split_ifs
  · exact .silent rfl rfl
  · exact .silent rfl rfl
  · exact Raised.snoc (.silent rfl rfl) rfl rfl rfl rfl

/-- A method of one stream raises nothing by itself. -/
theorem withStream_raised {α : Type} (id : StreamId) (f : Stream → DomainResult α × Stream) :
    session.Raised [] (session.withStream id f).2 := by
  unfold withStream
  split
  · exact .silent rfl rfl
  · exact .silent rfl rfl

theorem updateStreamConfig_raised (id : StreamId) (config : StreamConfig) :
    session.Raised [] (session.updateStreamConfig env id config).2 := by
  unfold updateStreamConfig
  have h := session.withStream_raised id fun stream => stream.updateConfig env.toEnv config
  generalize session.withStream id _ = r at h ⊢
  obtain ⟨_ | _, session₁⟩ := r
  · exact h
  · exact h.snoc rfl rfl rfl rfl

theorem startStream_raised (id : StreamId) :
    session.Raised (movesOf (session.startStream env id).1 [(id, .streaming)])
      (session.startStream env id).2 := by
  unfold startStream
  have h := session.withStream_raised id fun stream => stream.startStreaming env.toEnv
  generalize session.withStream id _ = r at h ⊢
  obtain ⟨_ | _, session₁⟩ := r
  · exact h
  · exact h.snoc rfl rfl rfl rfl

theorem completeStream_raised (id : StreamId) :
    session.Raised (movesOf (session.completeStream env id).1 [(id, .completed)])
      (session.completeStream env id).2 := by
  unfold completeStream
  have h := session.withStream_raised id (completeTimed env.toEnv)
  generalize session.withStream id _ = r at h ⊢
  obtain ⟨_ | _, session₁⟩ := r
  · exact h
  · exact h.snoc rfl rfl rfl rfl

theorem failStream_raised (id : StreamId) (error : String) :
    session.Raised (movesOf (session.failStream env id error).1 [(id, .failed)])
      (session.failStream env id error).2 := by
  unfold failStream
  have h := session.withStream_raised id fun stream => stream.fail env.toEnv error
  generalize session.withStream id _ = r at h ⊢
  obtain ⟨_ | _, session₁⟩ := r
  · exact h
  · exact h.snoc rfl rfl rfl rfl

/-- A stream that is created is created whatever becomes of its configuration. -/
theorem createStreamWithConfig_raised (data : DataDocument) (config : Option StreamConfig) :
    session.Raised
      (movesOf (session.createStreamWithConfig env data config).1 [(env.uuid, .preparing)])
      (session.createStreamWithConfig env data config).2 := by
  rcases session.createStreamWithConfig_cases env data config with ⟨e, he⟩ | ⟨a, session', hok, -⟩
  · rw [he]
    exact .silent rfl rfl
  · have h := session.createStream_raised env data
    rw [hok]
    unfold createStreamWithConfig at hok
    generalize session.createStream env data = r at h hok
    obtain ⟨_ | id, session₁⟩ := r
    · cases hok
    · cases config with
      | none =>
        cases hok
        exact h
      | some config =>
        have h' := session₁.updateStreamConfig_raised (afterCreate env) id config
        simp only at hok
        generalize session₁.updateStreamConfig (afterCreate env) id config = r at h' hok
        obtain ⟨_ | _, session₂⟩ := r
        · cases hok
        · cases hok
          exact h.trans h'

theorem extendTimeout_raised {seconds : UInt64} {r : DomainResult Unit × StreamSession}
    (h : session.extendTimeout env seconds = some r) : session.Raised [] r.2 := by
  unfold extendTimeout at h
  split_ifs at h
  · cases h
    exact .silent rfl rfl
  · obtain ⟨expiresAt, -, hr⟩ := Option.bind_eq_some_iff.mp h
    cases hr
    exact Raised.snoc (.silent rfl rfl) rfl rfl rfl rfl

end Lifecycle

section Frames
variable (env : SessionEnv) (session : StreamSession)

theorem recordFrames_raised (frameCount bytes : ℕ) :
    session.Raised [] (session.recordFrames env frameCount bytes) := by
  unfold recordFrames
  simp only
  split_ifs
  · exact .silent rfl rfl
  · exact Raised.snoc (.silent rfl rfl) rfl rfl rfl rfl

theorem commitPatchFramesForStream_raised (id : StreamId)
    (patches : List (FramePatch × Priority)) (maxFrames : ℕ) :
    session.Raised [] (session.commitPatchFramesForStream env id patches maxFrames).2 := by
  unfold commitPatchFramesForStream
  have h := session.withStream_raised id (commitMeasured env.toEnv patches maxFrames)
  generalize session.withStream id _ = r at h ⊢
  obtain ⟨_ | _, session₁⟩ := r
  · exact h
  · exact h.trans (session₁.recordFrames_raised env _ _)

theorem createStreamPatchFrames_raised (id : StreamId) (threshold : Priority) (maxFrames : ℕ) :
    session.Raised [] (session.createStreamPatchFrames env id threshold maxFrames).2 := by
  unfold createStreamPatchFrames
  split
  · exact .silent rfl rfl
  · exact session.commitPatchFramesForStream_raised env id _ maxFrames

theorem commitPriorityFrames_raised (extracted : Extracted) (batchSize : ℕ) :
    session.Raised [] (session.commitPriorityFrames env extracted batchSize).2 := by
  unfold commitPriorityFrames
  split_ifs
  · exact .silent rfl rfl
  · set kept := survivors (session.candidates extracted) batchSize
    have h : session.Raised [] { session with
        streams := (finalizeCandidates env.toEnv session.streams kept).2 } := .silent rfl rfl
    exact h.trans (recordFrames_raised _ _ _ _)

end Frames

end StreamSession

namespace Call

section Events

/-- The events a call raises. -/
def raised (call : Call) (session : StreamSession) : List DomainEvent :=
  match call.op with
  | .takeEvents => []
  | _ => (call.run session).2.pendingEvents.drop session.pendingEvents.length

/-- All events that a run has raised, whether they were taken or not. -/
def history : StreamSession → List Call → List DomainEvent
  | _, [] => []
  | session, call :: calls => call.raised session ++ history (call.run session).2 calls

variable (call : Call) (session : StreamSession)

theorem raised_eq {events : List DomainEvent} (hop : call.op ≠ .takeEvents)
    (h : (call.run session).2.pendingEvents = session.pendingEvents ++ events) :
    call.raised session = events := by
  unfold raised
  split
  · exact absurd ‹_› hop
  · rw [h, List.drop_left]

/-- The call raised what its entries say, and did not end the session. -/
structure Quiet : Prop where
  moves : (call.raised session).filterMap DomainEvent.move =
    (call.entries session).filterMap Entry.move
  events : ∀ e ∈ call.raised session, e.isEnding = false
  completedAt : (call.run session).2.completedAt = session.completedAt

theorem quiet_of_raised (hop : call.op ≠ .takeEvents)
    (h : session.Raised ((call.entries session).filterMap Entry.move) (call.run session).2) :
    call.Quiet session := by
  obtain ⟨⟨events, hp, hm, hq⟩, hc⟩ := h
  have hr := call.raised_eq session hop hp
  exact ⟨by rw [hr, hm], by rwa [hr], hc⟩

theorem filterMap_move_entry {α : Type} (f : α → Value) (r : DomainResult α × StreamSession)
    (entry : Entry) : ((finish f r).1.entry entry).filterMap Entry.move =
      StreamSession.movesOf r.1 entry.move.toList := by
  obtain ⟨_ | _, session'⟩ := r
  · rfl
  · cases he : entry.move <;> simp [finish, Reply.ofResult, Reply.entry, StreamSession.movesOf, he]

theorem filterMap_move_frames (showFloat : Float → String) (frames : List Frame) :
    (frames.map (Frame.entry showFloat)).filterMap Entry.move = [] := by
  simp [Frame.entry, Entry.move]

/-- A call that makes one entry or none. -/
theorem quiet_of_entry {α : Type} {f : α → Value} {r : DomainResult α × StreamSession}
    {entry : Entry} (hop : call.op ≠ .takeEvents) (hrun : call.run session = finish f r)
    (hentries : call.entries session = (finish f r).1.entry entry)
    (h : session.Raised (StreamSession.movesOf r.1 entry.move.toList) r.2) :
    call.Quiet session := by
  refine call.quiet_of_raised session hop ?_
  rw [hentries, filterMap_move_entry, hrun]
  exact h

/-- A call that makes no entries but those of frames. -/
theorem quiet_of_frames {frames : List Frame} (hop : call.op ≠ .takeEvents)
    (hentries : call.entries session = frames.map (Frame.entry call.env.showFloat))
    (h : session.Raised [] (call.run session).2) : call.Quiet session := by
  refine call.quiet_of_raised session hop ?_
  rw [hentries, filterMap_move_frames]
  exact h

/-- A call that does not end the session is quiet. -/
theorem quiet (hends : ¬ call.EndsSession session) : call.Quiet session := by
  obtain ⟨env, op⟩ := call
  cases op with
  | activate =>
    refine quiet_of_entry _ _ (by simp) rfl rfl ?_
    have h := session.activate_raised env
    generalize session.activate env = r at h ⊢
    obtain ⟨_ | _, session'⟩ := r <;> exact h
  | createStream data =>
    exact quiet_of_entry _ _ (by simp) rfl rfl (session.createStream_raised env data)
  | createStreamWithConfig data config =>
    exact quiet_of_entry _ _ (by simp) rfl rfl
      (session.createStreamWithConfig_raised env data config)
  | updateStreamConfig id config =>
    exact quiet_of_frames _ _ (by simp) rfl (session.updateStreamConfig_raised env id config)
  | startStream id => exact quiet_of_entry _ _ (by simp) rfl rfl (session.startStream_raised env id)
  | completeStream id =>
    exact quiet_of_entry _ _ (by simp) rfl rfl (session.completeStream_raised env id)
  | failStream id error =>
    exact quiet_of_entry _ _ (by simp) rfl rfl (session.failStream_raised env id error)
  | createStreamPatchFrames id threshold maxFrames =>
    exact quiet_of_frames _ _ (by simp) rfl
      (session.createStreamPatchFrames_raised env id threshold maxFrames)
  | commitPatchFramesForStream id patches maxFrames =>
    exact quiet_of_frames _ _ (by simp) rfl
      (session.commitPatchFramesForStream_raised env id patches maxFrames)
  | createPriorityFrames threshold batchSize =>
    exact quiet_of_frames _ _ (by simp) rfl (session.commitPriorityFrames_raised env _ batchSize)
  | commitPriorityFrames extracted batchSize =>
    exact quiet_of_frames _ _ (by simp) rfl
      (session.commitPriorityFrames_raised env extracted batchSize)
  | close =>
    rcases session.close_cases env with ⟨-, e, herr⟩ | ⟨a, session', -, htook⟩
    · refine quiet_of_raised _ _ (by simp) ?_
      simp only [entries, run, finish, herr]
      exact .silent rfl rfl
    · exact absurd (Or.inl ⟨rfl, htook.allowed⟩) hends
  | forceCloseExpired =>
    rcases session.forceCloseExpired_cases env with ⟨-, hok⟩ | ⟨hexpired, -⟩
    · refine quiet_of_raised _ _ (by simp) ?_
      simp only [entries, run, finish, hok]
      exact .silent rfl rfl
    · exact absurd (Or.inr ⟨rfl, hexpired⟩) hends
  | extendTimeout seconds =>
    refine quiet_of_frames _ _ (by simp) rfl ?_
    cases hr : session.extendTimeout env seconds with
    | none =>
      simp only [run, hr]
      exact .silent rfl rfl
    | some r =>
      simp only [run, hr]
      exact session.extendTimeout_raised env hr
  | setClientInfo info agent address =>
    exact quiet_of_frames _ _ (by simp) rfl (.silent rfl rfl)
  | takeEvents => exact ⟨rfl, by simp [raised], rfl⟩

/-- A close raises one event, about the session. -/
theorem close_raises (env : SessionEnv) (hs : session.state = .active) :
    ∃ t, raised ⟨env, .close⟩ session = [.sessionClosed session.id t] := by
  refine ⟨env.now 2, raised_eq _ _ (by simp) ?_⟩
  simp only [run, finish, StreamSession.close, hs]
  rfl

/-- So does a forced close. -/
theorem forceCloseExpired_raises (env : SessionEnv)
    (hexpired : session.isExpired (env.now 0) = true) :
    ∃ t, raised ⟨env, .forceCloseExpired⟩ session =
      [.sessionTimedOut session.id session.state session.config.sessionTimeoutSeconds t] := by
  refine ⟨env.now 3, raised_eq _ _ (by simp) ?_⟩
  simp only [run, finish, StreamSession.forceCloseExpired, hexpired]
  rfl

theorem history_append (calls rest : List Call) :
    history session (calls ++ rest) =
      history session calls ++ history (after session calls) rest := by
  induction calls generalizing session with
  | nil => rfl
  | cons call calls ih =>
    rw [List.cons_append, history, history, ih, List.append_assoc]
    rfl

theorem history_snoc (calls : List Call) : history session (calls ++ [call]) =
    history session calls ++ call.raised (after session calls) := by
  rw [history_append]
  simp [history]

end Events

variable {config : SessionConfig} {sessionId : SessionId} {now : DateTime}
  {session : StreamSession}

theorem ledger_steps_of_quiet (call : Call) (hk : WellKeyed session.streams)
    (hends : ¬ call.EndsSession session) :
    Steps session.ledger (call.entries session) (call.run session).2.ledger ∧
      ∀ e ∈ call.entries session, ¬ e.Ends := by
  refine ⟨(call.refines hk).1, fun e hmem he => ?_⟩
  exact hends (call.endsSession_of_mem_entries session hmem he)

section Narration

/-- Events tell the state of every stream. -/
def Narrated (events : List DomainEvent) (session : StreamSession) : Prop :=
  ∀ id, (session.streams.get? id).map Stream.state = stateByEvents id events

theorem narrated_iff_told {events : List DomainEvent} :
    Narrated events session ↔ Ledger.Told (events.filterMap DomainEvent.move) session.ledger := by
  refine forall_congr' fun id => ?_
  change _ ↔ ((session.streams.mapVal Stream.row).get? id).map Row.state = _
  rw [AssocMap.get?_mapVal, Option.map_map]
  rfl

/-- What a call that does not end the session raises tells what it did. -/
theorem narrated_run (call : Call) {events : List DomainEvent} (hk : WellKeyed session.streams)
    (h : Narrated events session) (hends : ¬ call.EndsSession session) :
    Narrated (events ++ call.raised session) (call.run session).2 := by
  obtain ⟨hsteps, hquiet⟩ := ledger_steps_of_quiet call hk hends
  rw [narrated_iff_told] at h ⊢
  rw [List.filterMap_append, (call.quiet session hends).moves]
  exact h.steps hsteps hquiet

/-- A close tells nothing of the streams it cancels. -/
theorem narrated_close_iff (env : SessionEnv) {events : List DomainEvent}
    (hs : session.state = .active) (h : Narrated events session) :
    Narrated (events ++ raised ⟨env, .close⟩ session) (run ⟨env, .close⟩ session).2 ↔
      session.activeCount = 0 := by
  obtain ⟨t, hraised⟩ := close_raises session env hs
  have htook : session.Took .close (run ⟨env, .close⟩ session).2 := by
    rcases session.close_cases env with ⟨hne, -⟩ | ⟨a, session', hok, htook⟩
    · exact absurd hs hne
    · simpa only [run, finish, hok] using htook
  have hmoves : (events ++ [DomainEvent.sessionClosed session.id t]).filterMap DomainEvent.move =
      events.filterMap DomainEvent.move := by
    rw [List.filterMap_append]
    exact List.append_nil _
  rw [narrated_iff_told] at h ⊢
  rw [hraised, hmoves, htook.ledger, ← session.total_active]
  exact Ledger.told_close_iff h

/-- In a run without a forced close the events tell the streams' states all along exactly if the
session is never closed while a stream is active. -/
theorem narrated_iff (h : StreamSession.withTimeProvider config sessionId now = some session)
    (calls : List Call) (hforce : ∀ call ∈ calls, call.op ≠ .forceCloseExpired) :
    (∀ before, before <+: calls → Narrated (history session before) (after session before)) ↔
      ∀ before call, before ++ [call] <+: calls → call.op = .close →
        (after session before).state = .active → (after session before).activeCount = 0 := by
  constructor
  · rintro hall before ⟨env, op⟩ hpre rfl hs
    have hbefore := hall before ((List.prefix_append before _).trans hpre)
    have hafter := hall _ hpre
    rw [history_snoc, after_append] at hafter
    exact (narrated_close_iff env hs hbefore).mp hafter
  · intro hidle before hpre
    induction before using List.reverseRecOn with
    | nil =>
      rw [narrated_iff_told]
      intro id
      change (session.ledger.rows.get? id).map Row.state = _
      rw [(ledger_withTimeProvider h).1]
      rfl
    | append_singleton before call ih =>
      have hbefore := ih ((List.prefix_append before [call]).trans hpre)
      rw [history_snoc, after_append]
      by_cases hends : call.EndsSession (after session before)
      · obtain ⟨env, op⟩ := call
        rcases hends with ⟨rfl, hs⟩ | ⟨hop, -⟩
        · exact (narrated_close_iff env hs hbefore).mpr (hidle before _ hpre rfl hs)
        · exact absurd hop (hforce _ (hpre.subset (by simp)))
      · exact narrated_run call (wellKeyed_of_run h before) hbefore hends

theorem narrated_iff_opening :
    let session := StreamSession.atEpoch
    let calls := opening ⟨1⟩ .epoch ++ [⟨.still ⟨1⟩ .epoch, .completeStream ⟨1⟩⟩,
      ⟨.still ⟨1⟩ .epoch, .close⟩]
    (∀ before, before <+: calls → Narrated (history session before) (after session before)) ↔
      ∀ before call, before ++ [call] <+: calls → call.op = .close →
        (after session before).state = .active → (after session before).activeCount = 0 := by
  refine narrated_iff StreamSession.withTimeProvider_atEpoch _ ?_
  simp [opening]

/-- A close cancels the stream that was started, and the events go on telling that it streams. -/
theorem close_not_narrated :
    let session := StreamSession.atEpoch
    let calls := opening ⟨1⟩ .epoch ++ [⟨.still ⟨1⟩ .epoch, .close⟩]
    (∀ call ∈ calls, call.op ≠ .forceCloseExpired) ∧
    ((after session calls).streams.get? ⟨1⟩).map Stream.state = some .cancelled ∧
    stateByEvents ⟨1⟩ (history session calls) = some .streaming ∧
    ¬ Narrated (history session calls) (after session calls) := by
  refine ⟨by simp [opening], rfl, rfl, fun h => ?_⟩
  cases h ⟨1⟩

end Narration

section Endings

/-- A forced close of an expired session that had ended before. -/
def reclosed (call : Call) (session : StreamSession) : Bool :=
  match call.op with
  | .forceCloseExpired => session.isExpired (call.env.now 0) && session.completedAt.isSome
  | _ => false

/-- How often a run closes a session by force that had ended before. -/
def reclosings : StreamSession → List Call → ℕ
  | _, [] => 0
  | session, call :: calls =>
    (call.reclosed session).toNat + reclosings (call.run session).2 calls

/-- The end of a session is dated. -/
def Dated (session : StreamSession) : Prop :=
  session.completedAt.isSome = true ↔ session.ledger.Ended

/-- The call closes an expired session by force. -/
def Forces (call : Call) (session : StreamSession) : Prop :=
  call.op = .forceCloseExpired ∧ session.isExpired (call.env.now 0) = true

theorem reclosings_append (calls rest : List Call) :
    reclosings session (calls ++ rest) =
      reclosings session calls + reclosings (after session calls) rest := by
  induction calls generalizing session with
  | nil => exact (Nat.zero_add _).symm
  | cons call calls ih =>
    rw [List.cons_append, reclosings, reclosings, ih, Nat.add_assoc]
    rfl

/-- What a call adds to the endings of a session. -/
structure Ending (call : Call) (session : StreamSession) : Prop where
  dated : Dated (call.run session).2
  endings : (call.raised session).countP DomainEvent.isEnding + session.completedAt.isSome.toNat =
    (call.run session).2.completedAt.isSome.toNat + (call.reclosed session).toNat
  closings : (call.raised session).countP DomainEvent.isClosed + session.completedAt.isSome.toNat ≤
    (call.run session).2.completedAt.isSome.toNat
  completedAt : session.completedAt ≠ none →
    (call.run session).2.completedAt = session.completedAt ∨ call.Forces session
  state : session.ledger.Ended → (call.run session).2.state = session.state ∨
    call.Forces session ∧ (call.run session).2.state = .failed

theorem ending_close (env : SessionEnv) (h : Dated session) (hs : session.state = .active) :
    Ending ⟨env, .close⟩ session := by
  obtain ⟨t, hraised⟩ := close_raises session env hs
  have hopen : ¬ session.ledger.Ended := by
    rintro (hp | hp) <;> cases hs.symm.trans hp
  have hnone : session.completedAt = none := by
    rw [← Option.not_isSome_iff_eq_none]
    exact fun hsome => hopen (h.mp hsome)
  have hafter : (run ⟨env, .close⟩ session).2.completedAt = some (env.now 0) := by
    simp only [run, finish, StreamSession.close, hs]
    rfl
  have hstate : (run ⟨env, .close⟩ session).2.state = .completed := by
    simp only [run, finish, StreamSession.close, hs]
    rfl
  constructor
  · exact iff_of_true (by rw [hafter]; rfl) (Or.inl hstate)
  · rw [hraised, hnone, hafter]
    rfl
  · rw [hraised, hnone, hafter]
    exact le_refl 1
  · exact fun hne => absurd hnone hne
  · exact fun hended => absurd hended hopen

theorem ending_forceCloseExpired (env : SessionEnv)
    (hexpired : session.isExpired (env.now 0) = true) :
    Ending ⟨env, .forceCloseExpired⟩ session := by
  obtain ⟨t, hraised⟩ := forceCloseExpired_raises session env hexpired
  have hforces : Forces ⟨env, .forceCloseExpired⟩ session := ⟨rfl, hexpired⟩
  have hafter : (run ⟨env, .forceCloseExpired⟩ session).2.completedAt = some (env.now 1) := by
    simp only [run, finish, StreamSession.forceCloseExpired, hexpired]
    rfl
  have hstate : (run ⟨env, .forceCloseExpired⟩ session).2.state = .failed := by
    simp only [run, finish, StreamSession.forceCloseExpired, hexpired]
    rfl
  have hreclosed : reclosed ⟨env, .forceCloseExpired⟩ session = session.completedAt.isSome := by
    simp [reclosed, hexpired]
  constructor
  · exact iff_of_true (by rw [hafter]; rfl) (Or.inr hstate)
  · rw [hraised, hafter, hreclosed]
    rfl
  · rw [hraised, hafter]
    cases session.completedAt <;> simp [DomainEvent.isClosed]
  · exact fun _ => Or.inr hforces
  · exact fun _ => Or.inr ⟨hforces, hstate⟩

theorem reclosed_eq_false (call : Call) (hends : ¬ call.EndsSession session) :
    call.reclosed session = false := by
  obtain ⟨env, op⟩ := call
  cases op with
  | forceCloseExpired =>
    have hexpired : session.isExpired (env.now 0) = false := by
      rw [← Bool.not_eq_true]
      exact fun hexpired => hends (Or.inr ⟨rfl, hexpired⟩)
    simp [reclosed, hexpired]
  | _ => rfl

theorem ending_of_not_endsSession (call : Call) (hk : WellKeyed session.streams) (h : Dated session)
    (hends : ¬ call.EndsSession session) : call.Ending session := by
  obtain ⟨hsteps, hquiet⟩ := ledger_steps_of_quiet call hk hends
  obtain ⟨-, hevents, hcompleted⟩ := call.quiet session hends
  have hending : (call.raised session).countP DomainEvent.isEnding = 0 := by
    rw [List.countP_eq_zero]
    intro e he
    simp [hevents e he]
  have hclosed : (call.raised session).countP DomainEvent.isClosed = 0 := by
    rw [List.countP_eq_zero]
    intro e he hclosed
    cases (hevents e he).symm.trans (DomainEvent.isEnding_of_isClosed hclosed)
  have hphase := Ledger.phase_of_steps hsteps hquiet
  have hended : session.ledger.Ended →
      (call.run session).2.ledger.phase = session.ledger.phase := by
    intro hended
    refine hphase.resolve_right fun hinit => ?_
    rcases hended with hp | hp <;> cases hp.symm.trans hinit.1
  constructor
  · unfold Dated at h ⊢
    rw [hcompleted, h]
    constructor
    · intro he
      unfold Ledger.Ended
      rw [hended he]
      exact he
    · intro he
      unfold Ledger.Ended at he ⊢
      rcases hphase with hp | ⟨-, hp⟩
      · rwa [← hp]
      · rcases he with he | he <;> cases hp.symm.trans he
  · rw [hending, hcompleted, reclosed_eq_false call hends]
    exact Nat.zero_add _
  · rw [hclosed, hcompleted, Nat.zero_add]
  · exact fun _ => Or.inl hcompleted
  · exact fun he => Or.inl (hended he)

theorem ending (call : Call) (hk : WellKeyed session.streams) (h : Dated session) :
    call.Ending session := by
  by_cases hends : call.EndsSession session
  · obtain ⟨env, op⟩ := call
    rcases hends with ⟨rfl, hs⟩ | ⟨rfl, hexpired⟩
    · exact ending_close env h hs
    · exact ending_forceCloseExpired env hexpired
  · exact ending_of_not_endsSession call hk h hends

/-- The end of a session is dated in every run, and the events that announce it are counted. -/
theorem endings_of_run (h : StreamSession.withTimeProvider config sessionId now = some session)
    (calls : List Call) : Dated (after session calls) ∧
      (history session calls).countP DomainEvent.isEnding =
        (after session calls).completedAt.isSome.toNat + reclosings session calls ∧
      (history session calls).countP DomainEvent.isClosed ≤
        (after session calls).completedAt.isSome.toNat := by
  induction calls using List.reverseRecOn with
  | nil =>
    unfold StreamSession.withTimeProvider at h
    obtain ⟨expiresAt, -, hsome⟩ := Option.bind_eq_some_iff.mp h
    cases hsome
    refine ⟨iff_of_false (by simp [after]) ?_, rfl, le_refl 0⟩
    rintro (hp | hp) <;> cases hp
  | append_singleton calls call ih =>
    obtain ⟨hdated, hcount, hclosed⟩ := ih
    have hend := call.ending (wellKeyed_of_run h calls) hdated
    have hafter : after session (calls ++ [call]) = (call.run (after session calls)).2 :=
      after_append session calls [call]
    have hreclosings : reclosings session (calls ++ [call]) =
        reclosings session calls + (call.reclosed (after session calls)).toNat :=
      reclosings_append calls [call]
    rw [hafter, history_snoc, hreclosings, List.countP_append, List.countP_append]
    have he := hend.endings
    have hc := hend.closings
    refine ⟨hend.dated, ?_, ?_⟩ <;> omega

/-- A session ends once, and again whenever it is closed by force after that; it is closed by
request at most once. Nothing but a forced close dates it anew, and what has ended stays as it is
or fails. -/
theorem ends_once (h : StreamSession.withTimeProvider config sessionId now = some session)
    (calls : List Call) :
    (history session calls).countP DomainEvent.isEnding =
      (if (after session calls).completedAt.isSome then 1 else 0) + reclosings session calls ∧
    (history session calls).countP DomainEvent.isClosed ≤ 1 ∧
    ∀ before call, before ++ [call] <+: calls →
      ((after session before).completedAt ≠ none →
        (after session (before ++ [call])).completedAt = (after session before).completedAt ∨
        call.Forces (after session before)) ∧
      ((after session before).state = .completed ∨ (after session before).state = .failed →
        (after session (before ++ [call])).state = (after session before).state ∨
        call.Forces (after session before) ∧
          (after session (before ++ [call])).state = .failed) := by
  obtain ⟨-, hcount, hclosed⟩ := endings_of_run h calls
  refine ⟨?_, hclosed.trans (Bool.toNat_le _), fun before call hpre => ?_⟩
  · rw [hcount]
    cases (after session calls).completedAt <;> rfl
  · have hend := call.ending (wellKeyed_of_run h before) (endings_of_run h before).1
    rw [after_append]
    exact ⟨hend.completedAt, hend.state⟩

theorem ends_once_opening :
    let session := StreamSession.atEpoch
    let late : DateTime := ⟨3601000000000, by decide, by decide⟩
    let calls := opening ⟨1⟩ .epoch ++ [⟨.still ⟨1⟩ .epoch, .close⟩,
      ⟨.still ⟨1⟩ late, .forceCloseExpired⟩]
    reclosings session calls = 1 ∧
    (history session calls).countP DomainEvent.isEnding =
      (if (after session calls).completedAt.isSome then 1 else 0) + reclosings session calls ∧
    (history session calls).countP DomainEvent.isClosed ≤ 1 ∧
    ∀ before call, before ++ [call] <+: calls →
      ((after session before).completedAt ≠ none →
        (after session (before ++ [call])).completedAt = (after session before).completedAt ∨
        call.Forces (after session before)) ∧
      ((after session before).state = .completed ∨ (after session before).state = .failed →
        (after session (before ++ [call])).state = (after session before).state ∨
        call.Forces (after session before) ∧
          (after session (before ++ [call])).state = .failed) :=
  ⟨rfl, ends_once StreamSession.withTimeProvider_atEpoch _⟩

/-- A session that was closed and expires is closed by force as well: it ends twice, at two times,
and goes from completed to failed. -/
theorem closed_then_forced :
    let session := StreamSession.atEpoch
    let late : DateTime := ⟨3601000000000, by decide, by decide⟩
    let closed := after session (opening ⟨1⟩ .epoch ++ [⟨.still ⟨1⟩ .epoch, .close⟩])
    let calls := opening ⟨1⟩ .epoch ++ [⟨.still ⟨1⟩ .epoch, .close⟩,
      ⟨.still ⟨1⟩ late, .forceCloseExpired⟩]
    DateTime.epoch < late ∧
    (history session calls).countP DomainEvent.isEnding = 2 ∧
    closed.completedAt = some .epoch ∧ (after session calls).completedAt = some late ∧
    closed.state = .completed ∧ (after session calls).state = .failed := by
  refine ⟨by decide, rfl, rfl, rfl, rfl, rfl⟩

end Endings

end Call

end PJS
