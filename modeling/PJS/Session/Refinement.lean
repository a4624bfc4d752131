import PJS.Session.Calls

/-! A session keeps its ledger: every call is a legal sequence of ledger entries. -/
namespace PJS

open Ledger (Entry Steps)

/-- The entry of a committed frame. -/
def Frame.entry (showFloat : Float → String) (frame : Frame) : Entry :=
  .emit frame.streamId frame.sequence (frame.estimatedSize showFloat)

/-- Committing frames is emitting them one by one. -/
theorem Commits.steps {showFloat : Float → String} {m m' : AssocMap StreamId Stream}
    {frames : List Frame} (h : Commits showFloat m frames m') {l : Ledger}
    (hl : l.rows = m.mapVal Stream.row) :
    Steps l (frames.map (Frame.entry showFloat)) { l with
      rows := m'.mapVal Stream.row
      frames := l.frames + frames.length
      bytes := l.bytes + (frames.map fun f => f.estimatedSize showFloat).sum } := by
  induction h generalizing l with
  | nil m =>
    rw [← hl]
    exact .nil
  | @cons m m' stream stream' frame frames hget hcommit _ ih =>
    have hrow : l.rows.get? frame.streamId = some stream.row := by
      rw [hl, AssocMap.get?_mapVal, hget, Option.map_some]
    have hallowed : l.Allowed (frame.entry showFloat) :=
      ⟨stream.row, hrow, hcommit.streaming, hcommit.sequence⟩
    have hrows : (l.post (frame.entry showFloat)).rows =
        (m.insert frame.streamId stream').mapVal Stream.row := by
      rw [AssocMap.mapVal_insert, hcommit.row, ← hl]
      exact AssocMap.modify_of_get? hrow _
    have hrest := ih hrows
    rw [List.map_cons, List.map_cons, List.sum_cons, List.length_cons]
    refine .cons hallowed ?_
    simp only [Ledger.post, Frame.entry, Nat.add_assoc, Nat.add_comm 1] at hrest ⊢
    exact hrest

namespace StreamSession

/-- The books of a session. -/
def ledger (session : StreamSession) : Ledger where
  phase := session.state
  rows := session.streams.mapVal Stream.row
  created := session.stats.totalStreams
  active := session.stats.activeStreams
  completed := session.stats.completedStreams
  failed := session.stats.failedStreams
  frames := session.stats.totalFrames
  bytes := session.stats.totalBytes

@[simp] theorem ledger_addEvent (session : StreamSession) (event : DomainEvent) :
    (session.addEvent event).ledger = session.ledger := rfl

@[simp] theorem ledger_updateTimestamp (session : StreamSession) (now : DateTime) :
    (session.updateTimestamp now).ledger = session.ledger := rfl

/-- The entry was legal and describes the change. -/
structure Took (session : StreamSession) (entry : Entry) (session' : StreamSession) : Prop where
  allowed : session.ledger.Allowed entry
  ledger : session'.ledger = session.ledger.post entry
  keyed : WellKeyed session.streams → WellKeyed session'.streams

/-- Nothing that the ledger records changed. -/
structure Kept (session session' : StreamSession) : Prop where
  ledger : session'.ledger = session.ledger
  keyed : WellKeyed session.streams → WellKeyed session'.streams

variable (env : SessionEnv)

section Streams
variable {session : StreamSession}

theorem get?_rows {id : StreamId} {stream : Stream} (h : session.streams.get? id = some stream) :
    session.ledger.rows.get? id = some stream.row := by
  change (session.streams.mapVal Stream.row).get? id = _
  rw [AssocMap.get?_mapVal, h, Option.map_some]

/-- Writing a stream back changes its row. -/
theorem rows_insert {id : StreamId} {stream stream' : Stream} {f : Row → Row}
    (h : session.streams.get? id = some stream) (hf : stream'.row = f stream.row) :
    (session.streams.insert id stream').mapVal Stream.row = session.ledger.rows.modify id f := by
  rw [AssocMap.mapVal_insert, AssocMap.modify_of_get? (get?_rows h), hf]
  rfl

/-- Writing back a stream that moved is the entry of the move. -/
theorem rows_moved {id : StreamId} {stream stream' : Stream} {state : StreamState}
    (hget : session.streams.get? id = some stream) (hmoved : stream.Moved state stream') :
    (session.streams.insert id stream').mapVal Stream.row =
      session.ledger.rows.modify id fun r => { r with state } :=
  rows_insert hget hmoved.row

/-- A method that fails without effect on a stream fails without effect on the session. -/
theorem withStream_cases (session : StreamSession) {α : Type} {f : Stream → DomainResult α × Stream}
    {P : Stream → α → Stream → Prop}
    (hf : ∀ stream, (∃ e, f stream = (.error e, stream)) ∨
      ∃ a stream', f stream = (.ok a, stream') ∧ P stream a stream') (id : StreamId) :
    (∃ e, session.withStream id f = (.error e, session)) ∨
    ∃ stream a stream', session.streams.get? id = some stream ∧ P stream a stream' ∧
      session.withStream id f =
        (.ok a, { session with streams := session.streams.insert id stream' }) := by
  unfold withStream
  cases hget : session.streams.get? id with
  | none => exact Or.inl ⟨_, rfl⟩
  | some stream =>
    rcases hf stream with ⟨e, he⟩ | ⟨a, stream', ha, hP⟩
    · left
      refine ⟨e, ?_⟩
      simp only [he, AssocMap.insert_of_get? hget]
    · exact Or.inr ⟨stream, a, stream', rfl, hP, by simp only [ha]⟩

end Streams

section Lifecycle
variable (session : StreamSession)

theorem activate_cases : (∃ e, session.activate env = (.error e, session)) ∨
    ∃ a session', session.activate env = (.ok a, session') ∧
      session.Took .activate session' := by
  unfold activate
  split
  · rename_i h
    exact Or.inr ⟨(), _, rfl, h, rfl, fun hk => hk⟩
  · exact Or.inl ⟨_, rfl⟩

theorem createStream_cases (data : DataDocument) :
    (∃ e, session.createStream env data = (.error e, session) ∧
      ¬ (session.isActive (env.now 0) = true ∧
        session.streams.size < session.config.maxConcurrentStreams)) ∨
    (session.isActive (env.now 0) = true ∧
      session.streams.size < session.config.maxConcurrentStreams) ∧
      ∃ session', session.createStream env data = (.ok env.uuid, session') ∧
        session.Took (.create env.uuid) session' := by
  unfold createStream
  split_ifs with hactive hsize
  · exact Or.inl ⟨_, rfl, fun h => by simp [h.1] at hactive⟩
  · exact Or.inl ⟨_, rfl, fun h => absurd h.2 (not_lt.mpr hsize)⟩
  · rw [Bool.not_eq_true', Bool.not_eq_false] at hactive
    refine Or.inr ⟨⟨hactive, not_le.mp hsize⟩, _, rfl, ?_, ?_, fun hk => hk.insert rfl⟩
    · simp only [isActive, Bool.and_eq_true, beq_iff_eq] at hactive
      exact hactive.1
    · simp only [ledger_addEvent, ledger_updateTimestamp]
      simp only [ledger, Ledger.post, AssocMap.mapVal_insert]
      rfl

theorem updateStreamConfig_cases (id : StreamId) (config : StreamConfig) :
    (∃ e, session.updateStreamConfig env id config = (.error e, session) ∧
      ∀ stream, session.streams.get? id = some stream → stream.isActive = false) ∨
    ∃ a session', session.updateStreamConfig env id config = (.ok a, session') ∧
      session.Kept session' := by
  unfold updateStreamConfig withStream
  cases hget : session.streams.get? id with
  | none => exact Or.inl ⟨_, rfl, by simp⟩
  | some stream =>
    rcases stream.updateConfig_cases env.toEnv config with ⟨e, he, hne⟩ | ⟨a, stream', ha, hrow, hid⟩
    · left
      refine ⟨e, ?_, by simpa using hne⟩
      simp only [he, AssocMap.insert_of_get? hget]
    · right
      simp only [ha]
      refine ⟨(), _, rfl, ?_, fun hk => hk.insert (hid.trans (hk id stream hget))⟩
      simp only [ledger_addEvent, ledger_updateTimestamp]
      simp only [ledger, AssocMap.mapVal_insert, hrow]
      congr 1
      exact AssocMap.insert_of_get? (get?_rows hget)

theorem createStreamWithConfig_cases (data : DataDocument) (config : Option StreamConfig) :
    (∃ e, session.createStreamWithConfig env data config = (.error e, session)) ∨
    ∃ a session', session.createStreamWithConfig env data config = (.ok a, session') ∧
      session.Took (.create env.uuid) session' := by
  unfold createStreamWithConfig
  rcases session.createStream_cases env data with ⟨e, he, -⟩ | ⟨-, session₁, hok, htook⟩
  · exact Or.inl ⟨e, by simp only [he]⟩
  · right
    simp only [hok]
    cases config with
    | none => exact ⟨_, _, rfl, htook⟩
    | some config =>
      rcases session₁.updateStreamConfig_cases (afterCreate env) env.uuid config with
        ⟨e, -, hne⟩ | ⟨a, session₂, hok₂, hkept⟩
      · -- a new stream is active, so its configuration can be set
        have hrow : session₁.ledger.rows.get? env.uuid = some Row.fresh := by
          rw [htook.ledger]
          exact AssocMap.get?_insert_self _ _ _
        change (session₁.streams.mapVal Stream.row).get? env.uuid = _ at hrow
        rw [AssocMap.get?_mapVal, Option.map_eq_some_iff] at hrow
        obtain ⟨stream, hget, hfresh⟩ := hrow
        have hactive := hne stream hget
        rw [Stream.isActive_eq, show stream.state = .preparing from congrArg Row.state hfresh]
          at hactive
        cases hactive
      · simp only [hok₂]
        refine ⟨_, _, rfl, htook.allowed, hkept.ledger.trans htook.ledger, fun hk => ?_⟩
        exact hkept.keyed (htook.keyed hk)

theorem startStream_cases (id : StreamId) :
    (∃ e, session.startStream env id = (.error e, session)) ∨
    ∃ a session', session.startStream env id = (.ok a, session') ∧
      session.Took (.start id) session' := by
  unfold startStream
  rcases session.withStream_cases (fun stream => stream.startStreaming_cases env.toEnv)
    id with ⟨e, he⟩ | ⟨stream, a, stream', hget, ⟨hs, hmoved⟩, hok⟩
  · exact Or.inl ⟨e, by simp only [he]⟩
  · right
    simp only [hok]
    refine ⟨(), _, rfl, ⟨_, get?_rows hget, hs⟩, ?_, fun hk =>
      hk.insert (hmoved.id.trans (hk id stream hget))⟩
    simp only [ledger_addEvent, ledger_updateTimestamp]
    simp only [ledger, rows_moved hget hmoved]
    rfl

theorem failStream_cases (id : StreamId) (error : String) :
    (∃ e, session.failStream env id error = (.error e, session)) ∨
    ∃ a session', session.failStream env id error = (.ok a, session') ∧
      session.Took (.fail id) session' := by
  unfold failStream
  rcases session.withStream_cases (fun stream => stream.fail_cases env.toEnv error)
    id with ⟨e, he⟩ | ⟨stream, a, stream', hget, ⟨hs, hmoved⟩, hok⟩
  · exact Or.inl ⟨e, by simp only [he]⟩
  · right
    simp only [hok]
    refine ⟨(), _, rfl, ⟨_, get?_rows hget, hs⟩, ?_, fun hk =>
      hk.insert (hmoved.id.trans (hk id stream hget))⟩
    simp only [ledger_addEvent, ledger_updateTimestamp]
    simp only [ledger, rows_moved hget hmoved]
    rfl

theorem completeTimed_cases (env : Env) (stream : Stream) :
    (∃ e, completeTimed env stream = (.error e, stream)) ∨
    ∃ a stream', completeTimed env stream = (.ok a, stream') ∧
      stream.state = .streaming ∧ stream.Moved .completed stream' := by
  unfold completeTimed
  rcases stream.complete_cases env with ⟨e, he⟩ | ⟨a, stream', ha, h⟩
  · exact Or.inl ⟨e, by rw [he]⟩
  · exact Or.inr ⟨stream'.duration, stream', by rw [ha], h⟩

theorem completeStream_cases (id : StreamId) :
    (∃ e, session.completeStream env id = (.error e, session)) ∨
    ∃ a session', session.completeStream env id = (.ok a, session') ∧
      session.Took (.complete id) session' := by
  unfold completeStream
  rcases session.withStream_cases (completeTimed_cases env.toEnv) id with
    ⟨e, he⟩ | ⟨stream, duration, stream', hget, ⟨hs, hmoved⟩, hok⟩
  · exact Or.inl ⟨e, by simp only [he]⟩
  · right
    simp only [hok]
    refine ⟨(), _, rfl, ⟨_, get?_rows hget, hs⟩, ?_, fun hk =>
      hk.insert (hmoved.id.trans (hk id stream hget))⟩
    simp only [ledger_addEvent, ledger_updateTimestamp]
    simp only [ledger, rows_moved hget hmoved]
    cases duration with
    | none => rfl
    | some durationMs => rfl

/-- Cancelling streams one by one cancels their rows. -/
theorem get?_cancelStreams (env : Env) (m : AssocMap StreamId Stream) (ids : List StreamId)
    (id : StreamId) :
    ((cancelStreams env m ids).get? id).map Stream.row =
      (m.get? id).map fun stream => if id ∈ ids then stream.row.cancel else stream.row := by
  induction ids generalizing env m with
  | nil => simp [cancelStreams]
  | cons j ids ih =>
    rw [cancelStreams]
    cases hget : m.get? j with
    | none =>
      simp only
      rw [ih]
      by_cases hj : id = j
      · rw [hj, hget]
        rfl
      · simp [hj]
    | some stream =>
      simp only
      rw [ih, AssocMap.get?_insert]
      by_cases hj : id = j
      · subst hj
        rw [if_pos rfl, hget]
        simp only [Option.map_some, List.mem_cons, true_or, if_true, Stream.row_cancel]
        split_ifs
        · rw [Row.cancel_of_not_isActive (Row.active_eq_zero_iff.mp stream.row.active_cancel)]
        · rfl
      · rw [if_neg hj]
        simp [hj]

theorem keys_cancelStreams (env : Env) (m : AssocMap StreamId Stream) (ids : List StreamId) :
    (cancelStreams env m ids).keys = m.keys := by
  induction ids generalizing env m with
  | nil => rfl
  | cons j ids ih =>
    rw [cancelStreams]
    cases hget : m.get? j with
    | none => exact ih env m
    | some stream =>
      simp only
      rw [ih, AssocMap.keys_insert_of_get? hget]

theorem wellKeyed_cancelStreams (env : Env) {m : AssocMap StreamId Stream} (hm : WellKeyed m)
    (ids : List StreamId) : WellKeyed (cancelStreams env m ids) := by
  induction ids generalizing env m with
  | nil => exact hm
  | cons j ids ih =>
    rw [cancelStreams]
    cases hget : m.get? j with
    | none => exact ih env hm
    | some stream => exact ih _ (hm.insert ((stream.id_cancel env).trans (hm j stream hget)))

theorem close_cases :
    (session.state ≠ .active ∧ ∃ e, session.close env = (.error e, session)) ∨
    ∃ a session', session.close env = (.ok a, session') ∧ session.Took .close session' := by
  unfold close
  split
  · rename_i h
    refine Or.inr ⟨(), _, rfl, h, ?_, fun hk => wellKeyed_cancelStreams _ hk _⟩
    simp only [ledger_addEvent, ledger_updateTimestamp]
    simp only [ledger, Ledger.post]
    congr 1
    refine AssocMap.ext_get? ?_ fun id => ?_
    · rw [AssocMap.keys_mapVal, AssocMap.keys_mapVal, AssocMap.keys_mapVal, keys_cancelStreams]
    · rw [AssocMap.get?_mapVal, get?_cancelStreams, AssocMap.get?_mapVal, AssocMap.get?_mapVal,
        Option.map_map]
      -- the streams that are cancelled are the active ones
      cases hget : session.streams.get? id with
      | none => rfl
      | some stream =>
        simp only [Option.map_some, Function.comp_apply, Option.some.injEq]
        split_ifs with hmem
        · rfl
        · rw [Row.cancel_of_not_isActive]
          change stream.state.isActive = false
          rw [← Stream.isActive_eq]
          by_contra hactive
          apply hmem
          have hentry : (id, stream) ∈ env.order session.streams.entries :=
            (env.order_perm _).mem_iff.mpr (Assoc.mem_of_lookup hget)
          exact List.mem_map.mpr ⟨(id, stream), List.mem_filter.mpr
            ⟨hentry, by simpa using hactive⟩, rfl⟩
  · rename_i h
    exact Or.inl ⟨h, _, rfl⟩

theorem forceCloseExpired_cases :
    (session.isExpired (env.now 0) = false ∧
      session.forceCloseExpired env = (.ok false, session)) ∨
    session.isExpired (env.now 0) = true ∧
      ∃ session', session.forceCloseExpired env = (.ok true, session') ∧
        session.Took .wipe session' := by
  unfold forceCloseExpired
  split_ifs with h
  · exact Or.inl ⟨by simpa using h, rfl⟩
  · exact Or.inr ⟨by simpa using h, _, rfl, trivial, rfl, fun _ _ _ hget => by cases hget⟩

theorem extendTimeout_cases (seconds : UInt64) : session.extendTimeout env seconds = none ∨
    (∃ e, session.extendTimeout env seconds = some (.error e, session)) ∨
    ∃ a session', session.extendTimeout env seconds = some (.ok a, session') ∧
      session.Kept session' := by
  unfold extendTimeout
  split_ifs with h
  · exact Or.inr (Or.inl ⟨_, rfl⟩)
  · cases session.expiresAt.addSeconds? seconds.toInt64.toInt with
    | none => exact Or.inl rfl
    | some expiresAt => exact Or.inr (Or.inr ⟨(), _, rfl, rfl, fun hk => hk⟩)

end Lifecycle

section Frames

/-- The frames were committed, in this order, and the session counted them. -/
structure Emitted (showFloat : Float → String) (session : StreamSession) (frames : List Frame)
    (session' : StreamSession) : Prop where
  commits : WellKeyed session.streams → Commits showFloat session.streams frames session'.streams
  ledger : session'.ledger = { session.ledger with
    rows := session'.streams.mapVal Stream.row
    frames := session.ledger.frames + frames.length
    bytes := session.ledger.bytes + (frames.map fun f => f.estimatedSize showFloat).sum }

theorem Emitted.steps {showFloat : Float → String} {session session' : StreamSession}
    {frames : List Frame} (h : session.Emitted showFloat frames session')
    (hk : WellKeyed session.streams) :
    Steps session.ledger (frames.map (Frame.entry showFloat)) session'.ledger := by
  rw [h.ledger]
  exact (h.commits hk).steps rfl

@[simp] theorem streams_recordFrames (session : StreamSession) (frameCount bytes : ℕ) :
    (session.recordFrames env frameCount bytes).streams = session.streams := by
  unfold recordFrames
  simp only
  split_ifs <;> rfl

@[simp] theorem ledger_recordFrames (session : StreamSession) (frameCount bytes : ℕ) :
    (session.recordFrames env frameCount bytes).ledger = { session.ledger with
      frames := session.ledger.frames + frameCount
      bytes := session.ledger.bytes + bytes } := by
  unfold recordFrames
  simp only
  split_ifs <;> rfl

theorem commitMeasured_cases (env : Env) (patches : List (FramePatch × Priority)) (maxFrames : ℕ)
    (stream : Stream) :
    (stream.state ≠ .streaming ∧
      ∃ e, commitMeasured env patches maxFrames stream = (.error e, stream)) ∨
    stream.state = .streaming ∧ ∃ frames stream',
      commitMeasured env patches maxFrames stream =
        (.ok (frames, (frames.map fun f => f.estimatedSize env.showFloat).sum), stream') ∧
      frames.length = (Stream.chunkPatchesForCommit patches maxFrames).length ∧
      ∀ m, m.get? stream.id = some stream →
        Commits env.showFloat m frames (m.insert stream.id stream') := by
  unfold commitMeasured
  rcases stream.commitPatchFrames_cases env patches maxFrames with
    ⟨hs, e, he⟩ | ⟨hs, frames, stream', hok, hlen, -, hbytes, hcommits⟩
  · exact Or.inl ⟨hs, e, by simp only [he]⟩
  · refine Or.inr ⟨hs, frames, stream', ?_, hlen, hcommits⟩
    simp only [hok, hbytes, Nat.add_sub_cancel_left]

theorem commitPatchFramesForStream_cases (session : StreamSession) (id : StreamId)
    (patches : List (FramePatch × Priority)) (maxFrames : ℕ) :
    ((∃ e, session.commitPatchFramesForStream env id patches maxFrames = (.error e, session)) ∧
      ∀ stream, session.streams.get? id = some stream → stream.state ≠ .streaming) ∨
    ∃ stream frames session', session.streams.get? id = some stream ∧
      stream.state = .streaming ∧
      session.commitPatchFramesForStream env id patches maxFrames = (.ok frames, session') ∧
      frames.length = (Stream.chunkPatchesForCommit patches maxFrames).length ∧
      session.Emitted env.showFloat frames session' := by
  unfold commitPatchFramesForStream withStream
  cases hget : session.streams.get? id with
  | none => exact Or.inl ⟨⟨_, rfl⟩, by simp⟩
  | some stream =>
    rcases commitMeasured_cases env.toEnv patches maxFrames stream with
      ⟨hs, e, he⟩ | ⟨hs, frames, stream', hok, hlen, hcommits⟩
    · left
      refine ⟨⟨e, ?_⟩, by simpa using hs⟩
      simp only [he, AssocMap.insert_of_get? hget]
    · right
      simp only [hok]
      refine ⟨stream, frames, _, rfl, hs, rfl, hlen, fun hk => ?_, ?_⟩
      · have hid := hk id stream hget
        rw [streams_recordFrames]
        simpa only [hid] using hcommits session.streams (by rw [hid]; exact hget)
      · rw [ledger_recordFrames, streams_recordFrames]
        rfl

theorem createStreamPatchFrames_cases (session : StreamSession) (id : StreamId)
    (threshold : Priority) (maxFrames : ℕ) :
    (∃ e, session.createStreamPatchFrames env id threshold maxFrames = (.error e, session)) ∨
    ∃ patches, session.extractPrioritizedPatchesForStream id threshold = .ok patches ∧
      session.createStreamPatchFrames env id threshold maxFrames =
        session.commitPatchFramesForStream env id patches maxFrames := by
  unfold createStreamPatchFrames
  cases session.extractPrioritizedPatchesForStream id threshold with
  | error e => exact Or.inl ⟨e, rfl⟩
  | ok patches => exact Or.inr ⟨patches, rfl, rfl⟩

theorem commitPriorityFrames_cases (session : StreamSession) (extracted : Extracted)
    (batchSize : ℕ) :
    (session.isActive (env.now 0) = false ∧
      session.commitPriorityFrames env extracted batchSize = (.error notActive, session)) ∨
    session.isActive (env.now 0) = true ∧ ∃ frames session',
      session.commitPriorityFrames env extracted batchSize = (.ok frames, session') ∧
      frames.Perm (Call.batchCommits env session extracted batchSize) ∧
      session.Emitted env.showFloat (Call.batchCommits env session extracted batchSize)
        session' := by
  unfold commitPriorityFrames Call.batchCommits
  cases hactive : session.isActive (env.now 0) with
  | false => exact Or.inl ⟨rfl, rfl⟩
  | true =>
    set kept := survivors (session.candidates extracted) batchSize
    have hperm := (Lists.sortDesc_perm Prod.fst
      (finalizeCandidates env.toEnv session.streams kept).1).map Prod.snd
    refine Or.inr ⟨rfl, _, _, rfl, hperm, fun hk => ?_, ?_⟩
    · rw [streams_recordFrames]
      exact commits_finalizeCandidates env.toEnv hk kept
    · rw [ledger_recordFrames, streams_recordFrames, hperm.length_eq,
        (hperm.map fun f => f.estimatedSize env.showFloat).sum_eq]
      rfl

end Frames

end StreamSession

/-- The entry of an operation that succeeded. -/
def Reply.entry (reply : Reply) (entry : Entry) : List Entry :=
  match reply with
  | .ok _ => [entry]
  | _ => []

namespace Call

/-- The ledger entries of a call. -/
def entries (call : Call) (session : StreamSession) : List Entry :=
  let reply := (call.run session).1
  match call.op with
  | .activate => reply.entry .activate
  | .createStream _ | .createStreamWithConfig _ _ => reply.entry (.create call.env.uuid)
  | .startStream streamId => reply.entry (.start streamId)
  | .completeStream streamId => reply.entry (.complete streamId)
  | .failStream streamId _ => reply.entry (.fail streamId)
  | .close => reply.entry .close
  | .forceCloseExpired =>
    match reply with
    | .ok (.flag true) => [.wipe]
    | _ => []
  | _ => (call.committed session).map (Frame.entry call.env.showFloat)

/-- Everything a call can do, by its reply, the session it leaves, the frames it commits and the
entries it amounts to. -/
inductive Outcome (showFloat : Float → String) (session : StreamSession) :
    Reply → StreamSession → List Frame → List Entry → Prop
  | failed (e : DomainError) : Outcome showFloat session (.err e) session [] []
  | kept {reply : Reply} {session' : StreamSession} (hr : reply.frames = [])
      (herr : ∀ e, reply ≠ .err e) (h : session.Kept session') :
    Outcome showFloat session reply session' [] []
  | took {value : Value} {session' : StreamSession} {entry : Entry}
      (hr : (Reply.ok value).frames = []) (hemit : ∀ id, Ledger.emitted id [entry] = [])
      (h : session.Took entry session') :
    Outcome showFloat session (.ok value) session' [] [entry]
  | emitted {frames committed : List Frame} {session' : StreamSession}
      (hperm : frames.Perm committed) (h : session.Emitted showFloat committed session') :
    Outcome showFloat session (.ok (.frames frames)) session' committed
      (committed.map (Frame.entry showFloat))

section Outcomes
variable {showFloat : Float → String} {session : StreamSession}

private theorem outcome_took {α : Type} {f : α → Value} {r : DomainResult α × StreamSession}
    {entry : Entry} (hf : ∀ a, (Reply.ok (f a)).frames = [])
    (hemit : ∀ id, Ledger.emitted id [entry] = [])
    (h : (∃ e, r = (.error e, session)) ∨
      ∃ a session', r = (.ok a, session') ∧ session.Took entry session') :
    Outcome showFloat session (finish f r).1 (finish f r).2 (finish f r).1.frames
      ((finish f r).1.entry entry) := by
  rcases h with ⟨e, rfl⟩ | ⟨a, session', rfl, htook⟩
  · exact .failed e
  · have hframes : (finish f (.ok a, session')).1.frames = [] := hf a
    rw [hframes]
    exact .took (hf a) hemit htook

private theorem outcome_kept {α : Type} {f : α → Value} {r : DomainResult α × StreamSession}
    (hf : ∀ a, (Reply.ok (f a)).frames = [])
    (h : (∃ e, r = (.error e, session)) ∨
      ∃ a session', r = (.ok a, session') ∧ session.Kept session') :
    Outcome showFloat session (finish f r).1 (finish f r).2 (finish f r).1.frames
      ((finish f r).1.frames.map (Frame.entry showFloat)) := by
  rcases h with ⟨e, rfl⟩ | ⟨a, session', rfl, hkept⟩
  · exact .failed e
  · have hframes : (finish f (.ok a, session')).1.frames = [] := hf a
    rw [hframes]
    exact .kept hframes (by intro e he; cases he) hkept

private theorem outcome_emitted {r : DomainResult (List Frame) × StreamSession}
    (h : (∃ e, r = (.error e, session)) ∨
      ∃ frames session', r = (.ok frames, session') ∧ session.Emitted showFloat frames session') :
    Outcome showFloat session (finish .frames r).1 (finish .frames r).2
      (finish .frames r).1.frames
      ((finish .frames r).1.frames.map (Frame.entry showFloat)) := by
  rcases h with ⟨e, rfl⟩ | ⟨frames, session', rfl, hemitted⟩
  · exact .failed e
  · exact .emitted (List.Perm.refl _) hemitted

private theorem outcome_batch (env : SessionEnv) (extracted : StreamSession.Extracted)
    (batchSize : ℕ) :
    let r := session.commitPriorityFrames env extracted batchSize
    Outcome env.showFloat session (finish .frames r).1 (finish .frames r).2
      (batchCommits env session extracted batchSize)
      ((batchCommits env session extracted batchSize).map (Frame.entry env.showFloat)) := by
  rcases session.commitPriorityFrames_cases env extracted batchSize with
    ⟨hactive, herr⟩ | ⟨-, frames, session', hok, hperm, hemitted⟩
  · have hnone : batchCommits env session extracted batchSize = [] := by
      simp [batchCommits, hactive]
    rw [hnone, herr]
    exact .failed _
  · simp only [hok]
    exact .emitted hperm hemitted

end Outcomes

theorem outcome (call : Call) (session : StreamSession) :
    Outcome call.env.showFloat session (call.run session).1 (call.run session).2
      (call.committed session) (call.entries session) := by
  obtain ⟨env, op⟩ := call
  cases op with
  | activate => exact outcome_took (fun _ => rfl) (fun _ => rfl) (session.activate_cases env)
  | createStream data =>
    refine outcome_took (fun _ => rfl) (fun _ => rfl) ?_
    exact (session.createStream_cases env data).imp (fun ⟨e, he, _⟩ => ⟨e, he⟩)
      fun ⟨_, session', h⟩ => ⟨env.uuid, session', h⟩
  | createStreamWithConfig data config =>
    exact outcome_took (fun _ => rfl) (fun _ => rfl) (session.createStreamWithConfig_cases env data config)
  | updateStreamConfig streamId config =>
    refine outcome_kept (fun _ => rfl) ?_
    exact (session.updateStreamConfig_cases env streamId config).imp_left
      fun ⟨e, he, _⟩ => ⟨e, he⟩
  | startStream streamId =>
    exact outcome_took (fun _ => rfl) (fun _ => rfl) (session.startStream_cases env streamId)
  | completeStream streamId =>
    exact outcome_took (fun _ => rfl) (fun _ => rfl) (session.completeStream_cases env streamId)
  | failStream streamId error =>
    exact outcome_took (fun _ => rfl) (fun _ => rfl) (session.failStream_cases env streamId error)
  | createStreamPatchFrames streamId threshold maxFrames =>
    refine outcome_emitted ?_
    rcases session.createStreamPatchFrames_cases env streamId threshold maxFrames with
      herr | ⟨patches, -, hcommit⟩
    · exact Or.inl herr
    · rw [hcommit]
      exact (session.commitPatchFramesForStream_cases env streamId patches maxFrames).imp
        (fun h => h.1) fun ⟨_, frames, session', _, _, hok, _, h⟩ => ⟨frames, session', hok, h⟩
  | commitPatchFramesForStream streamId patches maxFrames =>
    refine outcome_emitted ?_
    exact (session.commitPatchFramesForStream_cases env streamId patches maxFrames).imp
      (fun h => h.1) fun ⟨_, frames, session', _, _, hok, _, h⟩ => ⟨frames, session', hok, h⟩
  | createPriorityFrames threshold batchSize => exact outcome_batch env _ batchSize
  | commitPriorityFrames extracted batchSize => exact outcome_batch env extracted batchSize
  | close =>
    exact outcome_took (fun _ => rfl) (fun _ => rfl) ((session.close_cases env).imp_left And.right)
  | forceCloseExpired =>
    rcases session.forceCloseExpired_cases env with ⟨-, hok⟩ | ⟨-, session', hok, htook⟩
    · simp only [committed, entries, run, finish, hok]
      exact .kept rfl (by intro e he; cases he) ⟨rfl, fun hk => hk⟩
    · simp only [committed, entries, run, finish, hok]
      exact Outcome.took (by rfl) (fun _ => rfl) htook
  | extendTimeout seconds =>
    rcases session.extendTimeout_cases env seconds with hnone | ⟨e, he⟩ | ⟨a, session', hok, hkept⟩
    · simp only [committed, entries, run, hnone]
      exact .kept rfl (by intro e he; cases he) ⟨rfl, fun hk => hk⟩
    · simp only [committed, entries, run, he]
      exact .failed e
    · simp only [committed, entries, run, hok]
      exact .kept rfl (by intro e he; cases he) hkept
  | setClientInfo info agent address =>
    exact .kept rfl (by intro e he; cases he) ⟨rfl, fun hk => hk⟩
  | takeEvents => exact .kept rfl (by intro e he; cases he) ⟨rfl, fun hk => hk⟩

/-- Every call keeps the ledger by legal entries, and the streams filed under their identifiers. -/
theorem refines (call : Call) {session : StreamSession} (hk : WellKeyed session.streams) :
    Steps session.ledger (call.entries session) (call.run session).2.ledger ∧
      WellKeyed (call.run session).2.streams := by
  have h := call.outcome session
  generalize call.committed session = committed at h
  generalize call.entries session = entries at h ⊢
  generalize (call.run session).1 = reply at h
  generalize (call.run session).2 = session' at h ⊢
  cases h with
  | failed e => exact ⟨.nil, hk⟩
  | kept _ _ h =>
    rw [h.ledger]
    exact ⟨.nil, h.keyed hk⟩
  | took _ _ h =>
    rw [h.ledger]
    exact ⟨.single h.allowed, h.keyed hk⟩
  | emitted _ h => exact ⟨h.steps hk, (h.commits hk).wellKeyed hk⟩

end Call

end PJS
