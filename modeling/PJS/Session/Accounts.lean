import PJS.Session.Runs

/-! The numbers a session keeps, over every run from a new session: the numbering of frames, the
session's totals and its counters of streams. -/
namespace PJS

/-- Clocks that stand still, and a map that is iterated in its own order. -/
def SessionEnv.still (uuid : StreamId) (t : DateTime) : SessionEnv where
  utc _ := t
  uuid
  showFloat := Float.toString
  now _ := t
  order := id
  order_perm _ := List.Perm.refl _

namespace StreamSession

/-- A session with the default configuration, created at the epoch. -/
def atEpoch : StreamSession := (withTimeProvider .default ⟨0⟩ .epoch).get rfl

theorem withTimeProvider_atEpoch : withTimeProvider .default ⟨0⟩ .epoch = some atEpoch := rfl

/-- The streams that are preparing or streaming. -/
def activeCount (session : StreamSession) : ℕ := session.streams.values.countP Stream.isActive

/-- The streams that were cancelled. -/
def cancelledCount (session : StreamSession) : ℕ :=
  session.streams.values.countP fun stream => stream.state = .cancelled

variable (session : StreamSession)

theorem activeStreams_healthCheck (env : SessionEnv) :
    (session.healthCheck env).activeStreams = session.activeCount := rfl

theorem total_active : session.ledger.rows.total Row.active = session.activeCount := by
  unfold activeCount
  rw [← AssocMap.total_ite]
  change (session.streams.mapVal Stream.row).total Row.active = _
  rw [AssocMap.total_mapVal]
  simp only [Row.active, Stream.row, Stream.isActive_eq]
  rfl

theorem total_cancelled : session.ledger.rows.total Row.cancelled = session.cancelledCount := by
  unfold cancelledCount
  rw [← AssocMap.total_ite]
  change (session.streams.mapVal Stream.row).total Row.cancelled = _
  rw [AssocMap.total_mapVal]
  simp only [Row.cancelled, Stream.row, decide_eq_true_eq]
  rfl

end StreamSession

namespace Call

variable {config : SessionConfig} {sessionId : SessionId} {now : DateTime}
  {session : StreamSession}

/-- Activate a session, create a stream in it and start the stream, all at `t`. -/
def opening (uuid : StreamId) (t : DateTime) : List Call :=
  [⟨.still uuid t, .activate⟩, ⟨.still uuid t, .createStream ⟨.null, .scalar _⟩⟩,
    ⟨.still uuid t, .startStream uuid⟩]

/-- Two commits of two patches each, the second cut to one frame. -/
def emitting (uuid : StreamId) (t : DateTime) : List Call :=
  let patches := [(.set .root .null, .low), (.set .root .null, .high)]
  [⟨.still uuid t, .commitPatchFramesForStream uuid patches 2⟩,
    ⟨.still uuid t, .commitPriorityFrames [(uuid, patches)] 1⟩]

theorem nodup_createdIds {calls : List Call} (h : (calls.filterMap drawn).Nodup) :
    (Ledger.createdIds (entriesOf session calls)).Nodup :=
  h.sublist (createdIds_entriesOf session calls)

section Numbering

/-- A call returns patch frames, and returns what it commits. -/
theorem frames_perm_committed (call : Call) {session : StreamSession}
    (hk : WellKeyed session.streams) :
    (call.run session).1.frames.Perm (call.committed session) ∧
      ∀ frame ∈ (call.run session).1.frames, frame.frameType = .patch := by
  have h := call.outcome session
  generalize call.committed session = committed at h ⊢
  generalize call.entries session = entries at h
  generalize (call.run session).1 = reply at h ⊢
  generalize (call.run session).2 = session' at h
  cases h with
  | failed e => exact ⟨.nil, by simp [Reply.frames]⟩
  | kept hr _ _ =>
    rw [hr]
    exact ⟨.nil, by simp⟩
  | took hr _ _ =>
    rw [hr]
    exact ⟨.nil, by simp⟩
  | emitted hperm h =>
    refine ⟨hperm, fun frame hframe => ?_⟩
    exact (h.commits hk).patch frame (hperm.mem_iff.mp hframe)

theorem journal_perm (calls : List Call) {session : StreamSession}
    (hk : WellKeyed session.streams) :
    ∀ entry ∈ journal session calls,
      entry.1.Perm entry.2 ∧ ∀ frame ∈ entry.1, frame.frameType = .patch := by
  induction calls generalizing session with
  | nil => simp [journal]
  | cons call calls ih =>
    rw [journal, List.forall_mem_cons]
    exact ⟨call.frames_perm_committed hk, ih (call.refines hk).2⟩

/-- The frames a run has committed to a stream. -/
def log (session : StreamSession) (calls : List Call) (id : StreamId) : List Frame :=
  ((journal session calls).flatMap Prod.snd).filter fun frame => frame.streamId = id

/-- Identifiers are drawn once. Whatever the calls, each returns patch frames, those it commits;
the frames of a stream are numbered from one in the order of their commits; and the stream counts
them. -/
theorem frames_numbered (h : StreamSession.withTimeProvider config sessionId now = some session)
    (calls : List Call) (hdrawn : (calls.filterMap drawn).Nodup) :
    (∀ entry ∈ journal session calls,
      entry.1.Perm entry.2 ∧ ∀ frame ∈ entry.1, frame.frameType = .patch) ∧
    ∀ id, (log session calls id).map Frame.sequence = List.range' 1 (log session calls id).length ∧
      ∀ stream, (after session calls).streams.get? id = some stream →
        stream.stats.totalFrames = (log session calls id).length ∧
        stream.nextSequence = 1 + stream.stats.totalFrames ∧
        stream.stats.skeletonFrames + stream.stats.patchFrames + stream.stats.completeFrames +
          stream.stats.errorFrames = stream.stats.totalFrames := by
  refine ⟨journal_perm calls (ledger_withTimeProvider h).2, fun id => ?_⟩
  obtain ⟨hseq, hrows⟩ :=
    Ledger.numbered_of_steps (steps_of_run h calls) (nodup_createdIds hdrawn) id
  have hlog : Ledger.emitted id (entriesOf session calls) =
      (log session calls id).map Frame.sequence := emitted_entriesOf session calls id
  rw [hlog, List.length_map] at hseq hrows
  refine ⟨hseq, fun stream hget => ?_⟩
  obtain ⟨hnext, hframes, htyped⟩ := hrows _ (StreamSession.get?_rows hget)
  simp only [Stream.row] at hnext hframes htyped
  omega

theorem frames_numbered_emitting :
    let session := StreamSession.atEpoch
    let calls := opening ⟨1⟩ .epoch ++ emitting ⟨1⟩ .epoch
    (calls.filterMap drawn).Nodup ∧ (log session calls ⟨1⟩).length = 3 ∧
    (∀ entry ∈ journal session calls,
      entry.1.Perm entry.2 ∧ ∀ frame ∈ entry.1, frame.frameType = .patch) ∧
    ∀ id, (log session calls id).map Frame.sequence = List.range' 1 (log session calls id).length ∧
      ∀ stream, (after session calls).streams.get? id = some stream →
        stream.stats.totalFrames = (log session calls id).length ∧
        stream.nextSequence = 1 + stream.stats.totalFrames ∧
        stream.stats.skeletonFrames + stream.stats.patchFrames + stream.stats.completeFrames +
          stream.stats.errorFrames = stream.stats.totalFrames :=
  ⟨by decide, rfl, frames_numbered StreamSession.withTimeProvider_atEpoch _ (by decide)⟩

end Numbering

section Totals

theorem sums_of_summed {session : StreamSession} (h : session.ledger.Summed) :
    session.stats.totalFrames =
      (session.streams.values.map fun stream => stream.stats.totalFrames).sum ∧
    session.stats.totalBytes =
      (session.streams.values.map fun stream => stream.stats.totalBytes).sum ∧
    session.stats.totalStreams = session.streams.size := by
  obtain ⟨hcreated, hframes, hbytes⟩ := h
  rw [AssocMap.size_eq_total] at hcreated
  simp only [StreamSession.ledger, AssocMap.total_mapVal] at hcreated hframes hbytes
  rw [AssocMap.size_eq_total]
  exact ⟨hframes, hbytes, hcreated⟩

/-- The totals of a session that was never closed by force are the sums over its streams. -/
theorem totals_eq_sums (h : StreamSession.withTimeProvider config sessionId now = some session)
    (calls : List Call) (hdrawn : (calls.filterMap drawn).Nodup)
    (hforce : ∀ before call, before ++ [call] <+: calls → call.op = .forceCloseExpired →
      (call.run (after session before)).1 ≠ .ok (.flag true)) :
    (after session calls).stats.totalFrames =
      ((after session calls).streams.values.map fun stream => stream.stats.totalFrames).sum ∧
    (after session calls).stats.totalBytes =
      ((after session calls).streams.values.map fun stream => stream.stats.totalBytes).sum ∧
    (after session calls).stats.totalStreams = (after session calls).streams.size := by
  have hwipe : ∀ e ∈ entriesOf session calls, e ≠ .wipe := by
    rintro e hmem rfl
    obtain ⟨before, call, rest, rfl, hcall⟩ := exists_split_of_mem_entriesOf session calls hmem
    obtain ⟨hop, -, hreply⟩ := call.source_of_mem_entries _ hcall
    exact hforce before call (by simp) hop hreply
  exact sums_of_summed
    (Ledger.summed_of_steps (steps_of_run h calls) (nodup_createdIds hdrawn) hwipe)

/-- Two streams send frames in turn and together, and one of them completes. -/
theorem totals_eq_sums_sending :
    let calls := opening ⟨1⟩ .epoch ++ opening ⟨2⟩ .epoch ++ emitting ⟨1⟩ .epoch ++
      emitting ⟨2⟩ .epoch ++ [⟨.still ⟨0⟩ .epoch, .commitPriorityFrames
        [(⟨1⟩, [(.set .root .null, .low)]), (⟨2⟩, [(.set .root .null, .high)])] 2⟩,
        ⟨.still ⟨0⟩ .epoch, .completeStream ⟨2⟩⟩]
    let session := after StreamSession.atEpoch calls
    session.streams.values.map (·.stats.totalFrames) = [4, 4] ∧
    session.stats.totalFrames =
      (session.streams.values.map fun stream => stream.stats.totalFrames).sum ∧
    session.stats.totalBytes =
      (session.streams.values.map fun stream => stream.stats.totalBytes).sum ∧
    session.stats.totalStreams = session.streams.size := by
  refine ⟨rfl, totals_eq_sums StreamSession.withTimeProvider_atEpoch _ (by decide) ?_⟩
  intro before call hpre hop
  have hmem := hpre.subset (List.mem_append_right before (List.mem_singleton_self call))
  simp only [opening, emitting, List.cons_append, List.nil_append, List.mem_cons,
    List.not_mem_nil, or_false] at hmem
  rcases hmem with rfl | rfl | rfl | rfl | rfl | rfl | rfl | rfl | rfl | rfl | rfl | rfl <;>
    cases hop

end Totals

section Counters

/-- The counters of streams say what the streams say. -/
def Tallied (session : StreamSession) : Prop :=
  (∀ env, session.stats.activeStreams = (session.healthCheck env).activeStreams) ∧
    session.stats.activeStreams = session.activeCount ∧
    session.stats.totalStreams = session.stats.activeStreams + session.stats.completedStreams +
      session.stats.failedStreams + session.cancelledCount

theorem tallied_of_balanced {session : StreamSession} (h : session.ledger.Balanced) :
    Tallied session := by
  obtain ⟨hactive, hcancelled, hcreated⟩ := h
  rw [session.total_active] at hactive
  rw [session.total_cancelled] at hcancelled
  refine ⟨fun env => hactive.trans (session.activeStreams_healthCheck env).symm, hactive, ?_⟩
  rw [hcancelled]
  exact hcreated

/-- One call keeps the balance, unless it ends the session while a stream is active. -/
theorem balanced_run (call : Call) {session : StreamSession} (hk : WellKeyed session.streams)
    (hb : session.ledger.Balanced)
    (hnew : ∀ id, call.drawn = some id → session.ledger.rows.get? id = none)
    (hends : call.EndsSession session → session.activeCount = 0) :
    (call.run session).2.ledger.Balanced := by
  have hcreate : ∀ id, .create id ∈ call.entries session → call.drawn = some id :=
    fun id hmem => call.source_of_mem_entries session hmem
  have hidle : ∀ e ∈ call.entries session, e.Ends → session.ledger.rows.total Row.active = 0 := by
    intro e hmem he
    rw [session.total_active]
    exact hends (call.endsSession_of_mem_entries session hmem he)
  have h := call.outcome session
  generalize call.committed session = committed at h
  generalize call.entries session = entries at h hcreate hidle
  generalize (call.run session).1 = reply at h
  generalize (call.run session).2 = session' at h ⊢
  cases h with
  | failed e => exact hb
  | kept _ _ h => exact h.ledger ▸ hb
  | @took _ _ entry _ _ h =>
    rw [h.ledger]
    refine hb.post ⟨h.allowed, ?_⟩ (hidle entry (by simp))
    rintro id rfl
    exact hnew id (hcreate id (by simp))
  | emitted _ h =>
    refine (h.steps hk).invariant (fun l e hmem he hl => ?_) hb
    obtain ⟨id, sequence, bytes, rfl⟩ := eq_emit_of_mem_map hmem
    refine hl.post ⟨he, fun _ h => by cases h⟩ ?_
    rintro (h | h) <;> cases h

theorem balanced_of_run (h : StreamSession.withTimeProvider config sessionId now = some session)
    (calls : List Call) (hdrawn : (calls.filterMap drawn).Nodup)
    (hends : ∀ before call, before ++ [call] <+: calls →
      call.EndsSession (after session before) → (after session before).activeCount = 0) :
    (after session calls).ledger.Balanced := by
  induction calls using List.reverseRecOn with
  | nil =>
    change session.ledger.Balanced
    rw [(ledger_withTimeProvider h).1]
    exact ⟨rfl, rfl, rfl⟩
  | append_singleton calls call ih =>
    have hcalls : (calls.filterMap drawn).Nodup := by
      rw [List.filterMap_append] at hdrawn
      exact hdrawn.of_append_left
    rw [after_append]
    refine balanced_run call (wellKeyed_of_run h calls) (ih hcalls ?_) ?_ ?_
    · intro before c hpre
      exact hends before c (hpre.trans (List.prefix_append calls [call]))
    · intro id hid
      exact get?_drawn h calls hdrawn hid
    · exact hends calls call List.prefix_rfl

/-- The counters agree with the streams all along a run exactly if no call ends the session while
a stream is active. -/
theorem tallied_iff (h : StreamSession.withTimeProvider config sessionId now = some session)
    (calls : List Call) (hdrawn : (calls.filterMap drawn).Nodup) :
    (∀ before, before <+: calls → Tallied (after session before)) ↔
      ∀ before call, before ++ [call] <+: calls →
        call.EndsSession (after session before) → (after session before).activeCount = 0 := by
  constructor
  · intro htallied before call hpre hends
    obtain ⟨e, he, htook⟩ := hends.took
    obtain ⟨hzero, hkept⟩ := he.post (l := (after session before).ledger)
    have hbefore := htallied before ((List.prefix_append before [call]).trans hpre)
    have hafter := htallied _ hpre
    rw [after_append] at hafter
    -- the call leaves the counter and takes the active streams away
    rw [← htook.ledger, StreamSession.total_active] at hzero
    rw [← htook.ledger] at hkept
    calc (after session before).activeCount
        = (after session before).stats.activeStreams := hbefore.2.1.symm
      _ = (call.run (after session before)).2.stats.activeStreams := hkept.symm
      _ = (call.run (after session before)).2.activeCount := hafter.2.1
      _ = 0 := hzero
  · intro hends before hpre
    refine tallied_of_balanced (balanced_of_run h before ?_ ?_)
    · exact hdrawn.sublist (hpre.sublist.filterMap drawn)
    · exact fun b call hb => hends b call (hb.trans hpre)

theorem tallied_iff_opening :
    let session := StreamSession.atEpoch
    let calls := opening ⟨1⟩ .epoch ++ [⟨.still ⟨1⟩ .epoch, .close⟩]
    (calls.filterMap drawn).Nodup ∧
    ((∀ before, before <+: calls → Tallied (after session before)) ↔
      ∀ before call, before ++ [call] <+: calls →
        call.EndsSession (after session before) → (after session before).activeCount = 0) :=
  ⟨by decide, tallied_iff StreamSession.withTimeProvider_atEpoch _ (by decide)⟩

/-- Closing a session cancels its stream and goes on counting it as active. -/
theorem close_not_tallied :
    let session := StreamSession.atEpoch
    let session' := after session (opening ⟨1⟩ .epoch ++ [⟨.still ⟨1⟩ .epoch, .close⟩])
    session'.stats.activeStreams = 1 ∧ session'.activeCount = 0 ∧
    session'.stats.totalStreams ≠ session'.stats.activeStreams + session'.stats.completedStreams +
      session'.stats.failedStreams + session'.cancelledCount ∧ ¬ Tallied session' :=
  ⟨rfl, rfl, by decide, fun h => absurd h.2.1 (by decide)⟩

end Counters

end Call

end PJS
