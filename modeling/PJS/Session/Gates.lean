import PJS.Session.Accounts

/-! What a session lets through, over every run from a new session: new streams, operations after
a failure or a close, and frames. -/
namespace PJS

/-- The operation makes frames for one stream. -/
def Op.single : Op → Bool
  | .createStreamPatchFrames _ _ _ | .commitPatchFramesForStream _ _ _ => true
  | _ => false

/-- The operation makes frames for all streams. -/
def Op.batch : Op → Bool
  | .createPriorityFrames _ _ | .commitPriorityFrames _ _ => true
  | _ => false

namespace Call

variable {config : SessionConfig} {sessionId : SessionId} {now : DateTime}
  {session : StreamSession}

section Admission

/-- An active session still has every stream it created. -/
theorem totalStreams_eq_size (h : StreamSession.withTimeProvider config sessionId now = some session)
    (calls : List Call) (hdrawn : (calls.filterMap drawn).Nodup)
    (hs : (after session calls).state = .active) :
    (after session calls).stats.totalStreams = (after session calls).streams.size := by
  have hsteps := steps_of_run h calls
  have hphase : (after session calls).ledger.phase ≠ .failed := by
    change (after session calls).state ≠ .failed
    simp [hs]
  have hsummed := Ledger.summed_of_steps hsteps (nodup_createdIds hdrawn)
    (Ledger.ne_wipe_of_steps hsteps hphase)
  exact (sums_of_summed hsummed).2.2

theorem activeCount_le_size (session : StreamSession) :
    session.activeCount ≤ session.streams.size := by
  rw [← AssocMap.length_values]
  exact List.countP_le_length

theorem exists_createStream_iff (session : StreamSession) (env : SessionEnv) (data : DataDocument)
    (hactive : session.isActive (env.now 0) = true) :
    (∃ id, (session.createStream env data).1 = .ok id) ↔
      session.streams.size < session.config.maxConcurrentStreams := by
  rcases session.createStream_cases env data with ⟨e, he, hne⟩ | ⟨⟨-, hlt⟩, session', hok, -⟩
  · simpa [he, hactive] using hne
  · simp [hok, hlt]

/-- An active session admits a stream while fewer streams than the maximum are active, as long as
it never created as many as the maximum: finished streams keep their slots. -/
theorem createStream_concurrent_iff
    (h : StreamSession.withTimeProvider config sessionId now = some session)
    (calls : List Call) (hdrawn : (calls.filterMap drawn).Nodup) (env : SessionEnv)
    (data : DataDocument) (hactive : (after session calls).isActive (env.now 0) = true) :
    ((∃ id, ((after session calls).createStream env data).1 = .ok id) ↔
        (after session calls).activeCount <
          (after session calls).config.maxConcurrentStreams) ↔
      ((after session calls).stats.totalStreams <
          (after session calls).config.maxConcurrentStreams ∨
        (after session calls).config.maxConcurrentStreams ≤ (after session calls).activeCount) := by
  have hstate : (after session calls).state = .active := by
    simp only [StreamSession.isActive, Bool.and_eq_true, beq_iff_eq] at hactive
    exact hactive.1
  have hle := activeCount_le_size (after session calls)
  rw [exists_createStream_iff _ env data hactive, totalStreams_eq_size h calls hdrawn hstate]
  omega

theorem createStream_concurrent_iff_opening :
    let session := after StreamSession.atEpoch (opening ⟨1⟩ .epoch)
    let env := SessionEnv.still ⟨2⟩ .epoch
    session.isActive (env.now 0) = true ∧
    (((∃ id, (session.createStream env ⟨.null, .scalar _⟩).1 = .ok id) ↔
        session.activeCount < session.config.maxConcurrentStreams) ↔
      (session.stats.totalStreams < session.config.maxConcurrentStreams ∨
        session.config.maxConcurrentStreams ≤ session.activeCount)) :=
  ⟨rfl, createStream_concurrent_iff StreamSession.withTimeProvider_atEpoch _ (by decide) _ _ rfl⟩

/-- With room for one stream, a completed stream still takes it. -/
theorem createStream_refused_idle :
    ∃ session, StreamSession.withTimeProvider { SessionConfig.default with
        maxConcurrentStreams := 1 } ⟨0⟩ .epoch = some session ∧
    let session' := after session
      (opening ⟨1⟩ .epoch ++ [⟨.still ⟨1⟩ .epoch, .completeStream ⟨1⟩⟩])
    session'.isActive .epoch = true ∧
    session'.activeCount < session'.config.maxConcurrentStreams ∧
    (session'.createStream (.still ⟨2⟩ .epoch) ⟨.null, .scalar _⟩).1 =
      .error (.tooManyStreams "Maximum 1 concurrent streams exceeded") :=
  ⟨_, rfl, rfl, by decide, rfl⟩

end Admission

section Failure

/-- A call that returns an error changes nothing. -/
theorem run_eq_self_of_err (call : Call) {session : StreamSession} {e : DomainError}
    (he : (call.run session).1 = .err e) : (call.run session).2 = session := by
  have h := call.outcome session
  generalize call.committed session = committed at h
  generalize call.entries session = entries at h
  generalize (call.run session).1 = reply at h he
  generalize (call.run session).2 = session' at h ⊢
  cases h with
  | failed _ => rfl
  | kept _ herr _ => exact absurd he (herr e)
  | took _ _ _ => cases he
  | emitted _ _ => cases he

/-- Frames come from streams that are streaming. -/
theorem exists_streaming_of_frames (call : Call) {session : StreamSession}
    (hk : WellKeyed session.streams) (hne : (call.run session).1.frames ≠ []) :
    ∃ id stream, session.streams.get? id = some stream ∧ stream.state = .streaming := by
  have h := call.outcome session
  generalize call.committed session = committed at h
  generalize call.entries session = entries at h
  generalize (call.run session).1 = reply at h hne
  generalize (call.run session).2 = session' at h
  cases h with
  | failed _ => exact absurd rfl hne
  | kept hr _ _ => exact absurd hr hne
  | took hr _ _ => exact absurd hr hne
  | emitted hperm h =>
    refine (h.commits hk).exists_streaming fun hnil => hne ?_
    exact (hnil ▸ hperm).eq_nil

/-- In an idle ledger a stream is active only while the session is. -/
theorem isActive_eq_false {session : StreamSession} (hidle : session.ledger.Idle)
    (hs : session.state ≠ .active) {id : StreamId} {stream : Stream}
    (hget : session.streams.get? id = some stream) : stream.isActive = false := by
  rw [Stream.isActive_eq]
  exact hidle hs id stream.row (StreamSession.get?_rows hget)

/-- A failed call changes nothing. After a close no stream is active and no call returns a frame,
whatever is called. -/
theorem failed_or_closed (h : StreamSession.withTimeProvider config sessionId now = some session)
    (calls : List Call) :
    (∀ (call : Call) e, (call.run (after session calls)).1 = .err e →
      (call.run (after session calls)).2 = after session calls) ∧
    ∀ env closed, (after session calls).close env = (.ok (), closed) → ∀ later,
      (∀ id stream, (after closed later).streams.get? id = some stream →
        stream.isActive = false) ∧
      ∀ call : Call, (call.run (after closed later)).1.frames = [] := by
  refine ⟨fun call e he => call.run_eq_self_of_err he, fun env closed hclose later => ?_⟩
  have hk := wellKeyed_of_run h calls
  have htook : (after session calls).Took .close closed := by
    rcases (after session calls).close_cases env with ⟨-, e, he⟩ | ⟨a, session', hok, htook⟩
    · cases he.symm.trans hclose
    · cases hok.symm.trans hclose
      exact htook
  have hended : closed.ledger.Ended := by
    rw [htook.ledger]
    exact Or.inl rfl
  have hidle : closed.ledger.Idle := by
    rw [htook.ledger]
    exact (idle_of_run h calls).post htook.allowed
  obtain ⟨hsteps, hk'⟩ := refines_after later (htook.keyed hk)
  obtain ⟨hended', hidle', -⟩ := hended.steps hidle hsteps
  have hs : (after closed later).state ≠ .active := by
    intro hs
    rcases hended' with hp | hp <;> cases hs.symm.trans hp
  refine ⟨fun id stream hget => isActive_eq_false hidle' hs hget, fun call => ?_⟩
  by_contra hne
  obtain ⟨id, stream, hget, hstream⟩ := call.exists_streaming_of_frames hk' hne
  have hfalse := isActive_eq_false hidle' hs hget
  rw [Stream.isActive_eq, hstream] at hfalse
  cases hfalse

theorem failed_or_closed_opening :
    let session := after StreamSession.atEpoch (opening ⟨1⟩ .epoch)
    (∃ e, (run ⟨.still ⟨1⟩ .epoch, .activate⟩ session).1 = .err e) ∧
    (∃ closed, session.close (.still ⟨1⟩ .epoch) = (.ok (), closed)) ∧
    (∀ (call : Call) e, (call.run session).1 = .err e → (call.run session).2 = session) ∧
    ∀ env closed, session.close env = (.ok (), closed) → ∀ later,
      (∀ id stream, (after closed later).streams.get? id = some stream →
        stream.isActive = false) ∧
      ∀ call : Call, (call.run (after closed later)).1.frames = [] :=
  ⟨⟨_, rfl⟩, ⟨_, rfl⟩, failed_or_closed StreamSession.withTimeProvider_atEpoch _⟩

end Failure

section Emission

/-- The operation returns a frame. -/
def Emits (env : SessionEnv) (session : StreamSession) (op : Op) : Prop :=
  (run ⟨env, op⟩ session).1.frames ≠ []

variable {env : SessionEnv} {id : StreamId} {stream : Stream}

/-- A stream that is streaming takes a patch, and nothing asks whether the session has expired. -/
theorem emits_commitPatchFramesForStream (env : SessionEnv)
    (hget : session.streams.get? id = some stream) (hs : stream.state = .streaming) :
    Emits env session (.commitPatchFramesForStream id [(.set .root .null, .medium)] 1) := by
  unfold Emits
  rcases session.commitPatchFramesForStream_cases env id [(.set .root .null, .medium)] 1 with
    ⟨-, hne⟩ | ⟨_, frames, session', -, -, hok, hlen, -⟩
  · exact absurd hs (hne stream hget)
  · simp only [run, finish, hok]
    intro hnil
    change frames = [] at hnil
    rw [hnil] at hlen
    exact absurd hlen.symm (by decide)

/-- A batch takes the patch as well, if the session is active. -/
theorem emits_commitPriorityFrames (hactive : session.isActive (env.now 0) = true)
    (hget : session.streams.get? id = some stream) (hs : stream.state = .streaming) :
    Emits env session (.commitPriorityFrames [(id, [(.set .root .null, .medium)])] 1) := by
  unfold Emits
  rcases session.commitPriorityFrames_cases env [(id, [(.set .root .null, .medium)])] 1 with
    ⟨hne, -⟩ | ⟨-, frames, session', hok, hperm, -⟩
  · cases hne.symm.trans hactive
  · have hcandidates : session.candidates [(id, [(.set .root .null, .medium)])] =
        [⟨.medium, id, [.set .root .null]⟩] := by
      simp only [StreamSession.candidates, List.flatMap_cons, List.flatMap_nil, hget, hs]
      rfl
    have hsurvivors : StreamSession.survivors [⟨.medium, id, [.set .root .null]⟩] 1 =
        [⟨.medium, id, [.set .root .null]⟩] := rfl
    simp only [run, finish, hok]
    intro hnil
    change frames = [] at hnil
    rw [hnil, batchCommits, if_pos hactive, hcandidates, hsurvivors] at hperm
    rcases stream.finalizePatchFrame_cases env.toEnv .medium [.set .root .null] with
      ⟨-, hbad | hbad⟩ | ⟨-, frame, stream', -, hfin⟩
    · exact hbad hs
    · cases hbad
    · simp [StreamSession.finalizeCandidates, hget, hfin] at hperm

theorem isActive_of_emits_batch {op : Op} (hop : op.batch = true) (he : Emits env session op) :
    session.isActive (env.now 0) = true := by
  have hgate : ∀ extracted batchSize,
      (finish .frames (session.commitPriorityFrames env extracted batchSize)).1.frames ≠ [] →
        session.isActive (env.now 0) = true := by
    intro extracted batchSize hne
    rcases session.commitPriorityFrames_cases env extracted batchSize with ⟨-, herr⟩ | ⟨h, -⟩
    · rw [herr] at hne
      exact absurd rfl hne
    · exact h
  cases op with
  | createPriorityFrames threshold batchSize => exact hgate _ _ he
  | commitPriorityFrames extracted batchSize => exact hgate _ _ he
  | _ => cases hop

/-- Frames come from an active session only, and both ways of making them agree on when, exactly
if the session has not expired or no stream is streaming. -/
theorem emits_active_iff (h : StreamSession.withTimeProvider config sessionId now = some session)
    (calls : List Call) (env : SessionEnv) :
    ((∀ op, Emits env (after session calls) op →
        (after session calls).isActive (env.now 0) = true) ∧
      ((∃ op, op.single = true ∧ Emits env (after session calls) op) ↔
        ∃ op, op.batch = true ∧ Emits env (after session calls) op)) ↔
    ((after session calls).isExpired (env.now 0) = false ∨
      ∀ id stream, (after session calls).streams.get? id = some stream →
        stream.state ≠ .streaming) := by
  have hidle := idle_of_run h calls
  have hk := wellKeyed_of_run h calls
  generalize after session calls = current at hidle hk ⊢
  have hstreaming : ∀ {op}, Emits env current op →
      ∃ id stream, current.streams.get? id = some stream ∧ stream.state = .streaming :=
    fun he => exists_streaming_of_frames ⟨env, _⟩ hk he
  constructor
  · rintro ⟨hall, -⟩
    by_contra hcond
    rw [not_or] at hcond
    obtain ⟨hexpired, hsome⟩ := hcond
    push Not at hsome
    obtain ⟨id, stream, hget, hs⟩ := hsome
    have hactive := hall _ (emits_commitPatchFramesForStream env hget hs)
    simp only [StreamSession.isActive, Bool.and_eq_true, Bool.not_eq_true'] at hactive
    exact hexpired hactive.2
  · intro hcond
    have hactive : ∀ {op}, Emits env current op → current.isActive (env.now 0) = true := by
      intro op he
      obtain ⟨id, stream, hget, hs⟩ := hstreaming he
      rcases hcond with hexpired | hnone
      · have hstate : current.state = .active :=
          hidle.phase_eq (StreamSession.get?_rows hget) (by rw [Stream.row, hs]; rfl)
        simp [StreamSession.isActive, hstate, hexpired]
      · exact absurd hs (hnone id stream hget)
    refine ⟨fun op he => hactive he, ?_, ?_⟩
    · rintro ⟨op, -, he⟩
      obtain ⟨id, stream, hget, hs⟩ := hstreaming he
      exact ⟨_, rfl, emits_commitPriorityFrames (hactive he) hget hs⟩
    · rintro ⟨op, -, he⟩
      obtain ⟨id, stream, hget, hs⟩ := hstreaming he
      exact ⟨_, rfl, emits_commitPatchFramesForStream env hget hs⟩

theorem emits_active_iff_opening :
    let session := after StreamSession.atEpoch (opening ⟨1⟩ .epoch)
    let env := SessionEnv.still ⟨1⟩ .epoch
    ((∀ op, Emits env session op → session.isActive (env.now 0) = true) ∧
      ((∃ op : Op, op.single = true ∧ Emits env session op) ↔
        ∃ op : Op, op.batch = true ∧ Emits env session op)) ↔
    (session.isExpired (env.now 0) = false ∨
      ∀ id stream, session.streams.get? id = some stream → stream.state ≠ .streaming) :=
  emits_active_iff StreamSession.withTimeProvider_atEpoch _ _

/-- A second after the session expired its stream still emits, and no batch does. -/
theorem emits_after_expiry :
    let session := after StreamSession.atEpoch (opening ⟨1⟩ .epoch)
    let late : DateTime := ⟨3601000000000, by decide, by decide⟩
    let env := SessionEnv.still ⟨1⟩ late
    session.isActive (env.now 0) = false ∧
    Emits env session (.commitPatchFramesForStream ⟨1⟩ [(.set .root .null, .medium)] 1) ∧
    ¬ ∃ op : Op, op.batch = true ∧ Emits env session op := by
  refine ⟨rfl, emits_commitPatchFramesForStream _ rfl rfl, ?_⟩
  rintro ⟨op, hop, he⟩
  cases isActive_of_emits_batch hop he

end Emission

end Call

end PJS
