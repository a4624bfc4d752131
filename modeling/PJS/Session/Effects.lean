import PJS.Session.Ledger

/-! What the methods of a stream do to its account. Each method fails and leaves the stream as it
was, or succeeds with the effect given here; frames are committed one after another. -/
namespace PJS

namespace Stream

/-- The account of a stream. -/
def row (stream : Stream) : Row where
  state := stream.state
  nextSequence := stream.nextSequence
  frames := stream.stats.totalFrames
  typed := stream.stats.skeletonFrames + stream.stats.patchFrames +
    stream.stats.completeFrames + stream.stats.errorFrames
  bytes := stream.stats.totalBytes

theorem isActive_eq (stream : Stream) : stream.isActive = stream.state.isActive := by
  unfold isActive StreamState.isActive
  cases stream.state <;> rfl

variable (env : Env) (stream : Stream)

section Lifecycle

/-- The stream changed its state and nothing else of its account. -/
structure Moved (stream : Stream) (state : StreamState) (stream' : Stream) : Prop where
  row : stream'.row = { stream.row with state }
  id : stream'.id = stream.id

theorem startStreaming_cases : (∃ e, stream.startStreaming env = (.error e, stream)) ∨
    ∃ a stream', stream.startStreaming env = (.ok a, stream') ∧
      stream.state = .preparing ∧ stream.Moved .streaming stream' := by
  unfold startStreaming
  split
  · rename_i h
    exact Or.inr ⟨(), _, rfl, h, rfl, rfl⟩
  · exact Or.inl ⟨_, rfl⟩

theorem complete_cases : (∃ e, stream.complete env = (.error e, stream)) ∨
    ∃ a stream', stream.complete env = (.ok a, stream') ∧
      stream.state = .streaming ∧ stream.Moved .completed stream' := by
  unfold complete
  split
  · rename_i h
    exact Or.inr ⟨(), _, rfl, h, rfl, rfl⟩
  · exact Or.inl ⟨_, rfl⟩

theorem fail_cases (error : String) : (∃ e, stream.fail env error = (.error e, stream)) ∨
    ∃ a stream', stream.fail env error = (.ok a, stream') ∧
      stream.state.isActive = true ∧ stream.Moved .failed stream' := by
  unfold fail
  split
  · rename_i h
    exact Or.inr ⟨(), _, rfl, by rw [h]; rfl, rfl, rfl⟩
  · rename_i h
    exact Or.inr ⟨(), _, rfl, by rw [h]; rfl, rfl, rfl⟩
  · exact Or.inl ⟨_, rfl⟩

/-- Cancelling is best effort: a finished stream stays as it is. -/
theorem row_cancel : (stream.cancel env).2.row = stream.row.cancel := by
  unfold cancel Row.cancel
  change _ = if stream.state.isActive then _ else _
  cases h : stream.state <;> simp [row, StreamState.isActive, h]

theorem id_cancel : (stream.cancel env).2.id = stream.id := by
  unfold cancel
  cases stream.state <;> rfl

theorem updateConfig_cases (config : StreamConfig) :
    (∃ e, stream.updateConfig env config = (.error e, stream) ∧ stream.isActive = false) ∨
    ∃ a stream', stream.updateConfig env config = (.ok a, stream') ∧
      stream'.row = stream.row ∧ stream'.id = stream.id := by
  unfold updateConfig
  split_ifs with h
  · exact Or.inr ⟨(), _, rfl, rfl, rfl⟩
  · exact Or.inl ⟨_, rfl, by simpa using h⟩

end Lifecycle

section Frames

/-- `frame` was made from `stream` and left it as `stream'`. -/
structure Commit (showFloat : Float → String) (stream : Stream) (frame : Frame)
    (stream' : Stream) : Prop where
  streaming : stream.state = .streaming
  streamId : frame.streamId = stream.id
  sequence : frame.sequence = stream.nextSequence
  patch : frame.frameType = .patch
  id : stream'.id = stream.id
  row : stream'.row = stream.row.emit (frame.estimatedSize showFloat)

variable {stream}

/-- Recording a patch frame with the stream's next number is a commit. -/
theorem commit_recordFrameCreated {frame : Frame} (hs : stream.state = .streaming)
    (hid : frame.streamId = stream.id) (hseq : frame.sequence = stream.nextSequence)
    (htype : frame.frameType = .patch) :
    Commit env.showFloat stream frame (stream.recordFrameCreated env frame) := by
  refine ⟨hs, hid, hseq, htype, rfl, ?_⟩
  unfold recordFrameCreated row Row.emit
  rw [htype]
  simp only
  split_ifs <;> simp only [Row.mk.injEq, true_and, and_true] <;> omega

/-- Finalizing succeeds exactly on a streaming stream with patches. -/
theorem finalizePatchFrame_cases (priority : Priority) (framePatches : List FramePatch) :
    ((∃ e, stream.finalizePatchFrame env priority framePatches = (.error e, stream)) ∧
      (stream.state ≠ .streaming ∨ framePatches = [])) ∨
    framePatches ≠ [] ∧ ∃ frame stream', Commit env.showFloat stream frame stream' ∧
      stream.finalizePatchFrame env priority framePatches = (.ok frame, stream') := by
  unfold finalizePatchFrame
  split_ifs with hs
  · exact Or.inl ⟨⟨_, rfl⟩, Or.inl hs⟩
  · unfold Frame.patch
    split_ifs with hempty
    · exact Or.inl ⟨⟨_, rfl⟩, Or.inr (List.isEmpty_iff.mp hempty)⟩
    · refine Or.inr ⟨fun h => hempty (List.isEmpty_iff.mpr h), _, _, ?_, rfl⟩
      exact commit_recordFrameCreated (env.later 1) (not_not.mp hs) rfl rfl rfl

end Frames

end Stream

section Commits

/-- Frames committed one after another to the streams of a map. -/
inductive Commits (showFloat : Float → String) :
    AssocMap StreamId Stream → List Frame → AssocMap StreamId Stream → Prop
  | nil (m : AssocMap StreamId Stream) : Commits showFloat m [] m
  | cons {m m' : AssocMap StreamId Stream} {stream stream' : Stream} {frame : Frame}
      {frames : List Frame} (hget : m.get? frame.streamId = some stream)
      (h : stream.Commit showFloat frame stream')
      (rest : Commits showFloat (m.insert frame.streamId stream') frames m') :
    Commits showFloat m (frame :: frames) m'

/-- Streams are filed under their own identifiers. -/
def WellKeyed (m : AssocMap StreamId Stream) : Prop :=
  ∀ id stream, m.get? id = some stream → stream.id = id

theorem WellKeyed.insert {m : AssocMap StreamId Stream} (h : WellKeyed m) {id : StreamId}
    {stream : Stream} (hid : stream.id = id) : WellKeyed (m.insert id stream) := by
  intro j st hj
  rw [AssocMap.get?_insert] at hj
  split_ifs at hj with he
  · cases hj
    rw [hid, he]
  · exact h j st hj

theorem Commits.wellKeyed {showFloat : Float → String} {m m' : AssocMap StreamId Stream}
    {frames : List Frame} (h : Commits showFloat m frames m') (hm : WellKeyed m) :
    WellKeyed m' := by
  induction h with
  | nil m => exact hm
  | cons hget hcommit _ ih => exact ih (hm.insert (hcommit.id.trans hcommit.streamId.symm))

theorem Commits.patch {showFloat : Float → String} {m m' : AssocMap StreamId Stream}
    {frames : List Frame} (h : Commits showFloat m frames m') :
    ∀ frame ∈ frames, frame.frameType = .patch := by
  induction h with
  | nil m => simp
  | cons _ hcommit _ ih => simpa using ⟨hcommit.patch, ih⟩

/-- A frame is only ever committed to a stream that is streaming. -/
theorem Commits.exists_streaming {showFloat : Float → String} {m m' : AssocMap StreamId Stream}
    {frames : List Frame} (h : Commits showFloat m frames m') (hne : frames ≠ []) :
    ∃ id stream, m.get? id = some stream ∧ stream.state = .streaming := by
  cases h with
  | nil => exact absurd rfl hne
  | cons hget hcommit _ => exact ⟨_, _, hget, hcommit.streaming⟩

namespace Stream

theorem finalizeChunks_eq_ok (env : Env) {stream : Stream}
    {chunks : List (Priority × List FramePatch)} (hs : stream.state = .streaming)
    (hne : ∀ c ∈ chunks, c.2 ≠ []) :
    ∃ frames stream', stream.finalizeChunks env chunks = (.ok frames, stream') ∧
      frames.length = chunks.length ∧ stream'.id = stream.id ∧
      stream'.stats.totalBytes = stream.stats.totalBytes +
        (frames.map fun f => f.estimatedSize env.showFloat).sum ∧
      ∀ m, m.get? stream.id = some stream →
        Commits env.showFloat m frames (m.insert stream.id stream') := by
  induction chunks generalizing env stream with
  | nil =>
    refine ⟨[], stream, rfl, rfl, rfl, rfl, fun m hm => ?_⟩
    rw [AssocMap.insert_of_get? hm]
    exact .nil m
  | cons c chunks ih =>
    obtain ⟨priority, framePatches⟩ := c
    have hpatches : framePatches ≠ [] := hne (priority, framePatches) (by simp)
    rcases stream.finalizePatchFrame_cases env priority framePatches with
      ⟨-, hbad⟩ | ⟨-, frame, stream₁, hcommit, hfin⟩
    · rcases hbad with hbad | hbad
      · exact absurd hs hbad
      · exact absurd hbad hpatches
    · obtain ⟨frames, stream', hrest, hlen, hid, hbytes, hcommits⟩ :=
        ih (env.later 2) ((congrArg Row.state hcommit.row).trans hs) fun c hc => hne c (by simp [hc])
      refine ⟨frame :: frames, stream', ?_, by simp [hlen], hid.trans hcommit.id, ?_, fun m hm => ?_⟩
      · rw [finalizeChunks, hfin]
        simp only [hrest]
      · have hrow : stream₁.stats.totalBytes =
            stream.stats.totalBytes + frame.estimatedSize env.showFloat :=
          congrArg Row.bytes hcommit.row
        rw [hbytes, hrow, List.map_cons, List.sum_cons, Nat.add_assoc]
        rfl
      · rw [← hcommit.streamId] at hm ⊢
        refine .cons hm hcommit ?_
        have hm₁ : (m.insert frame.streamId stream₁).get? stream₁.id = some stream₁ := by
          rw [hcommit.id, ← hcommit.streamId]
          exact AssocMap.get?_insert_self _ _ m
        have hall := hcommits _ hm₁
        rwa [hcommit.id, ← hcommit.streamId, AssocMap.insert_insert] at hall

theorem commitPatchFrames_cases (env : Env) {stream : Stream}
    (patches : List (FramePatch × Priority)) (maxFrames : ℕ) :
    (stream.state ≠ .streaming ∧
      ∃ e, stream.commitPatchFrames env patches maxFrames = (.error e, stream)) ∨
    stream.state = .streaming ∧ ∃ frames stream',
      stream.commitPatchFrames env patches maxFrames = (.ok frames, stream') ∧
      frames.length = (chunkPatchesForCommit patches maxFrames).length ∧ stream'.id = stream.id ∧
      stream'.stats.totalBytes = stream.stats.totalBytes +
        (frames.map fun f => f.estimatedSize env.showFloat).sum ∧
      ∀ m, m.get? stream.id = some stream →
        Commits env.showFloat m frames (m.insert stream.id stream') := by
  unfold commitPatchFrames
  split_ifs with hs
  · exact Or.inl ⟨hs, _, rfl⟩
  · exact Or.inr ⟨not_not.mp hs, finalizeChunks_eq_ok env (not_not.mp hs) fun c hc =>
      ne_nil_of_mem_chunkPatchesForCommit hc⟩

end Stream

namespace StreamSession

/-- Finalizing candidates commits their frames in order. -/
theorem commits_finalizeCandidates (env : Env) {m : AssocMap StreamId Stream} (hm : WellKeyed m)
    (cs : List Candidate) :
    Commits env.showFloat m ((finalizeCandidates env m cs).1.map Prod.snd)
      (finalizeCandidates env m cs).2 := by
  induction cs generalizing env m with
  | nil => exact .nil m
  | cons c cs ih =>
    rw [finalizeCandidates]
    cases hget : m.get? c.streamId with
    | none => exact ih env hm
    | some stream =>
      have hid := hm c.streamId stream hget
      rcases stream.finalizePatchFrame_cases env c.priority c.framePatches with
        ⟨⟨e, he⟩, -⟩ | ⟨-, frame, stream', hcommit, hfin⟩
      · simp only [he, AssocMap.insert_of_get? hget]
        exact ih env hm
      · have hkey : frame.streamId = c.streamId := hcommit.streamId.trans hid
        simp only [hfin, List.map_cons]
        refine .cons (hkey ▸ hget) hcommit ?_
        rw [hkey]
        exact ih (env.later 2) (hm.insert (hcommit.id.trans hid))

end StreamSession

end Commits

end PJS
