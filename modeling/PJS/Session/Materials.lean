import PJS.Session.Batches

/-! What the patches of a stream are made from, its configuration and its source data, stays as it
is while the stream runs, is completed or is cancelled, and while streams are added. An extraction
from an earlier copy of the session finds what an extraction from the session finds. -/
namespace PJS

namespace Stream

def material (stream : Stream) : StreamConfig × Option DataDocument :=
  (stream.config, stream.sourceData)

variable {stream stream' : Stream}

theorem extractPrioritizedPatches_of_material (h : stream'.material = stream.material)
    (hs : stream.state = .streaming) (hs' : stream'.state = .streaming) (threshold : Priority) :
    stream'.extractPrioritizedPatches threshold = stream.extractPrioritizedPatches threshold := by
  obtain ⟨hconfig, hdata⟩ := Prod.mk.inj h
  unfold extractPrioritizedPatches extractPatches
  simp only [hs, hs', hdata, collectPatches_congr hconfig]

theorem material_startStreaming (env : Env) (stream : Stream) :
    (stream.startStreaming env).2.material = stream.material := by
  unfold startStreaming
  split <;> rfl

theorem material_complete (env : Env) (stream : Stream) :
    (stream.complete env).2.material = stream.material := by
  unfold complete
  split <;> rfl

theorem material_cancel (env : Env) (stream : Stream) :
    (stream.cancel env).2.material = stream.material := by
  unfold cancel
  split <;> rfl

theorem material_finalizePatchFrame (env : Env) (stream : Stream) (priority : Priority)
    (framePatches : List FramePatch) :
    (stream.finalizePatchFrame env priority framePatches).2.material = stream.material := by
  unfold finalizePatchFrame
  split_ifs
  · rfl
  · split <;> rfl

theorem material_finalizeChunks (env : Env) (stream : Stream)
    (chunks : List (Priority × List FramePatch)) :
    (stream.finalizeChunks env chunks).2.material = stream.material := by
  induction chunks generalizing env stream with
  | nil => rfl
  | cons chunk chunks ih =>
    obtain ⟨priority, framePatches⟩ := chunk
    have hfirst := material_finalizePatchFrame env stream priority framePatches
    rw [finalizeChunks]
    generalize stream.finalizePatchFrame env priority framePatches = r at hfirst ⊢
    obtain ⟨e | frame, stream₁⟩ := r
    · exact hfirst
    · have hrest := ih (env.later 2) stream₁
      generalize hr : stream₁.finalizeChunks (env.later 2) chunks = r at hrest
      obtain ⟨e | frames, stream₂⟩ := r
      · simp only [hr]
        exact hrest.trans hfirst
      · simp only [hr]
        exact hrest.trans hfirst

theorem material_commitPatchFrames (env : Env) (stream : Stream)
    (patches : List (FramePatch × Priority)) (maxFrames : ℕ) :
    (stream.commitPatchFrames env patches maxFrames).2.material = stream.material := by
  unfold commitPatchFrames
  split_ifs
  · rfl
  · exact material_finalizeChunks env stream _

end Stream

namespace StreamSession

def materials (session : StreamSession) :
    AssocMap StreamId (StreamConfig × Option DataDocument) :=
  session.streams.mapVal Stream.material

/-- The streams of `session` are still in `session'`, with the same material. -/
def Continues (session session' : StreamSession) : Prop :=
  ∀ id m, session.materials.get? id = some m → session'.materials.get? id = some m

theorem continues_refl (session : StreamSession) : session.Continues session := fun _ _ h => h

section Continues
variable {session session' session'' : StreamSession}

theorem Continues.trans (h : session.Continues session') (h' : session'.Continues session'') :
    session.Continues session'' := fun id m hm => h' id m (h id m hm)

theorem continues_of_eq (h : session'.materials = session.materials) :
    session.Continues session' := fun id m hm => by rwa [h]

theorem Continues.exists_stream (h : session.Continues session') {id : StreamId} {stream : Stream}
    (hget : session.streams.get? id = some stream) :
    ∃ stream', session'.streams.get? id = some stream' ∧ stream'.material = stream.material := by
  have hm := h id stream.material (by rw [materials, AssocMap.get?_mapVal, hget, Option.map_some])
  rw [materials, AssocMap.get?_mapVal] at hm
  exact Option.map_eq_some_iff.mp hm

end Continues

section Methods
variable (env : SessionEnv) (session : StreamSession)

theorem mapVal_material_insert {streams : AssocMap StreamId Stream} {id : StreamId}
    {stream stream' : Stream} (hget : streams.get? id = some stream)
    (hm : stream'.material = stream.material) :
    (streams.insert id stream').mapVal Stream.material = streams.mapVal Stream.material := by
  rw [AssocMap.mapVal_insert, hm]
  apply AssocMap.insert_of_get?
  rw [AssocMap.get?_mapVal, hget, Option.map_some]

theorem materials_withStream {α : Type} {f : Stream → DomainResult α × Stream}
    (hf : ∀ stream, (f stream).2.material = stream.material) (id : StreamId) :
    (session.withStream id f).2.materials = session.materials := by
  unfold withStream
  cases hget : session.streams.get? id with
  | none => rfl
  | some stream => exact mapVal_material_insert hget (hf stream)

theorem materials_startStream (id : StreamId) :
    (session.startStream env id).2.materials = session.materials := by
  unfold startStream
  have h := session.materials_withStream (Stream.material_startStreaming env.toEnv) id
  generalize session.withStream id _ = r at h ⊢
  obtain ⟨_ | _, session₁⟩ := r
  · exact h
  · exact h

theorem materials_completeStream (id : StreamId) :
    (session.completeStream env id).2.materials = session.materials := by
  have htimed : ∀ stream, (completeTimed env.toEnv stream).2.material = stream.material := by
    intro stream
    have h := Stream.material_complete env.toEnv stream
    unfold completeTimed
    generalize stream.complete env.toEnv = r at h ⊢
    obtain ⟨_ | _, stream₁⟩ := r
    · exact h
    · exact h
  unfold completeStream
  have h := session.materials_withStream htimed id
  generalize session.withStream id _ = r at h ⊢
  obtain ⟨_ | _, session₁⟩ := r
  · exact h
  · exact h

theorem materials_commitPatchFramesForStream (id : StreamId)
    (patches : List (FramePatch × Priority)) (maxFrames : ℕ) :
    (session.commitPatchFramesForStream env id patches maxFrames).2.materials =
      session.materials := by
  have hmeasured : ∀ stream,
      (commitMeasured env.toEnv patches maxFrames stream).2.material = stream.material := by
    intro stream
    have h := Stream.material_commitPatchFrames env.toEnv stream patches maxFrames
    unfold commitMeasured
    generalize stream.commitPatchFrames env.toEnv patches maxFrames = r at h ⊢
    obtain ⟨_ | _, stream₁⟩ := r
    · exact h
    · exact h
  unfold commitPatchFramesForStream
  have h := session.materials_withStream hmeasured id
  generalize session.withStream id _ = r at h ⊢
  obtain ⟨_ | _, session₁⟩ := r
  · exact h
  · simp only [materials, streams_recordFrames]
    exact h

theorem mapVal_material_finalizeCandidates (env : Env) (streams : AssocMap StreamId Stream)
    (cs : List Candidate) :
    (finalizeCandidates env streams cs).2.mapVal Stream.material =
      streams.mapVal Stream.material := by
  induction cs generalizing env streams with
  | nil => rfl
  | cons c cs ih =>
    rw [finalizeCandidates]
    cases hget : streams.get? c.streamId with
    | none => exact ih env streams
    | some stream =>
      have hfirst := Stream.material_finalizePatchFrame env stream c.priority c.framePatches
      simp only
      generalize stream.finalizePatchFrame env c.priority c.framePatches = r at hfirst ⊢
      obtain ⟨_ | frame, stream₁⟩ := r
      · exact (ih _ _).trans (mapVal_material_insert hget hfirst)
      · exact (ih _ _).trans (mapVal_material_insert hget hfirst)

theorem materials_commitPriorityFrames (extracted : Extracted) (batchSize : ℕ) :
    (session.commitPriorityFrames env extracted batchSize).2.materials = session.materials := by
  unfold commitPriorityFrames
  split_ifs
  · rfl
  · simp only [materials, streams_recordFrames]
    exact mapVal_material_finalizeCandidates _ _ _

theorem mapVal_material_cancelStreams (env : Env) (streams : AssocMap StreamId Stream)
    (ids : List StreamId) :
    (cancelStreams env streams ids).mapVal Stream.material = streams.mapVal Stream.material := by
  induction ids generalizing env streams with
  | nil => rfl
  | cons id ids ih =>
    rw [cancelStreams]
    cases hget : streams.get? id with
    | none => exact ih env streams
    | some stream =>
      exact (ih _ _).trans (mapVal_material_insert hget (stream.material_cancel env))

theorem materials_close : (session.close env).2.materials = session.materials := by
  unfold close
  split
  · exact mapVal_material_cancelStreams _ _ _
  · rfl

theorem get?_materials_createStream (data : DataDocument) {id : StreamId} (hid : id ≠ env.uuid) :
    (session.createStream env data).2.materials.get? id = session.materials.get? id := by
  unfold createStream
  split_ifs
  · rfl
  · rfl
  · simp only [materials, AssocMap.get?_mapVal]
    exact congrArg _ ((AssocMap.get?_insert _ _ _ _).trans (if_neg hid))

/-- A method of one stream keeps the others. -/
theorem get?_materials_withStream {α : Type} {f : Stream → DomainResult α × Stream}
    {id j : StreamId} (hj : j ≠ id) :
    (session.withStream id f).2.materials.get? j = session.materials.get? j := by
  unfold withStream
  cases hget : session.streams.get? id with
  | none => rfl
  | some stream =>
    simp only [materials, AssocMap.get?_mapVal]
    exact congrArg _ ((AssocMap.get?_insert _ _ _ _).trans (if_neg hj))

theorem get?_materials_updateStreamConfig (config : StreamConfig) {id j : StreamId}
    (hj : j ≠ id) :
    (session.updateStreamConfig env id config).2.materials.get? j =
      session.materials.get? j := by
  unfold updateStreamConfig
  have h := session.get?_materials_withStream
    (f := fun stream => stream.updateConfig env.toEnv config) hj
  generalize session.withStream id _ = r at h ⊢
  obtain ⟨_ | _, session₁⟩ := r
  · exact h
  · exact h

theorem createStream_eq_ok {data : DataDocument} {id : StreamId} {session' : StreamSession}
    (h : session.createStream env data = (.ok id, session')) : id = env.uuid := by
  rcases session.createStream_cases env data with ⟨e, he, -⟩ | ⟨-, session₁, hok, -⟩
  · rw [he] at h
    cases h
  · rw [hok] at h
    cases h
    rfl

/-- Only the stream that is created is configured. -/
theorem get?_materials_createStreamWithConfig (data : DataDocument) (config : Option StreamConfig)
    {id : StreamId} (hid : id ≠ env.uuid) :
    (session.createStreamWithConfig env data config).2.materials.get? id =
      session.materials.get? id := by
  have h := session.get?_materials_createStream env data hid
  unfold createStreamWithConfig
  cases hr : session.createStream env data with
  | mk result session₁ =>
    rw [hr] at h
    cases result with
    | error e => exact h
    | ok streamId =>
      obtain rfl := session.createStream_eq_ok env hr
      cases config with
      | none => exact h
      | some config =>
        have h' := session₁.get?_materials_updateStreamConfig (afterCreate env) config hid
        simp only
        generalize session₁.updateStreamConfig (afterCreate env) env.uuid config = r at h' ⊢
        obtain ⟨_ | _, session₂⟩ := r
        · exact h'.trans h
        · exact h'.trans h

/-- A stream with a new identifier leaves the others as they were. -/
theorem continues_createStreamWithConfig (data : DataDocument) (config : Option StreamConfig)
    (hfresh : env.uuid ∉ session.streams.keys) :
    session.Continues (session.createStreamWithConfig env data config).2 := by
  intro id m hm
  have hid : id ≠ env.uuid := by
    rintro rfl
    rw [materials, AssocMap.get?_mapVal] at hm
    obtain ⟨stream, hget, -⟩ := Option.map_eq_some_iff.mp hm
    exact hfresh (AssocMap.mem_keys_iff.mpr ⟨stream, hget⟩)
  rwa [session.get?_materials_createStreamWithConfig env data config hid]

end Methods

end StreamSession

end PJS
