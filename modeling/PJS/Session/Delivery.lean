import PJS.Domain.FrameSerde
import PJS.Domain.View
import PJS.Session.Materials

/-! What the frames of a session carry: leaves of the data that their streams were created with. -/
namespace PJS

theorem Stream.patches_of_carries {chunk : Priority × List FramePatch} {frame : Frame}
    (h : Stream.Carries chunk frame) : frame.patches = chunk.2 := by
  obtain ⟨htype, -, hpayload⟩ := h
  unfold Frame.patches
  rw [htype, hpayload]
  change (chunk.2.map FramePatch.toPayload).filterMap FramePatch.ofPayload = chunk.2
  rw [List.filterMap_map]
  conv_rhs => rw [← List.filterMap_some (l := chunk.2)]
  exact List.filterMap_congr fun p _ => p.ofPayload_toPayload

@[simp] theorem Frame.patches_content (frame : Frame) : frame.content.patches = frame.patches := rfl

namespace StreamSession

/-- The patch sets a leaf of the source data of the stream. -/
def SetsLeaf (session : StreamSession) (id : StreamId) (patch : FramePatch) : Prop :=
  patch.operation = .set ∧ ∃ config d, session.materials.get? id = some (config, some d) ∧
    patch.setting ∈ d.value.leaves ValidKey

/-- A frame of such patches. -/
structure Genuine (session : StreamSession) (id : StreamId) (frame : Frame) : Prop where
  frameType : frame.frameType = .patch
  setsLeaf : ∀ patch ∈ frame.patches, session.SetsLeaf id patch

variable {session session' m : StreamSession} {id : StreamId} {env : SessionEnv}
  {frames : List Frame}

theorem SetsLeaf.continues {patch : FramePatch} (h : session.SetsLeaf id patch)
    (hc : session.Continues session') : session'.SetsLeaf id patch := by
  obtain ⟨hop, config, d, hget, hleaf⟩ := h
  exact ⟨hop, config, d, hc id _ hget, hleaf⟩

theorem Genuine.continues {frame : Frame} (h : session.Genuine id frame)
    (hc : session.Continues session') : session'.Genuine id frame :=
  ⟨h.frameType, fun patch hpatch => (h.setsLeaf patch hpatch).continues hc⟩

/-- What genuine frames set are leaves of the stream's data. -/
theorem mem_leaves_of_genuine {stream : Stream} {d : DataDocument}
    (hget : session.streams.get? id = some stream) (hdata : stream.sourceData = some d)
    (h : ∀ frame ∈ frames, session.Genuine id frame) :
    ∀ p ∈ Frame.settings frames, p ∈ d.value.leaves ValidKey := by
  intro p hp
  obtain ⟨patch, hpatch, rfl⟩ := List.mem_map.mp hp
  obtain ⟨frame, hframe, hpatch⟩ := List.mem_flatMap.mp hpatch
  obtain ⟨-, config, d', hget', hleaf⟩ := (h frame hframe).setsLeaf patch hpatch
  rw [materials, AssocMap.get?_mapVal, hget, Option.map_some, Option.some.injEq] at hget'
  have hd : some d = some d' := hdata.symm.trans (congrArg Prod.snd hget')
  rwa [Option.some.inj hd]

/-- What a stream extracts are its leaves. -/
theorem setsLeaf_of_extract {stream : Stream} (hget : session.streams.get? id = some stream)
    {threshold : Priority} {patches : List (FramePatch × Priority)}
    (h : stream.extractPrioritizedPatches threshold = .ok patches) :
    ∀ p ∈ patches, session.SetsLeaf id p.1 := by
  unfold Stream.extractPrioritizedPatches at h
  split_ifs at h with hs
  cases hdata : stream.sourceData with
  | none =>
    rw [hdata] at h
    cases h
  | some d =>
    rw [hdata] at h
    cases h
    intro p hp
    obtain ⟨hleaf, hop, -⟩ := Stream.mem_extractPatches_iff.mp hp
    refine ⟨hop, stream.config, d, ?_, hleaf⟩
    rw [materials, AssocMap.get?_mapVal, hget, Option.map_some, Stream.material, hdata]

theorem genuine_of_commit {patches : List (FramePatch × Priority)} {maxFrames : ℕ}
    (hpatches : ∀ p ∈ patches, session.SetsLeaf id p.1)
    (h : session.commitPatchFramesForStream env id patches maxFrames = (.ok frames, m)) :
    ∀ frame ∈ frames, session.Genuine id frame := by
  unfold commitPatchFramesForStream withStream at h
  cases hget : session.streams.get? id with
  | none =>
    rw [hget] at h
    cases h
  | some stream =>
    rw [hget] at h
    simp only [commitMeasured, Stream.commitPatchFrames] at h
    by_cases hs : stream.state = .streaming
    · obtain ⟨made, stream', hmade, hcarries, -⟩ := Stream.finalizeChunks_carry env.toEnv hs
        fun chunk (hchunk : chunk ∈ Stream.chunkPatchesForCommit patches maxFrames) =>
          Stream.ne_nil_of_mem_chunkPatchesForCommit hchunk
      rw [if_neg (not_not.mpr hs), hmade] at h
      cases h
      intro frame hframe
      obtain ⟨chunk, hchunk, hframe⟩ := Lists.exists_of_mem_right hcarries hframe
      refine ⟨hframe.1, fun patch hpatch => ?_⟩
      rw [Stream.patches_of_carries hframe] at hpatch
      obtain ⟨p, hp, rfl⟩ := Stream.mem_of_mem_chunk hchunk hpatch
      exact hpatches p hp
    · rw [if_pos hs] at h
      cases h

theorem genuine_of_batch (hk : WellKeyed session.streams) {extracted : Extracted} {batchSize : ℕ}
    (hpatches : ∀ e ∈ extracted, ∀ p ∈ e.2, session.SetsLeaf e.1 p.1)
    (h : session.commitPriorityFrames env extracted batchSize = (.ok frames, m)) :
    ∀ frame ∈ frames, session.Genuine frame.streamId frame := by
  have hlive : ∀ c ∈ survivors (session.candidates extracted) batchSize, c.Live session.streams :=
    fun c hc => live_of_mem_candidates hk (survivors_sublist.subset hc)
  have hcontent := (finalizeCandidates_content env.toEnv hlive).1
  unfold commitPriorityFrames at h
  split_ifs at h
  · cases h
  obtain rfl : (Lists.sortDesc Prod.fst (finalizeCandidates env.toEnv session.streams
      (survivors (session.candidates extracted) batchSize)).1).map Prod.snd = frames := by
    cases h
    rfl
  intro frame hframe
  obtain ⟨f, hf, rfl⟩ := List.mem_map.mp hframe
  have hmem := List.mem_map_of_mem (f := fun f : Priority × Frame => (f.1, f.2.content))
    (Lists.mem_sortDesc.mp hf)
  rw [hcontent] at hmem
  obtain ⟨c, hc, hfc⟩ := List.mem_map.mp hmem
  have hfc : c.content = f.2.content := congrArg Prod.snd hfc
  have hid : c.streamId = f.2.streamId := congrArg Frame.streamId hfc
  have hcarries : Stream.Carries (c.priority, c.framePatches) c.content := ⟨rfl, rfl, rfl⟩
  refine ⟨(congrArg Frame.frameType hfc).symm, fun patch hpatch => ?_⟩
  rw [← Frame.patches_content, ← hfc, Stream.patches_of_carries hcarries] at hpatch
  -- the candidate is a chunk of the patches of its stream
  obtain ⟨e, he, hce⟩ := List.mem_flatMap.mp (survivors_sublist.subset hc)
  cases hget : session.streams.get? e.1 with
  | none => simp [hget] at hce
  | some stream =>
    simp only [hget] at hce
    split_ifs at hce
    · cases hce
    · obtain ⟨chunk, hchunk, rfl⟩ := List.mem_map.mp hce
      obtain ⟨p, hp, rfl⟩ := Stream.mem_of_mem_chunk hchunk hpatch
      rw [← hid]
      exact hpatches e he p hp

theorem setsLeaf_of_mem_extracted {threshold : Priority} :
    ∀ e ∈ session.extractPrioritizedPatchesForActiveStreams env threshold,
      ∀ p ∈ e.2, session.SetsLeaf e.1 p.1 := by
  intro e he
  obtain ⟨stream, hget, -, hok⟩ := mem_extracted he
  exact setsLeaf_of_extract hget hok

end StreamSession

end PJS
