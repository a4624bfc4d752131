import PJS.Client.EndToEnd
import PJS.Domain.View
import PJS.Session.Delivery

/-! What the TypeScript client makes of part of a stream. After the skeleton it shows the view of
the frames that came, whichever these are and however often and in whatever order they came. -/
namespace PJS.Client.PJSClient

open PJS.Client.JsonReconstructor FrameProcessor

variable (showJs : JsValue → String) (showNumber : Float → String) (text : TextForms)

section Parts
variable {stream : Stream} {d : DataDocument}

/-- A patch frame of the stream, from any call at any threshold while it streams. -/
def Emits (stream : Stream) (frame : Frame) : Prop :=
  ∃ (env : Env) (stream' : Stream) (threshold : Priority) (maxFrames : ℕ) (frames : List Frame),
    stream'.material = stream.material ∧ stream'.state = .streaming ∧
    (stream'.createPatchFrames env threshold maxFrames).1 = .ok frames ∧ frame ∈ frames

/-- Such a frame carries leaves of the source data. -/
theorem carries_of_emits (hdata : stream.sourceData = some d) {frame : Frame}
    (h : Emits stream frame) : Stream.Carries (frame.priority, frame.patches) frame ∧
      ∀ p ∈ frame.patches, p.operation = .set ∧ p.setting ∈ d.value.leaves ValidKey := by
  obtain ⟨env, stream', threshold, maxFrames, frames, hmaterial, hstate, hframes, hframe⟩ := h
  have hdata' : stream'.sourceData = some d := (congrArg Prod.snd hmaterial).trans hdata
  obtain ⟨made, stream₁, hmade, hcarries, -⟩ :=
    Stream.createPatchFrames_carry env hstate hdata' threshold maxFrames
  rw [hmade] at hframes
  cases hframes
  obtain ⟨chunk, hchunk, hcarried⟩ := Lists.exists_of_mem_right hcarries hframe
  have hpatches := Stream.patches_of_carries hcarried
  obtain ⟨htype, hpriority, hpayload⟩ := hcarried
  refine ⟨⟨htype, rfl, by rw [hpatches]; exact hpayload⟩, fun p hp => ?_⟩
  rw [hpatches] at hp
  obtain ⟨q, hq, rfl⟩ := Stream.mem_of_mem_chunk hchunk hp
  obtain ⟨hleaf, hoperation, -⟩ := Stream.mem_extractPatches_iff.mp hq
  exact ⟨hoperation, hleaf⟩

theorem mem_leaves_of_emits (hdata : stream.sourceData = some d) {frames : List Frame}
    (h : ∀ frame ∈ frames, Emits stream frame) :
    ∀ p ∈ Frame.settings frames, p ∈ d.value.leaves ValidKey := by
  intro p hp
  obtain ⟨patch, hpatch, rfl⟩ := List.mem_map.mp hp
  obtain ⟨frame, hframe, hpatch⟩ := List.mem_flatMap.mp hpatch
  exact ((carries_of_emits hdata (h frame hframe)).2 patch hpatch).2

theorem not_scalar_of_object {m : List (String × JsonData)} (hm : d.value = .object m) :
    ∀ s, d.value ≠ .scalar s := fun s hs => by
  rw [hm] at hs
  cases hs

section Accepted
variable (hdata : stream.sourceData = some d) (hkeys : d.value.Addressable SafeKey)
  (hrules : ∀ key p, stream.config.priorityRules.get? key = some p → p ≤ .critical)
include hdata hkeys hrules

theorem accepts_of_emits {frame : Frame} (h : Emits stream frame) : Accepts showJs text frame := by
  obtain ⟨env, stream', threshold, maxFrames, made, hmaterial, hstate', hmade, hmem⟩ := h
  have hdata' : stream'.sourceData = some d := (congrArg Prod.snd hmaterial).trans hdata
  have hconfig : stream'.config = stream.config := congrArg Prod.fst hmaterial
  exact accepts_of_sends showJs text env hstate' hdata' hkeys (hconfig ▸ hrules)
    (show Sends env stream' threshold maxFrames none frame from .patches hmade hmem)

theorem accepts_of_created {env : Env} (hstate : stream.state = .streaming) {skeleton : Frame}
    (h : (stream.createSkeletonFrame env).1 = .ok skeleton) : Accepts showJs text skeleton :=
  accepts_of_sends showJs text env hstate hdata hkeys hrules
    (show Sends env stream .minimum 1 none skeleton from .skeleton h)

end Accepted

theorem createSkeletonFrame_eq (env : Env) (hstate : stream.state = .streaming)
    (hdata : stream.sourceData = some d) :
    (stream.createSkeletonFrame env).1 = .ok (Frame.skeleton stream.id stream.nextSequence
      (Stream.generateSkeleton d.value) (env.utc 0)) := by
  simp only [Stream.createSkeletonFrame, hstate, hdata, ne_eq, not_true_eq_false, if_false]

/-- After the skeleton, the client accepts every frame of the stream, and shows their view. -/
theorem at_view (env₁ : Env) {m : List (String × JsonData)} (hm : d.value = .object m)
    (hstate : stream.state = .streaming) (hdata : stream.sourceData = some d)
    (hkeys : d.value.Addressable SafeKey)
    (hrules : ∀ key p, stream.config.priorityRules.get? key = some p → p ≤ .critical)
    {frames : List Frame} (hframes : ∀ frame ∈ frames, Emits stream frame)
    {skeleton : Frame} (hskeleton : (stream.createSkeletonFrame env₁).1 = .ok skeleton) :
    (processStream showJs showNumber ((skeleton :: frames).map (received text))).At
      (Stream.view d.value (Frame.settings frames)) frames.length := by
  have hblank := Stream.generateSkeleton_eq_blankOut d (not_scalar_of_object hm)
  have haccepts₁ := accepts_of_created showJs text hdata hkeys hrules hstate hskeleton
  have haccepts₂ : ∀ frame ∈ frames, Accepts showJs text frame := fun frame hframe =>
    accepts_of_emits showJs text hdata hkeys hrules (hframes frame hframe)
  have hcarries : ∀ frame ∈ frames, Stream.Carries (frame.priority, frame.patches) frame ∧
      ∀ p ∈ frame.patches, p.operation = .set ∧ p.setting ∈ d.value.leaves ValidKey :=
    fun frame hframe => carries_of_emits hdata (hframes frame hframe)
  set chunks := frames.map fun frame => (frame.priority, frame.patches) with hchunks
  have hall₂ : List.Forall₂ Stream.Carries chunks frames := by
    rw [hchunks, List.forall₂_map_left_iff, List.forall₂_same]
    exact fun frame hframe => (hcarries frame hframe).1
  have hpatches : ∀ chunk ∈ chunks, ∀ p ∈ chunk.2, SetsSafely p ∧ p.value.Distinct := by
    intro chunk hchunk p hp
    obtain ⟨frame, hframe, rfl⟩ := List.mem_map.mp hchunk
    obtain ⟨hoperation, hleaf⟩ := (hcarries frame hframe).2 p hp
    exact setsSafely_of_mem_leaves hm hkeys hoperation hleaf
  have hsettings : (chunks.flatMap Prod.snd).map FramePatch.setting = Frame.settings frames := by
    rw [hchunks, List.flatMap_map]
    rfl
  have hall : Doc.runAll ((chunks.flatMap Prod.snd).map FramePatch.setting)
      (Stream.generateSkeleton d.value) =
      some (Stream.view d.value (Frame.settings frames)) := by
    rw [hsettings]
    exact Stream.runAll_eq_view (mem_leaves_of_emits hdata hframes)
  -- the client follows
  rw [createSkeletonFrame_eq env₁ hstate hdata] at hskeleton
  cases hskeleton
  have hstart := handler_skeleton showJs showNumber text
    (by rfl) haccepts₁
    (by
      change (Stream.generateSkeleton d.value).Distinct
      rw [hblank]
      exact d.distinct.blankOut)
    (by
      change ∃ m, Stream.generateSkeleton d.value = .object m
      rw [hblank, hm]
      exact ⟨_, rfl⟩)
  have hmiddle := foldl_patches showJs showNumber text hall₂ haccepts₂ hpatches hstart hall
  rwa [Nat.zero_add] at hmiddle

theorem accepts_of_completion {env : Env} {checksum : Option String} {completion : Frame}
    (h : (stream.createCompletionFrame env checksum).1 = .ok completion) :
    completion.frameType = .complete ∧ Accepts showJs text completion := by
  obtain ⟨htype, hpriority⟩ : completion.frameType = .complete ∧
      completion.priority = .critical := by
    unfold Stream.createCompletionFrame at h
    split_ifs at h
    cases h
    exact ⟨rfl, rfl⟩
  refine ⟨htype, (acceptsFrame_iff showJs text completion).mpr ⟨hpriority ▸ le_refl _, ?_⟩⟩
  rw [htype]
  exact payloadErrors_complete showJs _

/-- Frames may be lost, repeated and reordered after the skeleton: the client accepts each, skips
no patch, and shows the view of those that came, also when the completion frame settles it. That is
the source data exactly when every leaf came whose value is not blank. -/
theorem shows_view (env₁ : Env) {m : List (String × JsonData)} (hm : d.value = .object m)
    (hstate : stream.state = .streaming) (hdata : stream.sourceData = some d)
    (hkeys : d.value.Addressable SafeKey)
    (hrules : ∀ key p, stream.config.priorityRules.get? key = some p → p ≤ .critical)
    {frames : List Frame} (hframes : ∀ frame ∈ frames, Emits stream frame) :
    ∃ skeleton stream₁, stream.createSkeletonFrame env₁ = (.ok skeleton, stream₁) ∧
      let shown := Stream.view d.value (Frame.settings frames)
      let run := processStream showJs showNumber ((skeleton :: frames).map (received text))
      run.settled = none ∧ run.result = JsValue.ofData shown ∧
      run.outcomes.length = frames.length ∧
      (∀ outcome ∈ run.outcomes, outcome.success = true ∧ outcome.skippedPatches = 0 ∧
        outcome.appliedPatches = outcome.totalPatches) ∧
      (∀ (env₂ : Env) (stream₂ : Stream) checksum completion,
        (stream₂.createCompletionFrame env₂ checksum).1 = .ok completion →
        (processStream showJs showNumber
          ((skeleton :: frames ++ [completion]).map (received text))).settled =
            some (.ok (JsValue.ofData shown))) ∧
      (shown = d.value ↔ ∀ leaf ∈ d.value.leaves (fun _ => True),
        leaf ∈ Frame.settings frames ∨ leaf.SetsBlank Stream.IsZero) := by
  have hskeleton := createSkeletonFrame_eq env₁ hstate hdata
  have hrun := at_view showJs showNumber text env₁ hm hstate hdata hkeys hrules hframes hskeleton
  refine ⟨_, _, Prod.ext hskeleton rfl, hrun.settled, hrun.result, hrun.length, hrun.applied, ?_,
    Stream.view_eq_self_iff (not_scalar_of_object hm) (mem_leaves_of_emits hdata hframes)⟩
  intro env₂ stream₂ checksum completion hcompletion
  obtain ⟨htype, haccepts⟩ := accepts_of_completion showJs text hcompletion
  have hend := handler_complete showJs showNumber text htype haccepts hrun
  rw [processStream, List.map_append, List.foldl_append, List.map_singleton, List.foldl_cons,
    List.foldl_nil]
  exact congrArg StreamRun.settled hend

/-- Only the third of three frames came, twice. -/
theorem shows_view_user :
    ∃ skeleton stream₁ frames stream₂, (Stream.started Stream.userDocument).createSkeletonFrame
        Stream.stillEnv = (.ok skeleton, stream₁) ∧
      (Stream.started Stream.userDocument).createPatchFrames Stream.stillEnv .minimum 3 =
        (.ok frames, stream₂) ∧
      let some := frames.drop 2 ++ frames.drop 2
      (processStream (fun _ => "") (fun _ => "")
        ((skeleton :: some).map (received epochTexts))).result =
          JsValue.ofData (Stream.view Stream.userDocument.value (Frame.settings some)) := by
  obtain ⟨frames, stream₂, hframes, -, -⟩ := Stream.createPatchFrames_carry Stream.stillEnv
    (show (Stream.started Stream.userDocument).state = .streaming from rfl)
    (show (Stream.started Stream.userDocument).sourceData = some Stream.userDocument from rfl)
    .minimum 3
  have hemits : ∀ frame ∈ frames.drop 2 ++ frames.drop 2,
      Emits (Stream.started Stream.userDocument) frame := by
    intro frame hframe
    have hmem : frame ∈ frames := by
      rcases List.mem_append.mp hframe with hframe | hframe
      · exact List.mem_of_mem_drop hframe
      · exact List.mem_of_mem_drop hframe
    exact ⟨_, _, _, _, frames, rfl, rfl, congrArg Prod.fst hframes, hmem⟩
  obtain ⟨skeleton, stream₁, hskeleton, hview⟩ := shows_view (fun _ => "") (fun _ => "") epochTexts
    Stream.stillEnv rfl rfl rfl addressable_userDocument (by rintro _ _ ⟨⟩) hemits
  exact ⟨skeleton, stream₁, frames, stream₂, hskeleton, hframes, hview.2.1⟩

/-- A second skeleton takes the document away. -/
theorem handler_skeleton_again {frame : Frame} (h : frame.frameType = .skeleton)
    (haccepts : Accepts showJs text frame) {run : StreamRun} {shown : JsonData} {n : ℕ}
    (hrun : run.At shown n) :
    frameReceivedHandler showJs showNumber run (received text frame) =
      { run with result := .scalar .undefined } := by
  have hvalid : validateFrame showJs (received text frame) = [] := haccepts
  obtain ⟨htype, -⟩ := property_received text frame
  rw [h] at htype
  simp only [frameReceivedHandler, hrun.settled, Option.isSome_none, Bool.false_eq_true, if_false,
    hvalid, htype, FrameType.name, processSkeleton, hrun.initialized, if_true]

/-- A patch frame when there is no document makes the client give up. -/
theorem handler_patch_undefined {frame : Frame} (h : frame.frameType = .patch)
    (haccepts : Accepts showJs text frame) {run : StreamRun} (hsettled : run.settled = none)
    (hresult : run.result = .scalar .undefined) :
    frameReceivedHandler showJs showNumber run (received text frame) = { run with
      settled := some (.error ⟨.protocolError, "Received patch frame before skeleton"⟩) } := by
  have hvalid : validateFrame showJs (received text frame) = [] := haccepts
  obtain ⟨htype, -⟩ := property_received text frame
  rw [h] at htype
  simp only [frameReceivedHandler, hsettled, Option.isSome_none, Bool.false_eq_true, if_false,
    hvalid, htype, FrameType.name, hresult, JsValue.falsy, if_true]

/-- Once settled, the client ignores what comes. -/
theorem foldl_of_settled {run : StreamRun} (h : run.settled.isSome) (frames : List JsValue) :
    frames.foldl (frameReceivedHandler showJs showNumber) run = run := by
  induction frames with
  | nil => rfl
  | cons frame frames ih =>
    rw [List.foldl_cons, frameReceivedHandler, if_pos h]
    exact ih

end Parts

end PJS.Client.PJSClient
