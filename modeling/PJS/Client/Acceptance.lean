import PJS.Client.FrameProcessor
import PJS.Wasm.Reconstruction

/-! Which of the frames a stream and the WebAssembly bindings send the client accepts. -/
namespace PJS

namespace Wasm

/-- Frame data exposed to JavaScript. The payload is a text; here it is the value it writes. -/
structure FrameData where
  type : String
  sequence : ℕ
  priority : ℕ
  payload : SerdeValue

def FrameData.ofFrame (frame : Frame) : FrameData where
  type := match frame.frameType with
    | .skeleton => "skeleton"
    | .patch => "patch"
    | .complete => "complete"
    | .error => "error"
  sequence := frame.sequence
  priority := frame.priority.value
  payload := frame.payload.serialize

end Wasm

namespace WasmBackend

/-- `none`: the type is unknown and the function throws. -/
def mapFrameType (wasmType : String) : Option String :=
  match toAsciiLowercase wasmType with
  | "skeleton" => some "Skeleton"
  | "patch" => some "Patch"
  | "complete" => some "Complete"
  | _ => none

def number (n : ℕ) : JsValue := .scalar (.number (UInt64.ofNat n).toFloat)

/-- Convert frame data to a frame of the client; `none` where it throws. -/
def convertWasmFrame (frameData : Wasm.FrameData) : Option JsValue := do
  let frameType ← mapFrameType frameData.type
  let payload := JsValue.jsonParse frameData.payload
  let metadata : JsValue := .object [("source", .scalar (.string "wasm"))]
  if frameType = "Skeleton" then
    return .object [("frame_type", .scalar (.string frameType)),
      ("priority", number frameData.priority), ("sequence", number frameData.sequence),
      ("payload", payload), ("complete", .scalar (.bool false)), ("metadata", metadata)]
  else if frameType = "Patch" then
    -- a property of null cannot be read
    if payload = .scalar .null then none
    else
      let patches := payload.property "patches"
      let patches := if patches.falsy then .array [] else patches
      return .object [("frame_type", .scalar (.string frameType)),
        ("priority", number frameData.priority), ("sequence", number frameData.sequence),
        ("payload", .object [("patches", patches)]), ("metadata", metadata)]
  else
    return .object [("frame_type", .scalar (.string frameType)),
      ("priority", number frameData.priority), ("sequence", number frameData.sequence),
      ("metadata", metadata)]

end WasmBackend

namespace FrameProcessor

section Frames
variable (showJs : JsValue → String)

/-- The limit on numbers, as a limit on priorities. -/
theorem priorityErrors_eq_nil_iff (priority : Priority) :
    priorityErrors (WasmBackend.number priority.value) = [] ↔ priority ≤ .critical := by
  have hall : ∀ n : Fin 256, decide ((UInt64.ofNat n.val).toFloat < 0 ∨
      (UInt64.ofNat n.val).toFloat > 100) = decide (n.val > 100) := by decide +kernel
  have hpriority : _ ↔ priority.value > 100 :=
    decide_eq_decide.mp (hall ⟨priority.value, Nat.lt_succ_of_le priority.le_max⟩)
  rw [WasmBackend.number, priorityErrors, if_congr hpriority rfl rfl]
  change _ ↔ priority.value ≤ 100
  split_ifs with h
  · exact iff_of_false (by simp) (by omega)
  · exact iff_of_true rfl (by omega)

/-- The check of an object that has the fields of a frame. -/
theorem validateFrame_object {m : List (String × JsValue)} {frameType : FrameType}
    {priority : Priority} {payload : JsValue}
    (htype : m.lookup "frame_type" = some (.scalar (.string frameType.name)))
    (hpriority : m.lookup "priority" = some (WasmBackend.number priority.value))
    (hpayload : (m.lookup "payload").getD (.scalar .undefined) = payload) :
    validateFrame showJs (.object m) = [] ↔
      priority ≤ .critical ∧ payloadErrors showJs frameType.name payload = [] := by
  have hname : frameType.name ∈ frameTypes := by cases frameType <;> decide
  have hnonempty : frameType.name.isEmpty = false := by cases frameType <;> rfl
  simp only [validateFrame, JsValue.property_object, htype, hpriority, hpayload, Option.getD_some,
    JsValue.falsy, hnonempty, Bool.false_eq_true, if_false, hname, if_true]
  rw [List.append_eq_nil_iff, priorityErrors_eq_nil_iff]

theorem validatePatchOperations_eq_nil_iff (patch : FramePatch) (index : ℕ) :
    validatePatchOperations showJs (JsValue.ofData patch.toPayload) index = [] ↔
      Addresses false patch.path.segments := by
  have hoperation : patch.operation.name ∈ validOperations := by
    cases patch.operation <;> decide
  have hnonempty : patch.path.toString.isEmpty = false := by
    rw [JsonPath.toString_eq, Bool.eq_false_iff, ne_eq, String.isEmpty_iff]
    intro h
    have hlist := congrArg String.toList h
    rw [String.toList_append] at hlist
    exact absurd hlist (by simp)
  rw [← isValidJsonPath_toString, JsValue.ofData_toPayload]
  simp only [validatePatchOperations, JsValue.property_object, List.lookup, Option.getD_some,
    beq_self_eq_true, show ("operation" == "path") = false from rfl, hnonempty, hoperation,
    Bool.false_eq_true, if_false, if_true, List.append_nil]
  split_ifs with hvalid
  · exact iff_of_true rfl hvalid
  · exact iff_of_false (by simp) hvalid

theorem validateAll_eq_nil_iff (patches : List FramePatch) (index : ℕ) :
    validateAll showJs (patches.map fun p => JsValue.ofData p.toPayload) index = [] ↔
      ∀ patch ∈ patches, Addresses false patch.path.segments := by
  induction patches generalizing index with
  | nil => simp [validateAll]
  | cons patch patches ih =>
    rw [List.map_cons, validateAll, List.append_eq_nil_iff, ih, List.forall_mem_cons,
      validatePatchOperations_eq_nil_iff]

/-- A payload with at least one patch is right if the paths of its patches are. -/
theorem payloadErrors_patches {payload : JsValue} {patches : List FramePatch} (hne : patches ≠ [])
    (h : payload.property "patches" = .array (patches.map fun p => JsValue.ofData p.toPayload)) :
    payloadErrors showJs FrameType.patch.name payload = [] ↔
      ∀ patch ∈ patches, Addresses false patch.path.segments := by
  have hempty : (patches.map fun p => JsValue.ofData p.toPayload).isEmpty = false := by
    simpa using hne
  rw [← validateAll_eq_nil_iff showJs patches 0, payloadErrors, if_neg (by decide),
    if_pos (show FrameType.patch.name = "Patch" from rfl), h]
  simp only [hempty, Bool.false_eq_true, if_false]

theorem property_patchPayload (patches : List FramePatch) :
    (JsValue.ofData (Frame.patchPayload patches)).property "patches" =
      .array (patches.map fun p => JsValue.ofData p.toPayload) := by
  rw [Frame.patchPayload, JsValue.ofData_object]
  simp only [List.map_cons, List.map_nil, JsValue.property_object, List.lookup, beq_self_eq_true,
    Option.getD_some, JsValue.ofData_array, List.map_map]
  rfl

end Frames

section Wire
variable (showJs : JsValue → String) (text : TextForms)

/-- The client accepts the frame as the server writes it. -/
def Accepts (frame : Frame) : Prop :=
  validateFrame showJs (JsValue.jsonParse (frame.serialize text)) = []

/-- The client accepts the frame as the bindings hand it over. -/
def AcceptsWasm (frame : Frame) : Prop :=
  ∃ value, WasmBackend.convertWasmFrame (.ofFrame frame) = some value ∧
    validateFrame showJs value = []

theorem ofData_ne_undefined (d : JsonData) : JsValue.ofData d ≠ .scalar .undefined := by
  cases d with
  | array xs => simp [JsValue.ofData_array]
  | object m => simp [JsValue.ofData_object]
  | scalar s =>
    change Doc.scalar (JsValue.parseScalar _) ≠ Doc.scalar JsScalar.undefined
    rw [ne_eq, Doc.scalar.injEq]
    cases JsonData.serializeScalar s <;> simp [JsValue.parseScalar]

theorem acceptsFrame_iff (frame : Frame) :
    Accepts showJs text frame ↔ frame.priority ≤ .critical ∧
      payloadErrors showJs frame.frameType.name (JsValue.ofData frame.payload) = [] := by
  rw [Accepts, Frame.serialize, JsValue.jsonParse, Doc.mapScalar_object]
  exact validateFrame_object showJs rfl rfl rfl

theorem payloadErrors_skeleton (d : JsonData) :
    payloadErrors showJs FrameType.skeleton.name (JsValue.ofData d) = [] := by
  rw [payloadErrors, if_pos (show FrameType.skeleton.name = "Skeleton" from rfl),
    if_neg (ofData_ne_undefined d)]

theorem payloadErrors_complete (payload : JsValue) :
    payloadErrors showJs FrameType.complete.name payload = [] := rfl

theorem acceptsWasm_skeleton {frame : Frame} (h : frame.frameType = .skeleton)
    (hpriority : frame.priority ≤ .critical) : AcceptsWasm showJs frame := by
  have hname : WasmBackend.mapFrameType "skeleton" = some FrameType.skeleton.name := by decide
  simp only [AcceptsWasm, WasmBackend.convertWasmFrame, Wasm.FrameData.ofFrame, h, hname]
  refine ⟨_, rfl, ?_⟩
  rw [validateFrame_object showJs rfl rfl rfl]
  exact ⟨hpriority, payloadErrors_skeleton showJs frame.payload⟩

theorem acceptsWasm_complete {frame : Frame} (h : frame.frameType = .complete)
    (hpriority : frame.priority ≤ .critical) : AcceptsWasm showJs frame := by
  have hname : WasmBackend.mapFrameType "complete" = some FrameType.complete.name := by decide
  simp only [AcceptsWasm, WasmBackend.convertWasmFrame, Wasm.FrameData.ofFrame, h, hname]
  refine ⟨_, rfl, ?_⟩
  rw [validateFrame_object showJs rfl rfl rfl]
  exact ⟨hpriority, payloadErrors_complete showJs _⟩

theorem acceptsWasm_patch {frame : Frame} {patches : List FramePatch} (h : frame.frameType = .patch)
    (hpayload : frame.payload = Frame.patchPayload patches) (hne : patches ≠ []) :
    AcceptsWasm showJs frame ↔
      frame.priority ≤ .critical ∧ ∀ patch ∈ patches, Addresses false patch.path.segments := by
  have hname : WasmBackend.mapFrameType "patch" = some FrameType.patch.name := by decide
  have hobject : JsValue.ofData (Frame.patchPayload patches) ≠ .scalar .null := by
    rw [Frame.patchPayload, JsValue.ofData_object]
    simp
  have hproperty := property_patchPayload patches
  rw [← hpayload] at hobject hproperty
  have harray : JsValue.falsy (.array (patches.map fun p => JsValue.ofData p.toPayload)) = false :=
    rfl
  simp only [AcceptsWasm, WasmBackend.convertWasmFrame, Wasm.FrameData.ofFrame, h, hname]
  change (∃ value, (if JsValue.ofData frame.payload = .scalar .null then none else
    some (Doc.object [("frame_type", .scalar (.string FrameType.patch.name)),
      ("priority", WasmBackend.number frame.priority.value),
      ("sequence", WasmBackend.number frame.sequence),
      ("payload", .object [("patches",
        if ((JsValue.ofData frame.payload).property "patches").falsy = true then .array []
        else (JsValue.ofData frame.payload).property "patches")]),
      ("metadata", .object [("source", .scalar (.string "wasm"))])])) = some value ∧ _) ↔ _
  rw [if_neg hobject, hproperty, harray, if_neg Bool.false_ne_true]
  simp only [Option.some.injEq, exists_eq_left']
  rw [validateFrame_object showJs rfl rfl rfl, payloadErrors_patches showJs hne rfl]

/-- A patch frame is accepted at a priority the client knows, if its paths are. -/
theorem accepts_patch {frame : Frame} {patches : List FramePatch} (h : frame.frameType = .patch)
    (hpayload : frame.payload = Frame.patchPayload patches) (hne : patches ≠ []) :
    Accepts showJs text frame ↔
      frame.priority ≤ .critical ∧ ∀ patch ∈ patches, Addresses false patch.path.segments := by
  rw [acceptsFrame_iff, h, hpayload, payloadErrors_patches showJs hne (property_patchPayload patches)]

end Wire

section Chunks

theorem max?_le_iff {l : List Priority} (hne : l ≠ []) {limit : Priority} :
    l.max?.getD .medium ≤ limit ↔ ∀ p ∈ l, p ≤ limit := by
  obtain ⟨top, htop⟩ : ∃ top, l.max? = some top := by
    rw [← Option.isSome_iff_exists, List.isSome_max?_iff]
    exact hne
  rw [htop, Option.getD_some, List.max?_le_iff htop]

/-- What holds of the priorities and patches of all chunks holds of all extracted patches. -/
theorem forall_chunks_iff {patches : List (FramePatch × Priority)} {maxFrames : ℕ}
    {A : FramePatch → Prop} {limit : Priority} :
    (∀ chunk ∈ Stream.chunkPatchesForCommit patches maxFrames,
      chunk.1 ≤ limit ∧ ∀ patch ∈ chunk.2, A patch) ↔
    (1 ≤ maxFrames → ∀ p ∈ patches, p.2 ≤ limit ∧ A p.1) := by
  unfold Stream.chunkPatchesForCommit
  split_ifs with hempty
  · rw [List.isEmpty_iff] at hempty
    refine iff_of_true (by simp) fun hpos p hp => ?_
    rcases hempty with rfl | hzero
    · cases hp
    · omega
  · have hpos : 1 ≤ maxFrames := by omega
    generalize hsize : max ((patches.length + maxFrames - 1) / maxFrames) 1 = size
    have hchunk : ∀ c ∈ patches.toChunks size,
        (((c.map Prod.snd).max?.getD .medium ≤ limit ∧ ∀ patch ∈ c.map Prod.fst, A patch) ↔
          ∀ p ∈ c, p.2 ≤ limit ∧ A p.1) := by
      intro c hc
      rw [max?_le_iff (by simpa using Lists.ne_nil_of_mem_toChunks hc), List.forall_mem_map,
        List.forall_mem_map, ← forall₂_and]
    have hflat := Lists.flatten_toChunks size patches
    rw [List.forall_mem_map, forall₂_congr hchunk, imp_iff_right hpos]
    conv_rhs => rw [← hflat]
    simp only [List.mem_flatten]
    exact ⟨fun h p ⟨c, hc, hp⟩ => h c hc p hp, fun h c hc p hp => h p ⟨c, hc, hp⟩⟩

end Chunks

section Acceptance
variable (showJs : JsValue → String) (text : TextForms)

/-- The frames of a stream's lifetime: its skeleton, its patch frames, its completion frame. -/
inductive Sends (env : Env) (stream : Stream) (threshold : Priority) (maxFrames : ℕ)
    (checksum : Option String) (frame : Frame) : Prop
  | skeleton (h : (stream.createSkeletonFrame env).1 = .ok frame)
  | patches {frames : List Frame}
      (h : (stream.createPatchFrames env threshold maxFrames).1 = .ok frames)
      (hframe : frame ∈ frames)
  | completion (h : (stream.createCompletionFrame env checksum).1 = .ok frame)

theorem accepts_stream_iff (env : Env) {stream : Stream} {d : DataDocument}
    (hstate : stream.state = .streaming) (hdata : stream.sourceData = some d)
    (threshold : Priority) (maxFrames : ℕ) (checksum : Option String) :
    (∀ frame, Sends env stream threshold maxFrames checksum frame → Accepts showJs text frame) ↔
    (1 ≤ maxFrames → ∀ (path : JsonPath) (v : JsonData),
      ⟨path.segments, .set v⟩ ∈ d.value.leaves ValidKey →
      threshold ≤ stream.computePriority path v →
      stream.computePriority path v ≤ .critical ∧ Addresses false path.segments) := by
  obtain ⟨frames, stream', hrun, hcarries, -⟩ :=
    Stream.createPatchFrames_carry env hstate hdata threshold maxFrames
  have hframes : (∀ frame ∈ frames, Accepts showJs text frame) ↔
      (1 ≤ maxFrames → ∀ p ∈ stream.extractPatches d.value threshold,
        p.2 ≤ .critical ∧ Addresses false p.1.path.segments) := by
    rw [← forall_chunks_iff (A := fun patch => Addresses false patch.path.segments)]
    refine (Lists.forall_mem_iff_of_forall₂ hcarries fun chunk hchunk frame hframe => ?_).symm
    obtain ⟨htype, hpriority, hpayload⟩ := hframe
    rw [accepts_patch showJs text htype hpayload
      (Stream.ne_nil_of_mem_chunkPatchesForCommit hchunk), hpriority]
  have hpatches : (∀ p ∈ stream.extractPatches d.value threshold,
        p.2 ≤ .critical ∧ Addresses false p.1.path.segments) ↔
      ∀ (path : JsonPath) (v : JsonData), ⟨path.segments, .set v⟩ ∈ d.value.leaves ValidKey →
        threshold ≤ stream.computePriority path v →
        stream.computePriority path v ≤ .critical ∧ Addresses false path.segments := by
    constructor
    · intro h path v hleaf hle
      exact h (FramePatch.set path v, stream.computePriority path v)
        (Stream.mem_extractPatches_iff.mpr ⟨hleaf, rfl, rfl, hle⟩)
    · intro h p hp
      obtain ⟨hleaf, -, hpri, hle⟩ := Stream.mem_extractPatches_iff.mp hp
      rw [hpri] at hle ⊢
      exact h p.1.path p.1.value hleaf hle
  rw [← hpatches, ← hframes]
  constructor
  · exact fun h frame hframe => h frame (.patches (congrArg Prod.fst hrun) hframe)
  · intro h frame hsends
    cases hsends with
    | skeleton hs =>
      simp only [Stream.createSkeletonFrame, hstate, hdata, ne_eq, not_true_eq_false, if_false,
        Except.ok.injEq] at hs
      subst hs
      rw [acceptsFrame_iff]
      exact ⟨le_refl Priority.critical, payloadErrors_skeleton showJs _⟩
    | @patches frames' hs hframe =>
      rw [hrun, Except.ok.injEq] at hs
      exact h frame (hs ▸ hframe)
    | completion hs =>
      simp only [Stream.createCompletionFrame, hstate, ne_eq, not_true_eq_false, if_false,
        Except.ok.injEq] at hs
      subst hs
      rw [acceptsFrame_iff]
      exact ⟨le_refl Priority.critical, payloadErrors_complete showJs _⟩

end Acceptance

end FrameProcessor

namespace Wasm

theorem payload_of_mem_patchFrames {utc : ℕ → DateTime}
    {grouped : AssocMap Priority (List PrioritizedField)} {streamId : StreamId}
    {minPriority : Priority} {priorities : List Priority} {sequence next : ℕ} {frames : List Frame}
    (h : patchFrames utc grouped streamId minPriority priorities sequence = .ok (frames, next))
    {frame : Frame} (hf : frame ∈ frames) :
    frame.patches ≠ [] ∧ frame.payload = Frame.patchPayload frame.patches := by
  induction priorities generalizing sequence frames with
  | nil =>
    cases h
    cases hf
  | cons priority rest ih =>
    rw [patchFrames] at h
    split_ifs at h with hlow
    · exact ih h hf
    · split at h
      · exact ih h hf
      · rename_i fields _
        simp only at h
        split_ifs at h with hempty
        · exact ih h hf
        · split at h
          · cases h
          · rename_i first hfirst
            obtain ⟨⟨others, next'⟩, hrest, hframes⟩ := JsonData.bind_eq_ok h
            cases hframes
            rcases List.mem_cons.mp hf with rfl | hf
            · rw [Frame.patches_of_patch hfirst]
              refine ⟨by simpa using hempty, ?_⟩
              rw [Frame.patch, if_neg hempty, Except.ok.injEq] at hfirst
              rw [← hfirst]
              rfl
            · exact ih hrest hf

theorem payload_of_mem_generateFrames {env : GenerationEnv} {assigner : PriorityAssigner}
    {data : JsonData} {streamId : StreamId} {minPriority : Priority} {maxDepth : ℕ}
    {frames : List Frame}
    (h : generateFrames env assigner data streamId minPriority maxDepth = .ok frames)
    {frame : Frame} (hf : frame ∈ frames) (htype : frame.frameType = .patch) :
    frame.patches ≠ [] ∧ frame.payload = Frame.patchPayload frame.patches := by
  obtain ⟨⟨middle, next⟩, hrun, hframes⟩ := JsonData.bind_eq_ok h
  cases hframes
  simp only [List.cons_append, List.mem_cons, List.mem_append, List.not_mem_nil, or_false] at hf
  rcases hf with rfl | hf | rfl
  · cases htype
  · exact payload_of_mem_patchFrames hrun hf
  · cases htype

theorem calculateFieldPriority_le (config : PriorityConfig) (path : JsonPath) (v : JsonData) :
    (PriorityAssigner.withConfig config).calculateFieldPriority path v ≤ .critical := by
  have hnone : ∀ key p, config.toHeuristic.overrides.get? key = some p → p.value ≤ 100 := nofun
  have hsame : (PriorityAssigner.withConfig config).calculateFieldPriority path v =
      computePriority config.toHeuristic path v :=
    congrArg (fun cfg => computePriority cfg path v) (ite_self _)
  rw [hsame]
  exact computePriority_le hnone path v

end Wasm

namespace FrameProcessor

variable (showJs : JsValue → String) (text : TextForms)

theorem accepts_wasm_iff (env : Wasm.GenerationEnv) (config : Wasm.PriorityConfig)
    (d : IndexedDocument) (streamId : StreamId) (minPriority : Priority) (maxDepth : ℕ) :
    (∃ frames, Wasm.generateFrames env (.withConfig config) d.value streamId minPriority maxDepth =
        .ok frames ∧ ∀ frame ∈ frames, AcceptsWasm showJs frame) ↔
    ∀ (path : JsonPath) (v : JsonData), Doc.FieldAt ValidKey maxDepth d.value path.segments v →
      minPriority ≤ (Wasm.PriorityAssigner.withConfig config).calculateFieldPriority path v →
      Addresses false path.segments := by
  obtain ⟨frames, sequence, priorities, hrun, hlevels, hpriorities⟩ :=
    Wasm.generateFrames_eq_ok env (.withConfig config) d.value streamId minPriority maxDepth
  -- a patch frame is right if its paths are, since the heuristic never exceeds the limit
  have hpatch : ∀ frame ∈ frames, (AcceptsWasm showJs frame ↔
      ∀ patch ∈ frame.patches, Addresses false patch.path.segments) := by
    intro frame hframe
    have htype := Wasm.frameType_of_levels hlevels frame hframe
    obtain ⟨hne, hpayload⟩ := Wasm.payload_of_mem_generateFrames hrun (by simp [hframe]) htype
    have hpriority : frame.priority ≤ .critical := by
      by_contra hover
      obtain ⟨patch, hpatch⟩ := List.exists_mem_of_ne_nil _ hne
      obtain ⟨f, hf, -, hlimit⟩ := (Wasm.exists_mem_patches_iff hlevels
        (P := fun priority _ => ¬ priority ≤ .critical)).mp ⟨frame, hframe, patch, hpatch, hover⟩
      obtain ⟨hpri, -⟩ := (Wasm.mem_extractFields_iff _ _ d.sized).mp hf
      exact hlimit (hpri ▸ Wasm.calculateFieldPriority_le config f.path f.value)
    rw [acceptsWasm_patch showJs htype hpayload hne, and_iff_right hpriority]
  have hfields : (∀ frame ∈ frames, AcceptsWasm showJs frame) ↔
      ∀ f ∈ Wasm.PriorityAssigner.extractPrioritizedFieldsWithLimit (.withConfig config) maxDepth
        d.value, minPriority ≤ f.priority → Addresses false f.path.segments := by
    have hnot := (Wasm.exists_mem_patches_iff hlevels
      (P := fun _ patch => ¬ Addresses false patch.path.segments)).not
    simp only [not_exists, not_and, not_not] at hnot
    rw [forall₂_congr hpatch, hnot]
    refine forall₂_congr fun f hf => ?_
    rw [hpriorities]
    exact ⟨fun h hle => h ⟨hle, f, hf, rfl⟩, fun h hmem => h hmem.1⟩
  constructor
  · rintro ⟨all, hall, haccepts⟩ path v hfield hle
    rw [hrun, Except.ok.injEq] at hall
    subst hall
    refine hfields.mp (fun frame hframe => haccepts frame (by simp [hframe])) ⟨path, _, v⟩ ?_ hle
    exact (Wasm.mem_extractFields_iff _ _ d.sized).mpr ⟨rfl, path.segments, rfl, hfield⟩
  · intro h
    refine ⟨_, hrun, fun frame hframe => ?_⟩
    simp only [List.cons_append, List.mem_cons, List.mem_append, List.not_mem_nil, or_false]
      at hframe
    rcases hframe with rfl | hframe | rfl
    · exact acceptsWasm_skeleton showJs rfl (le_refl Priority.critical)
    · refine hfields.mpr (fun f hf hle => ?_) frame hframe
      obtain ⟨hpri, q, hseg, hfield⟩ := (Wasm.mem_extractFields_iff _ _ d.sized).mp hf
      have hseg : f.path.segments = q := hseg
      exact h f.path f.value (hseg ▸ hfield) (hpri ▸ hle)
    · exact acceptsWasm_complete showJs rfl (le_refl Priority.critical)

/-- The client accepts every frame iff every path sent names its value by identifiers, each with
one index at most, and no priority of the stream lies above the client's range. -/
theorem frames_accepted_iff (env : Env) {stream : Stream} {d : IndexedDocument}
    (hstate : stream.state = .streaming) (hdata : stream.sourceData = some d.toDataDocument)
    (threshold : Priority) (maxFrames : ℕ) (checksum : Option String) (genEnv : Wasm.GenerationEnv)
    (config : Wasm.PriorityConfig) (streamId : StreamId) (minPriority : Priority) (maxDepth : ℕ) :
    ((∀ frame, Sends env stream threshold maxFrames checksum frame →
        Accepts showJs text frame) ∧
      ∃ frames, Wasm.generateFrames genEnv (.withConfig config) d.value streamId minPriority
          maxDepth = .ok frames ∧ ∀ frame ∈ frames, AcceptsWasm showJs frame) ↔
    (1 ≤ maxFrames → ∀ (path : JsonPath) (v : JsonData),
      ⟨path.segments, .set v⟩ ∈ d.value.leaves ValidKey →
      threshold ≤ stream.computePriority path v →
      stream.computePriority path v ≤ .critical ∧ Addresses false path.segments) ∧
    (∀ (path : JsonPath) (v : JsonData), Doc.FieldAt ValidKey maxDepth d.value path.segments v →
      minPriority ≤ (Wasm.PriorityAssigner.withConfig config).calculateFieldPriority path v →
      Addresses false path.segments) :=
  and_congr (accepts_stream_iff showJs text env hstate hdata threshold maxFrames checksum)
    (accepts_wasm_iff showJs genEnv config d streamId minPriority maxDepth)

theorem frames_accepted_iff_user :
    ((∀ frame, Sends Stream.stillEnv (Stream.started Wasm.userDocument.toDataDocument) .minimum 1
        none frame → Accepts (fun _ => "") epochTexts frame) ∧
      ∃ frames, Wasm.generateFrames (.still .epoch) (.withConfig .default) Wasm.userDocument.value
          ⟨1⟩ .minimum 64 = .ok frames ∧ ∀ frame ∈ frames, AcceptsWasm (fun _ => "") frame) ↔
    (1 ≤ 1 → ∀ (path : JsonPath) (v : JsonData),
      ⟨path.segments, .set v⟩ ∈ Wasm.userDocument.value.leaves ValidKey →
      Priority.minimum ≤
        (Stream.started Wasm.userDocument.toDataDocument).computePriority path v →
      (Stream.started Wasm.userDocument.toDataDocument).computePriority path v ≤ .critical ∧
        Addresses false path.segments) ∧
    (∀ (path : JsonPath) (v : JsonData),
      Doc.FieldAt ValidKey 64 Wasm.userDocument.value path.segments v →
      Priority.minimum ≤ (Wasm.PriorityAssigner.withConfig .default).calculateFieldPriority path v →
      Addresses false path.segments) :=
  frames_accepted_iff (fun _ => "") epochTexts Stream.stillEnv rfl rfl .minimum 1 none
    (.still .epoch) .default ⟨1⟩ .minimum 64

def hyphenDocument : DataDocument where
  value := .object [("user-id", JsonData.integer 7)]
  distinct := .object (by decide) (by simpa using .scalar _)

/-- A key with a hyphen is a valid key, and the frame that carries its value is rejected. -/
theorem hyphen_not_accepted :
    ValidKey "user-id" ∧
    ∃ frame, Sends Stream.stillEnv (Stream.started hyphenDocument) .minimum 1 none frame ∧
      validateFrame (fun _ => "") (JsValue.jsonParse (frame.serialize epochTexts)) =
        ["Patch operation 0 has invalid JSON path: $.user-id"] := by
  refine ⟨by decide, _, .patches rfl (List.mem_singleton_self _), ?_⟩
  decide +kernel

end FrameProcessor

end PJS
