import PJS.Client.Acceptance
import PJS.Client.Reconstructor
import PJS.Domain.FrameReading

/-! From the source data to the result of the client: over keys that are identifiers, the client
rebuilds what a stream sends. -/
namespace PJS.Client

namespace PJSClient

inductive PJSErrorType where
  | protocolError
  | validationError
deriving DecidableEq

structure PJSError where
  type : PJSErrorType
  message : String
deriving DecidableEq

/-- One call of `processStream` without callbacks. The outcomes are what `applyPatch` has returned;
the handler drops them. -/
structure StreamRun where
  reconstructor : JsonReconstructor
  result : JsValue
  outcomes : List JsonReconstructor.PatchOutcome
  settled : Option (Except PJSError JsValue)

def StreamRun.start : StreamRun := ⟨.new, .scalar .undefined, [], none⟩

section Handler
variable (showJs : JsValue → String) (showNumber : Float → String)

/-- The listener for frames; it is removed once the promise has settled. -/
def frameReceivedHandler (run : StreamRun) (frame : JsValue) : StreamRun :=
  if run.settled.isSome then run
  else match FrameProcessor.validateFrame showJs frame with
    | error :: errors => { run with
        settled := some (.error ⟨.validationError,
          "Invalid frame: " ++ ", ".intercalate (error :: errors)⟩) }
    | [] =>
      match frame.property "frame_type" with
      | .scalar (.string "Skeleton") =>
        let (data, reconstructor) := run.reconstructor.processSkeleton frame
        { run with
          reconstructor
          result := match data with
            | .ok data => data
            | .error _ => .scalar .undefined }
      | .scalar (.string "Patch") =>
        if run.result.falsy then { run with
          settled := some (.error ⟨.protocolError, "Received patch frame before skeleton"⟩) }
        else
          let (outcome, reconstructor) := run.reconstructor.applyPatch showNumber frame
          { run with
            reconstructor
            result := reconstructor.getCurrentState
            outcomes := run.outcomes ++ [outcome] }
      | .scalar (.string "Complete") => { run with settled := some (.ok run.result) }
      | _ => run

def processStream (frames : List JsValue) : StreamRun :=
  frames.foldl (frameReceivedHandler showJs showNumber) .start

end Handler

end PJSClient

namespace JsonReconstructor

section DeepClone

theorem deepCloneEntries_eq_foldl {m : List (String × JsValue)}
    (h : ∀ k v, (k, v) ∈ m → deepClone v = v) (cloned : List (String × JsValue)) :
    deepCloneEntries cloned m = m.foldl (fun a e => Assoc.insert e.1 e.2 a) cloned := by
  induction m generalizing cloned with
  | nil => rfl
  | cons e m ih =>
    obtain ⟨k, v⟩ := e
    rw [deepCloneEntries, h k v (by simp), ih fun j w hj => h j w (by simp [hj]), List.foldl_cons]

theorem deepCloneItems_eq {xs : List JsValue} (h : ∀ x ∈ xs, deepClone x = x) :
    deepCloneItems xs = xs := by
  induction xs with
  | nil => rfl
  | cons x xs ih => rw [deepCloneItems, h x (by simp), ih fun y hy => h y (by simp [hy])]

/-- A clone is the value again. -/
theorem deepClone_eq {v : JsValue} (hv : v.Keyed (· ≠ ·)) : deepClone v = v := by
  induction hv with
  | scalar s => rfl
  | array _ ih => rw [deepClone, deepCloneItems_eq ih]
  | object hk _ ih =>
    rw [deepClone, deepCloneEntries_eq_foldl ih, Assoc.foldl_insert_eq (by rwa [List.nil_append]),
      List.nil_append]

end DeepClone

/-- A key that the reconstructor walks through. -/
def SafeKey (key : String) : Prop := FrameProcessor.IsIdentifier key ∧ key ∉ unsafeKeys

instance (key : String) : Decidable (SafeKey key) := by
  unfold SafeKey
  infer_instance

section Paths
variable (showNumber : Float → String)

theorem identifier_chars {key : String} (h : FrameProcessor.IsIdentifier key) :
    ∀ c ∈ key.toList, FrameProcessor.isIdentifierRest c = true := by
  intro c hc
  unfold FrameProcessor.IsIdentifier at h
  cases hchars : key.toList with
  | nil =>
    rw [hchars] at hc
    cases hc
  | cons first rest =>
    rw [hchars] at hc h
    rcases List.mem_cons.mp hc with rfl | hc
    · rw [FrameProcessor.isIdentifierRest, h.1, Bool.true_or]
    · exact List.all_eq_true.mp h.2 c hc

theorem notMem_identifier {key : String} (h : FrameProcessor.IsIdentifier key) {c : Char}
    (hc : FrameProcessor.isIdentifierRest c = false) : c ∉ key.toList := fun hmem => by
  rw [identifier_chars h c hmem] at hc
  cases hc

theorem validKey_of_identifier {key : String} (h : FrameProcessor.IsIdentifier key) :
    ValidKey key := by
  refine ⟨?_, notMem_identifier h rfl, notMem_identifier h rfl, notMem_identifier h rfl⟩
  rintro rfl
  exact h

theorem parseSegment_identifier {key : String} (h : FrameProcessor.IsIdentifier key) :
    parseSegment showNumber key = (key, none) := by
  have hall : ∀ c ∈ key.toList, (c ≠ '[' && c ≠ ']') = true := by
    intro c hc
    have hopen : c ≠ '[' := fun he => notMem_identifier h (c := '[') rfl (he ▸ hc)
    have hclose : c ≠ ']' := fun he => notMem_identifier h (c := ']') rfl (he ▸ hc)
    simp [hopen, hclose]
  have hspan : key.toList.span (fun c => c ≠ '[' && c ≠ ']') = (key.toList, []) := by
    rw [List.span_eq_takeWhile_dropWhile, List.takeWhile_eq_self_iff.mpr hall,
      List.dropWhile_eq_nil_iff.mpr hall]
  rw [parseSegment, hspan]

theorem splitOn_keys {key : String} {keys : List String} (h : ∀ k ∈ key :: keys, '.' ∉ k.toList) :
    (key.toList ++ keys.flatMap fun k => '.' :: k.toList).splitOn '.' =
      (key :: keys).map String.toList := by
  induction keys generalizing key with
  | nil =>
    rw [List.flatMap_nil, List.append_nil, List.splitOn_eq_singleton (h key (by simp))]
    rfl
  | cons next keys ih =>
    rw [List.flatMap_cons, List.cons_append,
      List.splitOn_append_cons_self_of_not_mem (h key (by simp)),
      ih fun k hk => h k (List.mem_cons_of_mem key hk), List.map_cons, List.map_cons, List.map_cons]

/-- The walk sees the keys of a path that has no index. -/
theorem pathSegments_toString {path : JsonPath} {key : String} {keys : List String}
    (hpath : path.segments = (key :: keys).map .key) (h : ∀ k ∈ key :: keys, '.' ∉ k.toList) :
    ['$', '.'].isPrefixOf path.toString.toList = true ∧
      pathSegments path.toString = key :: keys := by
  have htext : path.toString.toList =
      '$' :: '.' :: (key.toList ++ keys.flatMap fun k => '.' :: k.toList) := by
    rw [path.toList_toString, hpath, List.flatMap_map, List.flatMap_cons]
    rfl
  refine ⟨by rw [htext]; rfl, ?_⟩
  rw [pathSegments, htext]
  change ((key.toList ++ keys.flatMap fun k => '.' :: k.toList).splitOn '.').map String.ofList = _
  rw [splitOn_keys h, List.map_map]
  exact List.map_id'' (fun k => String.ofList_toList) _

/-- Assigning along safe keys is setting the value that a document has there. -/
theorem editAt_assign {keys : List String} (hne : keys ≠ []) (hkeys : ∀ k ∈ keys, SafeKey k)
    {v s s' : JsValue} (h : Doc.Patch.run ⟨keys.map .key, .set v⟩ s = some s') :
    editAt showNumber (assign v) keys s = (s', true) := by
  induction keys generalizing s s' with
  | nil => exact absurd rfl hne
  | cons key keys ih =>
    obtain ⟨hidentifier, hsafe⟩ := hkeys key (by simp)
    have hparse := parseSegment_identifier showNumber hidentifier
    rcases s with a | xs | m
    · cases h
    · cases h
    · obtain ⟨c, hc, h⟩ := Option.bind_eq_some_iff.mp h
      obtain ⟨c', hc', h⟩ := Option.bind_eq_some_iff.mp h
      cases h
      have hmem : key ∈ m.map Prod.fst :=
        List.mem_map_of_mem (f := Prod.fst) (Assoc.mem_of_lookup hc)
      cases keys with
      | nil =>
        cases hc'
        rw [editAt, hparse]
        simp only [hsafe, if_false, assign, JsValue.defineProperty, Assoc.insert, hmem, if_true]
      | cons next keys =>
        have hown : JsValue.own? (.object m) key = some c := hc
        have hrest := ih (by simp) (fun k hk => hkeys k (List.mem_cons_of_mem key hk)) hc'
        rw [editAt, hparse]
        · simp only [hsafe, if_false, hown, Option.isSome_some, if_true, Option.getD_some, hrest,
            JsValue.writeBack, JsValue.defineProperty, Assoc.insert, hmem]
        · simp

/-- The patch sets a value along safe keys. -/
def SetsSafely (patch : FramePatch) : Prop :=
  patch.operation = .set ∧ ∃ key keys, patch.path.segments = (key :: keys).map .key ∧
    ∀ k ∈ key :: keys, SafeKey k

theorem run_set_ofData {path : List PathSegment} {v s s' : JsonData}
    (h : Doc.Patch.run ⟨path, .set v⟩ s = some s') :
    Doc.Patch.run ⟨path, .set (JsValue.ofData v)⟩ (JsValue.ofData s) = some (JsValue.ofData s') :=
  Doc.run_set_mapScalar JsValue.parseScalar (Doc.run_set_mapScalar JsonData.serializeScalar h)

theorem applyOne_setting {patch : FramePatch} (hpatch : SetsSafely patch) {s s' : JsonData}
    (h : patch.setting.run s = some s') :
    applyOne showNumber (JsValue.ofData s) (JsValue.ofData patch.toPayload) =
      (JsValue.ofData s', true) := by
  obtain ⟨hoperation, key, keys, hpath, hkeys⟩ := hpatch
  obtain ⟨hstart, hsegments⟩ :=
    pathSegments_toString hpath fun k hk => (validKey_of_identifier (hkeys k hk).1).2.1
  have hrun := run_set_ofData h
  rw [hpath] at hrun
  rw [applyOne, JsValue.ofData_toPayload]
  simp only [JsValue.property_object, List.lookup, Option.getD_some, beq_self_eq_true, hstart,
    hoperation, FramePatch.PatchOperation.name, show ("operation" == "path") = false from rfl,
    show ("value" == "path") = false from rfl, show ("value" == "operation") = false from rfl,
    if_true, setPatchValue, hsegments]
  exact editAt_assign showNumber (by simp) hkeys hrun

/-- All patches are applied, and leave what they leave of the document. -/
theorem applyAll_settings {patches : List FramePatch} (hpatches : ∀ p ∈ patches, SetsSafely p)
    {s s' : JsonData} (h : Doc.runAll (patches.map FramePatch.setting) s = some s') :
    applyAll showNumber (patches.map fun p => JsValue.ofData p.toPayload) (JsValue.ofData s) =
      (JsValue.ofData s', patches.length, 0) := by
  induction patches generalizing s with
  | nil =>
    cases h
    rfl
  | cons patch patches ih =>
    rw [List.map_cons, Doc.runAll_cons] at h
    obtain ⟨t, hfirst, hrest⟩ := Option.bind_eq_some_iff.mp h
    rw [List.map_cons, applyAll, applyOne_setting showNumber (hpatches patch (by simp)) hfirst]
    simp only [ih (fun p hp => hpatches p (by simp [hp])) hrest, if_true, List.length_cons]

end Paths

end JsonReconstructor

namespace PJSClient

open PJS.Client.JsonReconstructor FrameProcessor

section Run
variable (showJs : JsValue → String) (showNumber : Float → String) (text : TextForms)

/-- The run has come to the state `s` of the document, through that many patch frames, none of
which was skipped in part. -/
structure StreamRun.At (run : StreamRun) (s : JsonData) (frames : ℕ) : Prop where
  settled : run.settled = none
  initialized : run.reconstructor.initialized = true
  state : run.reconstructor.state = JsValue.ofData s
  result : run.result = JsValue.ofData s
  distinct : s.Distinct
  isObject : ∃ m, s = .object m
  length : run.outcomes.length = frames
  applied : ∀ outcome ∈ run.outcomes, outcome.success = true ∧ outcome.skippedPatches = 0 ∧
    outcome.appliedPatches = outcome.totalPatches

/-- The frame as it arrives. -/
def received (frame : Frame) : JsValue := JsValue.jsonParse (frame.serialize text)

theorem received_eq (frame : Frame) :
    received text frame = .object [("stream_id", .scalar (.string frame.streamId.toString)),
      ("frame_type", .scalar (.string frame.frameType.name)),
      ("priority", WasmBackend.number frame.priority.value),
      ("sequence", WasmBackend.number frame.sequence),
      ("timestamp", .scalar (.string (text.showTime frame.timestamp))),
      ("payload", JsValue.ofData frame.payload),
      ("metadata", .object (frame.metadata.entries.map fun e => (e.1, .scalar (.string e.2))))] := by
  rw [received, Frame.serialize, JsValue.jsonParse, Doc.mapScalar_object]
  simp only [List.map_cons, List.map_nil, Doc.mapScalar_object, List.map_map]
  rfl

theorem property_received (frame : Frame) :
    (received text frame).property "frame_type" = .scalar (.string frame.frameType.name) ∧
      (received text frame).property "payload" = JsValue.ofData frame.payload := by
  rw [received_eq]
  exact ⟨rfl, rfl⟩

/-- Settings below the root of an object leave an object. -/
theorem distinct_of_runAll {patches : List FramePatch} (hpatches : ∀ p ∈ patches, SetsSafely p)
    (hdistinct : ∀ p ∈ patches, p.value.Distinct) {s s' : JsonData} (hs : s.Distinct)
    (hobject : ∃ m, s = .object m)
    (h : Doc.runAll (patches.map FramePatch.setting) s = some s') :
    s'.Distinct ∧ ∃ m, s' = .object m := by
  induction patches generalizing s with
  | nil =>
    cases h
    exact ⟨hs, hobject⟩
  | cons patch patches ih =>
    rw [List.map_cons, Doc.runAll_cons] at h
    obtain ⟨t, hfirst, hrest⟩ := Option.bind_eq_some_iff.mp h
    refine ih (fun p hp => hpatches p (by simp [hp])) (fun p hp => hdistinct p (by simp [hp]))
      (hs.run_set (hdistinct patch (by simp)) hfirst) ?_ hrest
    obtain ⟨-, key, keys, hpath, -⟩ := hpatches patch (by simp)
    obtain ⟨m, rfl⟩ := hobject
    rw [FramePatch.setting, hpath] at hfirst
    obtain ⟨c, -, hfirst⟩ := Option.bind_eq_some_iff.mp hfirst
    obtain ⟨c', -, hfirst⟩ := Option.bind_eq_some_iff.mp hfirst
    exact ⟨_, (Option.some.inj hfirst).symm⟩

theorem handler_skeleton {frame : Frame} (h : frame.frameType = .skeleton)
    (haccepts : Accepts showJs text frame) (hdistinct : frame.payload.Distinct)
    (hobject : ∃ m, frame.payload = .object m) :
    (frameReceivedHandler showJs showNumber .start (received text frame)).At frame.payload 0 := by
  have hvalid : validateFrame showJs (received text frame) = [] := haccepts
  obtain ⟨htype, hpayload⟩ := property_received text frame
  rw [h] at htype
  have hdefined := ofData_ne_undefined frame.payload
  have hkeyed : (JsValue.ofData frame.payload).Keyed (· ≠ ·) :=
    (hdistinct.mapScalar _).mapScalar _
  have hrun : frameReceivedHandler showJs showNumber .start (received text frame) =
      ⟨⟨JsValue.ofData frame.payload, true, 0⟩, JsValue.ofData frame.payload, [], none⟩ := by
    simp only [frameReceivedHandler, StreamRun.start, Option.isSome_none, Bool.false_eq_true,
      if_false, hvalid, htype, FrameType.name, processSkeleton, JsonReconstructor.new, hpayload,
      hdefined, deepClone_eq hkeyed]
  rw [hrun]
  exact ⟨rfl, rfl, rfl, rfl, hdistinct, hobject, rfl, by simp⟩

/-- A frame of patches that set values of a document takes the run from one state to the next. -/
theorem handler_patch {frame : Frame} {patches : List FramePatch} (h : frame.frameType = .patch)
    (hpayload : frame.payload = Frame.patchPayload patches)
    (haccepts : Accepts showJs text frame) (hpatches : ∀ p ∈ patches, SetsSafely p)
    (hdistinct : ∀ p ∈ patches, p.value.Distinct) {run : StreamRun} {s s' : JsonData} {n : ℕ}
    (hrun : run.At s n) (hall : Doc.runAll (patches.map FramePatch.setting) s = some s') :
    (frameReceivedHandler showJs showNumber run (received text frame)).At s' (n + 1) := by
  have hvalid : validateFrame showJs (received text frame) = [] := haccepts
  obtain ⟨htype, hproperty⟩ := property_received text frame
  obtain ⟨hdistinct', hobject'⟩ :=
    distinct_of_runAll hpatches hdistinct hrun.distinct hrun.isObject hall
  have hkeyed : (JsValue.ofData s').Keyed (· ≠ ·) := (hdistinct'.mapScalar _).mapScalar _
  have hresult : run.result.falsy = false := by
    obtain ⟨m, hm⟩ := hrun.isObject
    rw [hrun.result, hm, JsValue.ofData_object]
    rfl
  have hstate : JsValue.ofData s' ≠ .scalar .null := by
    obtain ⟨m, hm⟩ := hobject'
    rw [hm, JsValue.ofData_object]
    exact nofun
  rw [h] at htype
  rw [hpayload] at hproperty
  have hpatch : run.reconstructor.applyPatch showNumber (received text frame) =
      (⟨true, patches.length, 0, patches.length, none⟩,
        { run.reconstructor with
          state := JsValue.ofData s'
          patchesApplied := run.reconstructor.patchesApplied + patches.length }) := by
    simp only [applyPatch, hproperty, property_patchPayload, hrun.initialized, hrun.state,
      applyAll_settings showNumber hpatches hall, Bool.not_true, Bool.false_eq_true, if_false,
      List.length_map, beq_self_eq_true, Bool.or_true]
  have hnext : frameReceivedHandler showJs showNumber run (received text frame) =
      { run with
        reconstructor := { run.reconstructor with
          state := JsValue.ofData s'
          patchesApplied := run.reconstructor.patchesApplied + patches.length }
        result := JsValue.ofData s'
        outcomes := run.outcomes ++ [⟨true, patches.length, 0, patches.length, none⟩] } := by
    simp only [frameReceivedHandler, hrun.settled, Option.isSome_none, Bool.false_eq_true,
      if_false, hvalid, htype, FrameType.name, hresult, hpatch, getCurrentState, hstate,
      deepClone_eq hkeyed]
  rw [hnext]
  exact {
    settled := hrun.settled
    initialized := hrun.initialized
    state := rfl
    result := rfl
    distinct := hdistinct'
    isObject := hobject'
    length := by rw [List.length_append, hrun.length, List.length_singleton]
    applied := by
      intro outcome houtcome
      rcases List.mem_append.mp houtcome with houtcome | houtcome
      · exact hrun.applied outcome houtcome
      · rw [List.mem_singleton.mp houtcome]
        exact ⟨rfl, rfl, rfl⟩ }

theorem handler_complete {frame : Frame} (h : frame.frameType = .complete)
    (haccepts : Accepts showJs text frame) {run : StreamRun} {s : JsonData} {n : ℕ}
    (hrun : run.At s n) :
    frameReceivedHandler showJs showNumber run (received text frame) =
      { run with settled := some (.ok (JsValue.ofData s)) } := by
  have hvalid : validateFrame showJs (received text frame) = [] := haccepts
  obtain ⟨htype, -⟩ := property_received text frame
  rw [h] at htype
  simp only [frameReceivedHandler, hrun.settled, Option.isSome_none, Bool.false_eq_true, if_false,
    hvalid, htype, FrameType.name, hrun.result]

/-- Frame by frame, the run goes through the states of the document. -/
theorem foldl_patches {frames : List Frame} {chunks : List (Priority × List FramePatch)}
    (hcarries : List.Forall₂ Stream.Carries chunks frames)
    (haccepts : ∀ frame ∈ frames, Accepts showJs text frame)
    (hpatches : ∀ chunk ∈ chunks, ∀ p ∈ chunk.2, SetsSafely p ∧ p.value.Distinct)
    {run : StreamRun} {s s' : JsonData} {n : ℕ} (hrun : run.At s n)
    (hall : Doc.runAll ((chunks.flatMap Prod.snd).map FramePatch.setting) s = some s') :
    ((frames.map (received text)).foldl (frameReceivedHandler showJs showNumber) run).At s'
      (n + frames.length) := by
  induction hcarries generalizing run s n with
  | nil =>
    cases hall
    exact hrun
  | @cons chunk frame chunks frames hframe _ ih =>
    obtain ⟨htype, -, hpayload⟩ := hframe
    rw [List.flatMap_cons, List.map_append, Doc.runAll_append] at hall
    obtain ⟨t, hfirst, hrest⟩ := Option.bind_eq_some_iff.mp hall
    have hchunk := hpatches chunk (by simp)
    have hnext := handler_patch showJs showNumber text htype hpayload (haccepts frame (by simp))
      (fun p hp => (hchunk p hp).1) (fun p hp => (hchunk p hp).2) hrun hfirst
    have hdone := ih (fun f hf => haccepts f (by simp [hf])) (fun c hc => hpatches c (by simp [hc]))
      hnext hrest
    rw [List.map_cons, List.foldl_cons, List.length_cons]
    rwa [show n + (frames.length + 1) = n + 1 + frames.length by omega]

end Run

section Stream
variable (showJs : JsValue → String) (showNumber : Float → String) (text : TextForms)
  {stream : Stream} {d : DataDocument}

/-- The leaves of an object over safe keys are set safely. -/
theorem setsSafely_of_mem_leaves {m : List (String × JsonData)} (hm : d.value = .object m)
    (hkeys : d.value.Addressable SafeKey) {patch : FramePatch} (hoperation : patch.operation = .set)
    (h : patch.setting ∈ d.value.leaves ValidKey) : SetsSafely patch ∧ patch.value.Distinct := by
  obtain ⟨keys, hpath, hsafe⟩ := Doc.exists_keys_of_mem_leaves hkeys h
  have hfield : ∀ (m : List (String × JsonData)) (k : String) (v : JsonData),
      JsonData.Distinct (.object m) → (k, v) ∈ m → v.Distinct := fun m k v hd hkv =>
    (Doc.keyed_object_iff.mp hd).2 k v hkv
  obtain ⟨v, hv, hdistinct⟩ :=
    Doc.forall_leaves (Q := fun v => JsonData.Distinct v) hfield d.distinct h
  cases hv
  rw [hm, Doc.leaves] at h
  obtain ⟨k, v, -, -, q, -, hbelow⟩ := Doc.mem_fieldLeaves.mp h
  rw [hbelow, Doc.Patch.below] at hpath
  cases keys with
  | nil => cases hpath
  | cons key keys =>
    have hsegments : patch.path.segments = (key :: keys).map .key :=
      (congrArg Doc.Patch.path hbelow).trans hpath
    exact ⟨⟨hoperation, key, keys, hsegments, hsafe⟩, hdistinct⟩

/-- Over identifiers and within the client's range of priorities, every frame is accepted. -/
theorem accepts_of_sends (env : Env) (hstate : stream.state = .streaming)
    (hdata : stream.sourceData = some d) (hkeys : d.value.Addressable SafeKey)
    (hrules : ∀ key p, stream.config.priorityRules.get? key = some p → p ≤ .critical)
    {threshold : Priority} {maxFrames : ℕ} {checksum : Option String} {frame : Frame}
    (h : Sends env stream threshold maxFrames checksum frame) : Accepts showJs text frame := by
  refine (accepts_stream_iff showJs text env hstate hdata threshold maxFrames checksum).mpr
    (fun _ path v hleaf _ => ⟨?_, ?_⟩) frame h
  · unfold Stream.computePriority
    simp only
    split_ifs
    · exact computePriority_le (fun _ _ hnone => by cases hnone) path v
    · exact computePriority_le hrules path v
  · obtain ⟨keys, hpath, hsafe⟩ := Doc.exists_keys_of_mem_leaves hkeys hleaf
    have haddresses : ∀ (keys : List String) (afterKey : Bool), (∀ k ∈ keys, SafeKey k) →
        Addresses afterKey (keys.map .key) := by
      intro keys
      induction keys with
      | nil => exact fun afterKey _ => by cases afterKey <;> trivial
      | cons key keys ih =>
        intro afterKey hsafe
        have hrest := ih true fun k hk => hsafe k (by simp [hk])
        cases afterKey <;> exact ⟨(hsafe key (by simp)).1, hrest⟩
    rw [show path.segments = keys.map .key from hpath]
    exact haddresses keys false hsafe

/-- The three calls of the stream succeed, the client accepts every frame, skips no patch, and
resolves to a value with the property. -/
def Reconstructs (env₁ env₂ env₃ : Env) (stream : Stream) (maxFrames : ℕ)
    (checksum : Option String) (P : JsValue → Prop) : Prop :=
  ∃ skeleton stream₁ frames stream₂ completion stream₃,
    stream.createSkeletonFrame env₁ = (.ok skeleton, stream₁) ∧
    stream₁.createPatchFrames env₂ .minimum maxFrames = (.ok frames, stream₂) ∧
    stream₂.createCompletionFrame env₃ checksum = (.ok completion, stream₃) ∧
    (∀ frame ∈ skeleton :: frames ++ [completion],
      validateFrame showJs (received text frame) = []) ∧
    ∃ run v, processStream showJs showNumber
        ((skeleton :: frames ++ [completion]).map (received text)) = run ∧
      run.settled = some (.ok v) ∧ P v ∧ run.outcomes.length = frames.length ∧
      ∀ outcome ∈ run.outcomes, outcome.success = true ∧ outcome.skippedPatches = 0 ∧
        outcome.appliedPatches = outcome.totalPatches

variable {showJs showNumber text}

/-- There is one value that the client resolves to. -/
theorem Reconstructs.and {env₁ env₂ env₃ : Env} {maxFrames : ℕ} {checksum : Option String}
    {P Q : JsValue → Prop}
    (h : Reconstructs showJs showNumber text env₁ env₂ env₃ stream maxFrames checksum P)
    (h' : Reconstructs showJs showNumber text env₁ env₂ env₃ stream maxFrames checksum Q) :
    ∃ v, P v ∧ Q v := by
  obtain ⟨_, _, _, _, _, _, hfirst, hframes, hlast, -, _, v, hrun, hv, hP, -⟩ := h
  obtain ⟨_, _, _, _, _, _, hfirst', hframes', hlast', -, _, v', hrun', hv', hQ, -⟩ := h'
  cases hfirst.symm.trans hfirst'
  cases hframes.symm.trans hframes'
  cases hlast.symm.trans hlast'
  cases hrun.symm.trans hrun'
  cases hv.symm.trans hv'
  exact ⟨v, hP, hQ⟩

theorem Reconstructs.mono {env₁ env₂ env₃ : Env} {maxFrames : ℕ} {checksum : Option String}
    {P Q : JsValue → Prop}
    (h : Reconstructs showJs showNumber text env₁ env₂ env₃ stream maxFrames checksum P)
    (hPQ : ∀ v, P v → Q v) :
    Reconstructs showJs showNumber text env₁ env₂ env₃ stream maxFrames checksum Q := by
  obtain ⟨_, _, _, _, _, _, hfirst, hframes, hlast, haccepts, _, v, hrun, hv, hP, hrest⟩ := h
  exact ⟨_, _, _, _, _, _, hfirst, hframes, hlast, haccepts, _, v, hrun, hv, hPQ v hP, hrest⟩

variable (showJs showNumber text)

/-- The client comes to what it would have if the source data were sent whole. -/
theorem reconstructs_ofData (env₁ env₂ env₃ : Env) {m : List (String × JsonData)}
    (hm : d.value = .object m) (hstate : stream.state = .streaming)
    (hdata : stream.sourceData = some d) (hkeys : d.value.Addressable SafeKey)
    (hrules : ∀ key p, stream.config.priorityRules.get? key = some p → p ≤ .critical)
    {maxFrames : ℕ} (hmax : 1 ≤ maxFrames) (checksum : Option String) :
    Reconstructs showJs showNumber text env₁ env₂ env₃ stream maxFrames checksum
      (· = JsValue.ofData d.value) := by
  set skeleton := Frame.skeleton stream.id stream.nextSequence (Stream.generateSkeleton d.value)
    (env₁.utc 0) with hskeleton
  set stream₁ := stream.recordFrameCreated (env₁.later 1) skeleton with hstream₁
  have hfirst : stream.createSkeletonFrame env₁ = (.ok skeleton, stream₁) := by
    simp only [Stream.createSkeletonFrame, hstate, hdata, ne_eq, not_true_eq_false, if_false]
    rfl
  have hstate₁ : stream₁.state = .streaming := hstate
  have hdata₁ : stream₁.sourceData = some d := hdata
  obtain ⟨frames, stream₂, hframes, hcarries, hstate₂⟩ :=
    Stream.createPatchFrames_carry env₂ hstate₁ hdata₁ .minimum maxFrames
  set completion := Frame.complete stream₂.id stream₂.nextSequence checksum (env₃.utc 0)
    with hcompletion
  have hlast : stream₂.createCompletionFrame env₃ checksum =
      (.ok completion, stream₂.recordFrameCreated (env₃.later 1) completion) := by
    simp only [Stream.createCompletionFrame, hstate₂, ne_eq, not_true_eq_false, if_false]
    rfl
  -- every frame is accepted
  have haccepts₁ : Accepts showJs text skeleton :=
    accepts_of_sends showJs text env₁ hstate hdata hkeys hrules
      (show Sends env₁ stream .minimum maxFrames checksum skeleton from
        .skeleton (congrArg Prod.fst hfirst))
  have haccepts₂ : ∀ frame ∈ frames, Accepts showJs text frame := fun frame hframe =>
    accepts_of_sends showJs text env₂ hstate₁ hdata₁ hkeys hrules
      (show Sends env₂ stream₁ _ maxFrames checksum frame from
        .patches (congrArg Prod.fst hframes) hframe)
  have haccepts₃ : Accepts showJs text completion :=
    (acceptsFrame_iff showJs text completion).mpr
      ⟨le_refl Priority.critical, payloadErrors_complete showJs _⟩
  -- the patches fill the skeleton
  have hvalid : ∀ key, SafeKey key → ValidKey key := fun key h => validKey_of_identifier h.1
  have hfilled : d.value.filled ValidKey Stream.placeholder = d.value :=
    (Doc.filled_eq_self_iff Stream.placeholder_eq_self_iff).mpr
      ((hkeys.mono hvalid).blankBelow Stream.IsZero)
  have hall : Doc.runAll ((Stream.chunkPatchesForCommit
      (stream₁.extractPatches d.value .minimum) maxFrames).flatMap Prod.snd |>.map
        FramePatch.setting) (Stream.generateSkeleton d.value) = some d.value := by
    rw [Stream.flatMap_chunkPatchesForCommit _ hmax, List.map_map]
    have hrun := Stream.runAll_settings d (Stream.extractPatches_minimum_perm stream₁ d.value)
    rwa [hfilled] at hrun
  have hpatches : ∀ chunk ∈ Stream.chunkPatchesForCommit
      (stream₁.extractPatches d.value .minimum) maxFrames,
      ∀ p ∈ chunk.2, SetsSafely p ∧ p.value.Distinct := by
    intro chunk hchunk patch hpatch
    obtain ⟨p, hp, rfl⟩ := Stream.mem_of_mem_chunk hchunk hpatch
    obtain ⟨hleaf, hoperation, -, -⟩ := Stream.mem_extractPatches_iff.mp hp
    exact setsSafely_of_mem_leaves hm hkeys hoperation hleaf
  -- the client follows
  have hblank : Stream.generateSkeleton d.value = d.value.blankOut Stream.placeholder := by
    have hd := d.distinct
    rw [hm] at hd ⊢
    exact Stream.generateSkeleton_object hd
  have hstart := handler_skeleton showJs showNumber text
    (show skeleton.frameType = .skeleton from rfl) haccepts₁
    (by
      change (Stream.generateSkeleton d.value).Distinct
      rw [hblank]
      exact d.distinct.blankOut)
    (by
      change ∃ m, Stream.generateSkeleton d.value = .object m
      rw [hblank, hm]
      exact ⟨_, rfl⟩)
  have hmiddle := foldl_patches showJs showNumber text hcarries haccepts₂ hpatches hstart hall
  have hend := handler_complete showJs showNumber text
    (show completion.frameType = .complete from rfl) haccepts₃ hmiddle
  refine ⟨skeleton, stream₁, frames, stream₂, completion, _, hfirst, hframes, hlast, ?_, _,
    JsValue.ofData d.value, rfl, ?_⟩
  · simp only [List.cons_append, List.mem_cons, List.mem_append, List.not_mem_nil, or_false]
    rintro frame (rfl | hframe | rfl)
    · exact haccepts₁
    · exact haccepts₂ frame hframe
    · exact haccepts₃
  · rw [processStream, List.map_append, List.map_cons, List.cons_append, List.foldl_cons,
      List.foldl_append, List.map_cons, List.map_nil, List.foldl_cons, List.foldl_nil, hend]
    exact ⟨rfl, rfl, by rw [hmiddle.length, Nat.zero_add], hmiddle.applied⟩

/-- The client accepts every frame, skips no patch and resolves to what `JSON.parse` makes of the
text of the source data, which is the source data itself where its numbers are portable. -/
theorem stream_reconstructs (env₁ env₂ env₃ : Env) {m : List (String × JsonData)}
    (hm : d.value = .object m) (hstate : stream.state = .streaming)
    (hdata : stream.sourceData = some d) (hkeys : d.value.Addressable SafeKey)
    (hrules : ∀ key p, stream.config.priorityRules.get? key = some p → p ≤ .critical)
    {maxFrames : ℕ} (hmax : 1 ≤ maxFrames) (checksum : Option String) :
    Reconstructs showJs showNumber text env₁ env₂ env₃ stream maxFrames checksum fun v =>
      v = JsValue.jsonParse d.value.serialize ∧
        (d.value.Over JsValue.Portable → v.Represents d.value) := by
  refine (reconstructs_ofData showJs showNumber text env₁ env₂ env₃ hm hstate hdata hkeys hrules
    hmax checksum).mono ?_
  rintro v rfl
  exact ⟨rfl, JsValue.represents_ofData⟩

theorem addressable_userDocument : Stream.userDocument.value.Addressable SafeKey := by
  refine .object (by decide) ?_
  simp only [List.mem_cons, Prod.mk.injEq, List.not_mem_nil, or_false]
  rintro k v (⟨rfl, rfl⟩ | ⟨rfl, rfl⟩ | ⟨rfl, rfl⟩)
  · exact .scalar _
  · exact .array _
  · exact .object (by decide) (by simpa using .scalar _)

theorem portable_userDocument : Stream.userDocument.value.Over JsValue.Portable := by
  refine .object fun k v h => ?_
  simp only [List.mem_cons, Prod.mk.injEq, List.not_mem_nil, or_false] at h
  rcases h with ⟨rfl, rfl⟩ | ⟨rfl, rfl⟩ | ⟨rfl, rfl⟩
  · exact .scalar (show (7 : Int64).toInt.natAbs < 2 ^ 53 by decide)
  · exact .array (List.forall_mem_singleton.mpr (.scalar trivial))
  · exact .object (by simpa using .scalar trivial)

theorem stream_reconstructs_user :
    Reconstructs (fun _ => "") (fun _ => "") epochTexts Stream.stillEnv Stream.stillEnv
      Stream.stillEnv (Stream.started Stream.userDocument) 2 none fun v =>
        v = JsValue.jsonParse Stream.userDocument.value.serialize ∧
          v.Represents Stream.userDocument.value := by
  have hresolved := @stream_reconstructs (fun _ => "") (fun _ => "") epochTexts
    (Stream.started Stream.userDocument) Stream.userDocument Stream.stillEnv Stream.stillEnv
    Stream.stillEnv _ rfl rfl rfl addressable_userDocument (by rintro _ _ ⟨⟩) 2 (by decide) none
  exact hresolved.mono fun v h => ⟨h.1, h.2 portable_userDocument⟩

/-- The document `{"id": 9007199254740993}`, whose number is no double. -/
def largeDocument : DataDocument where
  value := .object [("id", JsonData.integer 9007199254740993)]
  distinct := .object (by decide) (by simpa using .scalar _)

/-- Where an integer is no double, the client does not come to the source data. -/
theorem large_integer_lost :
    ¬Reconstructs (fun _ => "") (fun _ => "") epochTexts Stream.stillEnv Stream.stillEnv
      Stream.stillEnv (Stream.started largeDocument) 1 none
        fun v => v.Represents largeDocument.value := by
  intro h
  have hsent := @reconstructs_ofData (fun _ => "") (fun _ => "") epochTexts
    (Stream.started largeDocument) largeDocument Stream.stillEnv Stream.stillEnv Stream.stillEnv
    _ rfl rfl rfl (.object (by decide) (by simpa using .scalar _)) (by rintro _ _ ⟨⟩) 1 le_rfl none
  obtain ⟨v, rfl, hrep⟩ := hsent.and h
  rw [largeDocument, JsValue.ofData_object] at hrep
  cases hrep with | object _ hfields =>
  have hid := hfields "id" _ _ rfl rfl
  cases hid with | scalar hscalar =>
  have hvalue : FloatOrder.value (.ofModel (.ofInt64 9007199254740993)) =
      some (((4503599627370496 * 2 ^ (1 : ℤ) : ℚ) : WithTop ℚ) : WithBot (WithTop ℚ)) := rfl
  rw [JsValue.parseScalar_integer] at hscalar
  cases hscalar with | integer hexact =>
  rw [hvalue] at hexact
  have hcoe := WithTop.coe_injective (WithBot.coe_injective (Option.some.inj hexact))
  have hlarge : (4503599627370496 * 2 ^ (1 : ℤ) : ℚ) = 9007199254740993 := hcoe
  norm_num at hlarge

end Stream

end PJSClient

end PJS.Client
