import PJS.Http.Download
import PJS.Lib.EventStream

/-! Frames as server-sent events. A connection that ends is opened again by the browser, and the
server answers with the whole stream again, from its skeleton on. -/
namespace PJS

namespace Serializer

/-- A batch of written frames, each between the same bytes. -/
theorem each_between {serializer : Serializer} {before after : List UInt8}
    {text : Frame → List UInt8} {frames : List Frame}
    (h : ∀ frame ∈ frames, serializer.frame frame = .ok (text frame)) :
    serializer.each before after frames =
      .ok (frames.flatMap fun frame => before ++ text frame ++ after) := by
  induction frames with
  | nil => rfl
  | cons frame rest ih =>
    rw [each, h frame (by simp), ih fun f hf => h f (by simp [hf])]
    rfl

end Serializer

namespace SSETransport

open EventStream

/-- What the browser's reader dispatches of the chunks of one response. -/
def dispatched (d : TextDecoder) (r : EventStream.Reader) : List (List UInt8) → List Event
  | [] => []
  | value :: rest =>
    let (d, text) := d.decode value
    let (r, events) := r.run text
    events ++ dispatched d r rest

/-- The reader dispatches what the text has, however it is cut. -/
theorem dispatched_eq (d : TextDecoder) (r : EventStream.Reader) (chunks : List (List UInt8)) :
    dispatched d r chunks = (r.run (d.decodeAll chunks).flatten).2 := by
  induction chunks generalizing d r with
  | nil => rfl
  | cons value rest ih =>
    rw [dispatched, TextDecoder.decodeAll, List.flatten_cons, EventStream.Reader.run_append]
    exact congrArg _ (ih _ _)

section Handlers
variable (parse : String → Except String JsValue) (showJs : JsValue → String)

def handleMessage (data : List Char) : TransportEvent JsValue :=
  match parse (String.ofList data) with
  | .ok frame => .frame frame
  | .error _ => .error "Failed to parse SSE frame" (String.ofList data)

/-- The listener for events of type `error`. -/
def handleError (data : List Char) : TransportEvent JsValue :=
  match parse (String.ofList data) with
  | .ok value =>
    let message := value.property "message"
    .error (if message.falsy then "Server error" else showJs message) (String.ofList data)
  | .error _ => .error "Server error" (String.ofList data)

/-- Two listeners hear events of type `error`. -/
def handle (event : Event) : List (TransportEvent JsValue) :=
  if event.type = "message".toList ∨ event.type = "frame".toList then
    [handleMessage parse event.data]
  else if event.type = "error".toList then
    [.error "SSE connection error" "", handleError parse showJs event.data]
  else []

/-- What the transport emits of one connection. At its end the browser fires `error`, without
data. -/
def connection (chunks : List (List UInt8)) : List (TransportEvent JsValue) :=
  (dispatched .start .start chunks).flatMap (handle parse showJs) ++
    [.error "SSE connection error" "", .error "Server error" ""]

end Handlers

/-- A text that is one line of data: a JSON object, with line ends only as escapes. -/
structure Data (parse : String → Except String JsValue) (text : List Char) (value : JsValue) :
    Prop where
  oneLine : '\n' ∉ text ∧ '\r' ∉ text
  parses : parse (String.ofList text) = .ok value

/-- How many frames have arrived with the blank line that ends their event. -/
def arrived (texts : List (List Char)) (bytes : List UInt8) : ℕ :=
  Lines.whole 1 (texts.map dataLine) (Utf8.Decoder.start.run bytes).2.length

variable {parse : String → Except String JsValue} {showJs : JsValue → String}

/-- Whatever was lost of the response, the frames that arrived whole are emitted, and no error but
that of the connection. -/
theorem connection_of_cut {lines : List (List Char × JsValue)}
    (h : ∀ line ∈ lines, Data parse line.1 line.2) {chunks : List (List UInt8)}
    (hcut : chunks.flatten <+:
      Utf8.encode (((lines.map Prod.fst).map dataLine).flatMap (· ++ ['\n']))) :
    connection parse showJs chunks =
      (lines.take (arrived (lines.map Prod.fst) chunks.flatten)).map (.frame ·.2) ++
        [.error "SSE connection error" "", .error "Server error" ""] := by
  have htext := Utf8.Decoder.run_prefix Utf8.Decoder.start hcut
  rw [Utf8.Decoder.run_encode] at htext
  have hbom : (Utf8.Decoder.start.run chunks.flatten).2.head? ≠ some '\uFEFF' := by
    intro hhead
    obtain ⟨rest, hrest⟩ := List.head?_eq_some_iff.mp hhead
    rw [hrest] at htext
    cases lines with
    | nil => exact List.cons_ne_nil _ _ (List.prefix_nil.mp htext)
    | cons line lines => exact absurd (List.cons_prefix_cons.mp htext).1 (by decide)
  have hlines : ∀ data ∈ lines.map Prod.fst, '\n' ∉ data ∧ '\r' ∉ data :=
    List.forall_mem_map.mpr fun line hline => (h line hline).oneLine
  rw [connection, dispatched_eq, TextDecoder.start, TextDecoder.flatten_decodeAll hbom,
    run_of_prefix hlines htext, ← List.map_take, List.map_map, List.flatMap_map]
  refine congrArg (· ++ _) ?_
  refine Eq.trans (List.flatMap_congr fun line hline => ?_) List.map_eq_flatMap.symm
  have hparses := (h line (List.mem_of_mem_take hline)).parses
  change handle parse showJs ⟨"message".toList, line.1⟩ = _
  rw [handle, if_pos (Or.inl rfl), handleMessage, hparses]

/-- The payloads are the events of the frames. -/
theorem intoStream_events {serializer : Serializer} (batchSize : ℕ) {frames : List Frame}
    {json : Frame → List Char}
    (h : ∀ frame ∈ frames, serializer.frame frame = .ok (Utf8.encode (json frame))) :
    ∃ payloads : List (List UInt8),
      BatchFrameStream.intoStream serializer ⟨frames, .serverSentEvents, batchSize⟩ =
        payloads.map .ok ∧
      payloads.flatten =
        Utf8.encode (((frames.map json).map dataLine).flatMap (· ++ ['\n'])) := by
  rw [List.map_map, List.flatMap_map]
  refine HttpTransport.intoStream_flatten batchSize fun batch hbatch => ?_
  have heach := @Serializer.each_between _ (Utf8.encode "data: ".toList)
    (Utf8.encode ['\n', '\n']) (fun frame => Utf8.encode (json frame)) _
    fun frame hf => h frame (hbatch frame hf)
  simp only [← Utf8.encode_append, ← Utf8.encode_flatMap] at heach
  refine heach.trans (congrArg (fun text => Except.ok (Utf8.encode text)) ?_)
  refine List.flatMap_congr fun frame _ => ?_
  change "data: ".toList ++ json frame ++ ['\n', '\n'] = dataLine (json frame) ++ ['\n']
  rw [dataLine, List.append_assoc _ ['\n'] ['\n']]
  rfl

theorem arrived_whole (texts : List (List Char)) :
    arrived texts (Utf8.encode ((texts.map dataLine).flatMap (· ++ ['\n']))) = texts.length := by
  rw [arrived, Utf8.Decoder.run_encode, Lines.whole_length '\n' (le_refl 1), List.length_map]

theorem frames_append (events events' : List (TransportEvent JsValue)) :
    TransportEvent.frames (events ++ events') =
      TransportEvent.frames events ++ TransportEvent.frames events' :=
  List.filterMap_append

section Client
open Client Client.PJSClient Client.JsonReconstructor FrameProcessor

variable (showNumber : Float → String) (text : TextForms) {stream : Stream} {d : DataDocument}

/-- After a skeleton came once, a second skeleton and a patch make the client give up. -/
theorem gives_up {skeleton frame : Frame} (hskeleton : skeleton.frameType = .skeleton)
    (hframe : frame.frameType = .patch) (haccepts : Accepts showJs text skeleton)
    (haccepts' : Accepts showJs text frame) {before : List JsValue} {shown : JsonData} {n : ℕ}
    (hbefore : (processStream showJs showNumber before).At shown n) (rest : List JsValue) :
    (processStream showJs showNumber
      (before ++ received text skeleton :: received text frame :: rest)).settled =
        some (.error ⟨.protocolError, "Received patch frame before skeleton"⟩) := by
  have hagain := handler_skeleton_again showJs showNumber text hskeleton haccepts hbefore
  have hgone := @handler_patch_undefined showJs showNumber text _ hframe haccepts'
    { processStream showJs showNumber before with result := .scalar .undefined }
    hbefore.settled rfl
  rw [processStream, List.foldl_append, List.foldl_cons, List.foldl_cons]
  change (rest.foldl _ (frameReceivedHandler showJs showNumber (frameReceivedHandler showJs
    showNumber (processStream showJs showNumber before) _) _)).settled = _
  rw [hagain, hgone, foldl_of_settled showJs showNumber (Option.isSome_some)]

/-- One connection shows the view of the frames that arrived, and settles with the completion
frame. When it ended before that, the stream that the next connection repeats makes the client
give up, whatever comes after. -/
theorem view_of_connections (env₁ : Env) {m : List (String × JsonData)} (hm : d.value = .object m)
    (hstate : stream.state = .streaming) (hdata : stream.sourceData = some d)
    (hkeys : d.value.Addressable JsonReconstructor.SafeKey)
    (hrules : ∀ key p, stream.config.priorityRules.get? key = some p → p ≤ .critical)
    {frames : List Frame} (hframes : ∀ frame ∈ frames, Emits stream frame) (hne : frames ≠ [])
    {skeleton : Frame} (hskeleton : (stream.createSkeletonFrame env₁).1 = .ok skeleton)
    {env₂ : Env} {stream₂ : Stream} {checksum : Option String} {completion : Frame}
    (hcompletion : (stream₂.createCompletionFrame env₂ checksum).1 = .ok completion)
    {serializer : Serializer} {json : Frame → List Char}
    (hjson : ∀ frame ∈ skeleton :: frames ++ [completion],
      serializer.frame frame = .ok (Utf8.encode (json frame)) ∧
        Data parse (json frame) (received text frame)) (batchSize : ℕ) :
    let body := skeleton :: frames ++ [completion]
    ∃ payloads : List (List UInt8),
      BatchFrameStream.intoStream serializer ⟨body, .serverSentEvents, batchSize⟩ =
        payloads.map .ok ∧
      ∀ first second : List (List UInt8), first.flatten <+: payloads.flatten →
        second.flatten <+: payloads.flatten → ∀ more : List (TransportEvent JsValue),
        let count := fun (bytes : List UInt8) => arrived (body.map json) bytes
        let shown := fun (n : ℕ) => Stream.view d.value (Frame.settings (frames.take n))
        let emitted := connection parse showJs first
        let run := processStream showJs showNumber (TransportEvent.frames emitted)
        let after := processStream showJs showNumber
          (TransportEvent.frames (emitted ++ connection parse showJs second ++ more))
        TransportEvent.frames emitted =
          (body.take (count first.flatten)).map (received text) ∧
        (∀ n ≤ frames.length, count first.flatten = n + 1 →
          run.settled = none ∧ run.result = JsValue.ofData (shown n)) ∧
        (count first.flatten = body.length →
          after.settled = some (.ok (JsValue.ofData (shown frames.length)))) ∧
        (0 < count first.flatten → count first.flatten < body.length →
          2 ≤ count second.flatten → after.settled =
            some (.error ⟨.protocolError, "Received patch frame before skeleton"⟩)) ∧
        count payloads.flatten = body.length := by
  intro body
  obtain ⟨payloads, hrun, hpayloads⟩ :=
    intoStream_events batchSize fun frame hf => (hjson frame hf).1
  refine ⟨payloads, hrun, fun first second hfirst hsecond more => ?_⟩
  intro count shown emitted run after
  set lines := body.map fun frame => (json frame, received text frame) with hlines
  have htexts : lines.map Prod.fst = body.map json := by
    rw [hlines, List.map_map]
    rfl
  have hdata' : ∀ line ∈ lines, Data parse line.1 line.2 := by
    rw [hlines]
    exact List.forall_mem_map.mpr fun frame hf => (hjson frame hf).2
  -- what a connection emits
  have hgot : ∀ chunks : List (List UInt8), chunks.flatten <+: payloads.flatten →
      TransportEvent.frames (connection parse showJs chunks) =
        (body.take (count chunks.flatten)).map (received text) := by
    intro chunks hcut
    rw [hpayloads, ← htexts] at hcut
    have hframes : ∀ values : List JsValue, TransportEvent.frames (values.map .frame) = values :=
      fun values => by
        rw [TransportEvent.frames, List.filterMap_map]
        exact List.filterMap_some
    have hvalues : lines.map Prod.snd = body.map (received text) := by
      rw [hlines, List.map_map]
      rfl
    rw [connection_of_cut hdata' hcut, frames_append, htexts,
      ← Function.comp_def TransportEvent.frame Prod.snd, ← List.map_map, hframes, List.map_take,
      hvalues, ← List.map_take]
    exact List.append_nil _
  have hafter : after = (TransportEvent.frames (connection parse showJs second ++ more)).foldl
      (PJSClient.frameReceivedHandler showJs showNumber) run := by
    change (TransportEvent.frames (emitted ++ connection parse showJs second ++ more)).foldl _ _ = _
    rw [List.append_assoc, frames_append, List.foldl_append]
    rfl
  have hlength : body.length = frames.length + 2 := by
    rw [List.length_append, List.length_cons, List.length_singleton]
  -- the first connection, up to the completion frame
  have htake : ∀ n ≤ frames.length, body.take (n + 1) = skeleton :: frames.take n := fun n hn => by
    change (skeleton :: (frames ++ [completion])).take (n + 1) = _
    rw [List.take_succ_cons, List.take_append_of_le_length hn]
  have hat : ∀ n ≤ frames.length,
      (processStream showJs showNumber ((skeleton :: frames.take n).map (received text))).At
        (shown n) (frames.take n).length := fun n _ =>
    at_view showJs showNumber text env₁ hm hstate hdata hkeys hrules
      (fun frame hf => hframes frame (List.mem_of_mem_take (i := n) hf)) hskeleton
  have hbegun : ∀ n ≤ frames.length, count first.flatten = n + 1 →
      run.At (shown n) (frames.take n).length := by
    intro n hn hcount
    change (processStream showJs showNumber (TransportEvent.frames emitted)).At _ _
    rw [hgot first hfirst, hcount, htake n hn]
    exact hat n hn
  refine ⟨hgot first hfirst, fun n hn hcount => ⟨(hbegun n hn hcount).settled,
    (hbegun n hn hcount).result⟩, fun hcount => ?_, fun hpos hlt htwo => ?_, ?_⟩
  · obtain ⟨htype, haccepts⟩ := accepts_of_completion showJs text hcompletion
    have hend := handler_complete showJs showNumber text htype haccepts (hat frames.length le_rfl)
    have hsettled : run.settled = some (.ok (JsValue.ofData (shown frames.length))) := by
      change (processStream showJs showNumber (TransportEvent.frames emitted)).settled = _
      rw [hgot first hfirst, hcount, List.take_length, processStream, List.map_append,
        List.foldl_append, List.map_singleton, List.foldl_cons, List.foldl_nil]
      rw [List.take_length] at hend
      exact congrArg PJSClient.StreamRun.settled hend
    rw [hafter, foldl_of_settled showJs showNumber (by rw [hsettled]; rfl), hsettled]
  · obtain ⟨n, hn⟩ : ∃ n, count first.flatten = n + 1 := Nat.exists_eq_add_one.mpr hpos
    have hle : n ≤ frames.length := by omega
    obtain ⟨frame, rest, rfl⟩ := List.exists_cons_of_ne_nil hne
    obtain ⟨k, hk⟩ : ∃ k, count second.flatten = k + 2 := ⟨count second.flatten - 2, by omega⟩
    have hsecond' : TransportEvent.frames (connection parse showJs second) =
        received text skeleton :: received text frame ::
          ((rest ++ [completion]).take k).map (received text) := by
      rw [hgot second hsecond, hk]
      rfl
    have htype : skeleton.frameType = .skeleton := by
      rw [createSkeletonFrame_eq env₁ hstate hdata] at hskeleton
      cases hskeleton
      rfl
    have hpatch := hframes frame List.mem_cons_self
    have hgone := gives_up showNumber text htype (carries_of_emits hdata hpatch).1.1
      (accepts_of_created showJs text hdata hkeys hrules hstate hskeleton)
      (accepts_of_emits showJs text hdata hkeys hrules hpatch) (hbegun n hle hn)
      (((rest ++ [completion]).take k).map (received text) ++ TransportEvent.frames more)
    rw [hafter, frames_append, hsecond']
    rw [processStream, List.foldl_append] at hgone
    exact hgone
  · change arrived _ payloads.flatten = _
    rw [hpayloads, arrived_whole, List.length_map]

/-- The completion frame of the stream. -/
def closing : Frame := Frame.complete ⟨1⟩ 3 none .epoch

def closingText : List Char :=
  ["\x7b\"stream_id\":", "\"00000000-0000-0000-", "0000-000000000001\",",
   "\"frame_type\":\"Complete\",", "\"priority\":100,", "\"sequence\":3,", "\"timestamp\":",
   "\"1970-01-01T00:00:00Z\",", "\"payload\":\x7b\x7d,", "\"metadata\":\x7b\x7d\x7d"].flatMap
    String.toList

def textOf (frame : Frame) : List Char :=
  if frame = closing then closingText else HttpTransport.textOf frame

def serializerOf : Serializer where
  frame frame :=
    if frame ∈ [HttpTransport.arriving, HttpTransport.following, closing] then
      .ok (Utf8.encode (textOf frame))
    else .error (.serialization "unknown frame")
  frames _ := .error (.serialization "unknown frames")

def parseOf (json : String) : Except String JsValue :=
  if json.toList = closingText then .ok (received epochTexts closing)
  else HttpTransport.parseOf json

theorem data_parseOf : ∀ frame ∈ [HttpTransport.arriving, HttpTransport.following, closing],
    serializerOf.frame frame = .ok (Utf8.encode (textOf frame)) ∧
      Data parseOf (textOf frame) (received epochTexts frame) := by
  have hreturn : ∀ frame ∈ [HttpTransport.arriving, HttpTransport.following],
      frame ≠ closing ∧ textOf frame ≠ closingText ∧ '\r' ∉ textOf frame := by
    decide +kernel
  intro frame hframe
  refine ⟨if_pos hframe, ?_⟩
  by_cases hlast : frame = closing
  · have htext : textOf frame = closingText := if_pos hlast
    rw [htext, hlast]
    refine ⟨by decide +kernel, ?_⟩
    rw [parseOf, String.toList_ofList, if_pos rfl]
  · have hmem : frame ∈ [HttpTransport.arriving, HttpTransport.following] := by
      simpa [hlast] using hframe
    obtain ⟨-, hother, hcr⟩ := hreturn frame hmem
    have hline := (HttpTransport.line_parseOf frame hmem).2
    have htext : textOf frame = HttpTransport.textOf frame := if_neg hlast
    refine ⟨⟨htext ▸ hline.oneLine, hcr⟩, ?_⟩
    rw [parseOf, String.toList_ofList, if_neg hother, htext]
    exact hline.parses

/-- The whole stream in one connection gives the document; in two, an error. -/
theorem view_of_connections_user :
    ∃ payloads : List (List UInt8),
      BatchFrameStream.intoStream serializerOf
        ⟨[HttpTransport.arriving, HttpTransport.following, closing], .serverSentEvents, 1⟩ =
          payloads.map .ok ∧
      ∀ first second : List (List UInt8), first.flatten <+: payloads.flatten →
        second.flatten <+: payloads.flatten → ∀ more : List (TransportEvent JsValue),
        let count := fun (bytes : List UInt8) =>
          arrived ([HttpTransport.arriving, HttpTransport.following, closing].map textOf) bytes
        let after := processStream (fun _ => "") (fun _ => "")
          (TransportEvent.frames (connection parseOf (fun _ => "") first ++
            connection parseOf (fun _ => "") second ++ more))
        (count first.flatten = 3 →
          after.settled = some (.ok (JsValue.ofData Stream.userDocument.value))) ∧
        (count first.flatten = 2 → count second.flatten = 3 → after.settled =
          some (.error ⟨.protocolError, "Received patch frame before skeleton"⟩)) := by
  have hskeleton : (Stream.started Stream.userDocument).createSkeletonFrame Stream.stillEnv =
      (.ok HttpTransport.arriving, (Stream.started Stream.userDocument).recordFrameCreated
        (Stream.stillEnv.later 1) HttpTransport.arriving) := rfl
  have hcreated : (((Stream.started Stream.userDocument).recordFrameCreated
      (Stream.stillEnv.later 1) HttpTransport.arriving).createPatchFrames
        Stream.stillEnv .minimum 1).1 = .ok [HttpTransport.following] := by decide +kernel
  have hcompletion : ((((Stream.started Stream.userDocument).recordFrameCreated
      (Stream.stillEnv.later 1) HttpTransport.arriving).createPatchFrames
        Stream.stillEnv .minimum 1).2.createCompletionFrame Stream.stillEnv none).1 =
          .ok closing := by decide +kernel
  have hemits : ∀ frame ∈ [HttpTransport.following],
      Emits (Stream.started Stream.userDocument) frame :=
    fun frame hframe => ⟨_, (Stream.started Stream.userDocument).recordFrameCreated
      (Stream.stillEnv.later 1) HttpTransport.arriving, _, _, _, rfl, rfl, hcreated, hframe⟩
  obtain ⟨payloads, hpayloads, hcut⟩ := view_of_connections (fun _ => "") epochTexts
    Stream.stillEnv rfl rfl rfl addressable_userDocument (by rintro _ _ ⟨⟩) hemits (by simp)
    (congrArg Prod.fst hskeleton) hcompletion data_parseOf 1
  refine ⟨payloads, hpayloads, fun first second hfirst hsecond more => ?_⟩
  intro count after
  obtain ⟨-, -, hall, hcutOff, -⟩ := hcut first second hfirst hsecond more
  refine ⟨fun hcount => ?_, fun hcount hcount₂ => hcutOff ?_ ?_ ?_⟩
  · have hview : Stream.view Stream.userDocument.value
        (Frame.settings ([HttpTransport.following].take 1)) = Stream.userDocument.value := by
      decide +kernel
    exact (hall hcount).trans (congrArg (fun data => some (Except.ok (JsValue.ofData data))) hview)
  · exact Nat.lt_of_lt_of_eq (by decide) hcount.symm
  · exact hcount.trans_lt (by decide)
  · exact Nat.le_of_lt (Nat.lt_of_lt_of_eq (by decide) hcount₂.symm)

end Client

end SSETransport

end PJS
