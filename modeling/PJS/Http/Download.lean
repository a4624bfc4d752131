import PJS.Client.PartialStreams
import PJS.Http.Transport

/-! A response that is cut off. The client has the frames that arrived whole, and its document is
their view; what arrived of the next frame is at most reported as an error. -/
namespace PJS

theorem Utf8.Decoder.run_prefix (d : Decoder) {bytes whole : List UInt8} (h : bytes <+: whole) :
    (d.run bytes).2 <+: (d.run whole).2 := by
  obtain ⟨rest, rfl⟩ := h
  rw [run_append]
  exact List.prefix_append _ _

namespace TransportEvent
variable {α : Type}

/-- What is emitted as `frame`. -/
def frames (events : List (TransportEvent α)) : List α :=
  events.filterMap fun
    | .frame value => some value
    | .error _ _ => none

end TransportEvent

namespace HttpTransport
variable {α : Type} {parse : String → Except String α}

/-- How the response ends: the reader is done, or a read throws. -/
inductive Ending where
  | done
  | failed

/-- The read loop when a read throws: what remains is not parsed. -/
def readFailing (parse : String → Except String α) (r : Reading) :
    List (List UInt8) → List (TransportEvent α)
  | [] => []
  | value :: rest =>
    (readChunk parse r value).2 ++ readFailing parse (readChunk parse r value).1 rest

/-- What the loop emits. -/
def emitted (parse : String → Except String α) (chunks : List (List UInt8)) :
    Ending → List (TransportEvent α)
  | .done => processStreamingResponse parse chunks
  | .failed => readFailing parse ⟨.start, []⟩ chunks

theorem readFailing_eq (r : Reading) (chunks : List (List UInt8)) :
    readFailing parse r chunks =
      (Lines.feedAll '\n' r.buffer (r.decoder.decodeAll chunks)).1.flatMap
        (parseLine parse "Failed to parse frame from HTTP response") := by
  induction chunks generalizing r with
  | nil => rfl
  | cons value rest ih =>
    rw [readFailing, ih, TextDecoder.decodeAll, Lines.feedAll, List.flatMap_append]
    rfl

/-- A line as the serializer writes it: a JSON object, and no part of it is one. -/
structure Line (parse : String → Except String α) (text : List Char) (value : α) : Prop where
  head : text.head? = some '\x7b'
  oneLine : '\n' ∉ text
  parses : parse (String.ofList text) = .ok value
  cut : ∀ part, part <+: text → part ≠ text → ∃ e, parse (String.ofList part) = .error e

variable {lines : List (List Char × α)} {text : List Char} {message final : String}

theorem ended_of_prefix (h : ∀ line ∈ lines, Line parse line.1 line.2)
    (htext : text <+: (lines.map Prod.fst).flatMap (· ++ ['\n'])) :
    (Lines.feed '\n' [] text).1.flatMap (parseLine parse message) =
      (lines.take (Lines.whole 1 (lines.map Prod.fst) text.length)).map (.frame ·.2) := by
  induction lines generalizing text with
  | nil =>
    obtain rfl := List.prefix_nil.mp htext
    rfl
  | cons line rest ih =>
    obtain ⟨line, value⟩ := line
    have hline := h (line, value) (by simp)
    simp only [List.map_cons, List.flatMap_cons, List.append_assoc, List.singleton_append]
      at htext ⊢
    rcases Lines.prefix_line htext with hpart | ⟨more, rfl, hmore⟩
    · have hlength := hpart.length_le
      rw [Lines.feed_of_not_ended '\n' fun hmem => hline.oneLine (hpart.subset hmem), Lines.whole,
        if_pos (by omega)]
      rfl
    · have hcount : (line ++ '\n' :: more).length = line.length + 1 + more.length := by
        rw [List.length_append, List.length_cons]
        omega
      rw [Lines.feed_line '\n' hline.oneLine, List.flatMap_cons,
        parseLine_of_ok hline.head hline.parses, ih (fun l hl => h l (by simp [hl])) hmore,
        Lines.whole, hcount, if_neg (by omega), Nat.add_sub_cancel_left]
      rfl

/-- What is parsed of lines that are cut off somewhere. -/
theorem parsed_of_prefix (h : ∀ line ∈ lines, Line parse line.1 line.2)
    (htext : text <+: (lines.map Prod.fst).flatMap (· ++ ['\n'])) :
    ∃ errors : List (TransportEvent α),
      (Lines.feed '\n' [] text).1.flatMap (parseLine parse message) ++
        parseLine parse final (Lines.feed '\n' [] text).2 =
      (lines.take (Lines.whole 0 (lines.map Prod.fst) text.length)).map (.frame ·.2) ++ errors ∧
      (errors = [] ∨ ∃ part, errors = [.error final part]) := by
  induction lines generalizing text with
  | nil =>
    obtain rfl := List.prefix_nil.mp htext
    exact ⟨[], rfl, Or.inl rfl⟩
  | cons line rest ih =>
    obtain ⟨line, value⟩ := line
    have hline := h (line, value) (by simp)
    simp only [List.map_cons, List.flatMap_cons, List.append_assoc, List.singleton_append]
      at htext ⊢
    rcases Lines.prefix_line htext with hpart | ⟨more, rfl, hmore⟩
    · rw [Lines.feed_of_not_ended '\n' fun hmem => hline.oneLine (hpart.subset hmem), Lines.whole]
      by_cases hwhole : text = line
      · -- only the line end is missing
        subst hwhole
        have hnone : Lines.whole 0 (rest.map Prod.fst) (text.length - (text.length + 1)) = 0 := by
          rw [Nat.sub_eq_zero_of_le (by omega)]
          cases rest with
          | nil => rfl
          | cons next rest =>
            obtain ⟨cs, hcs⟩ := List.head?_eq_some_iff.mp (h next (by simp)).head
            rw [List.map_cons, Lines.whole, hcs, List.length_cons, if_pos (by omega)]
        rw [List.flatMap_nil, parseLine_of_ok hline.head hline.parses, if_neg (by omega), hnone]
        exact ⟨[], rfl, Or.inl rfl⟩
      · have hlt : text.length < line.length :=
          lt_of_le_of_ne hpart.length_le fun heq => hwhole (hpart.eq_of_length heq)
        obtain ⟨e, he⟩ := hline.cut text hpart hwhole
        rw [if_pos (by omega), parseLine, he]
        split_ifs
        · exact ⟨[], rfl, Or.inl rfl⟩
        · exact ⟨_, rfl, Or.inr ⟨_, rfl⟩⟩
    · have hcount : (line ++ '\n' :: more).length = line.length + 1 + more.length := by
        rw [List.length_append, List.length_cons]
        omega
      obtain ⟨errors, hevents, hone⟩ := ih (fun l hl => h l (by simp [hl])) hmore
      refine ⟨errors, ?_, hone⟩
      rw [Lines.feed_line '\n' hline.oneLine, List.flatMap_cons,
        parseLine_of_ok hline.head hline.parses, List.append_assoc, hevents, Lines.whole, hcount,
        if_neg (by omega), Nat.add_sub_cancel_left]
      rfl

/-- What a line needs besides its text to be parsed. -/
def Ending.lineEnd : Ending → ℕ
  | .done => 0
  | .failed => 1

/-- How many frames are emitted of a response that is cut off after some of its bytes. -/
def arrived (lines : List (List Char)) (bytes : List UInt8) (ending : Ending) : ℕ :=
  Lines.whole ending.lineEnd lines (Utf8.Decoder.start.run bytes).2.length

theorem arrived_mono (lines : List (List Char)) (ending : Ending) {bytes bytes' : List UInt8}
    (h : bytes <+: bytes') : arrived lines bytes ending ≤ arrived lines bytes' ending :=
  Lines.whole_mono _ _ (Utf8.Decoder.run_prefix _ h).length_le

theorem arrived_whole (lines : List (List Char)) (ending : Ending) :
    arrived lines (Utf8.encode (lines.flatMap (· ++ ['\n']))) ending = lines.length := by
  rw [arrived, Utf8.Decoder.run_encode, Lines.whole_length '\n' (by cases ending <;> decide)]

/-- Whatever was lost of the response, the frames before it are emitted, and at most one error. -/
theorem emitted_of_cut (h : ∀ line ∈ lines, Line parse line.1 line.2)
    {chunks : List (List UInt8)} (ending : Ending)
    (hcut : chunks.flatten <+: Utf8.encode ((lines.map Prod.fst).flatMap (· ++ ['\n']))) :
    ∃ errors : List (TransportEvent α), emitted parse chunks ending =
        (lines.take (arrived (lines.map Prod.fst) chunks.flatten ending)).map (.frame ·.2) ++
          errors ∧
      (errors = [] ∨
        ∃ part, errors = [.error "Failed to parse final frame from HTTP response" part]) := by
  have htext := Utf8.Decoder.run_prefix Utf8.Decoder.start hcut
  rw [Utf8.Decoder.run_encode] at htext
  have hbom : (Utf8.Decoder.start.run chunks.flatten).2.head? ≠ some '\uFEFF' := by
    intro hhead
    obtain ⟨rest, hrest⟩ := List.head?_eq_some_iff.mp hhead
    rw [hrest] at htext
    cases lines with
    | nil => exact List.cons_ne_nil _ _ (List.prefix_nil.mp htext)
    | cons line lines =>
      obtain ⟨cs, hcs⟩ := List.head?_eq_some_iff.mp (h line (by simp)).head
      rw [List.map_cons, List.flatMap_cons, hcs, List.cons_append, List.cons_append,
        List.cons_prefix_cons] at htext
      exact absurd htext.1 (by decide)
  have hdecoded := TextDecoder.flatten_decodeAll hbom
  cases ending with
  | done =>
    rw [emitted, processStreamingResponse, readAll_eq, Lines.feedAll_eq '\n' [] _ (by simp),
      TextDecoder.start, hdecoded]
    exact parsed_of_prefix h htext
  | failed =>
    refine ⟨[], ?_, Or.inl rfl⟩
    rw [emitted, readFailing_eq, Lines.feedAll_eq '\n' [] _ (by simp), TextDecoder.start, hdecoded,
      List.append_nil]
    exact ended_of_prefix h htext

/-- When a batch is written as its frames one after another, so is the whole stream. -/
theorem intoStream_flatten {serializer : Serializer} {format : StreamFormat} (batchSize : ℕ)
    {frames : List Frame} {block : Frame → List Char}
    (h : ∀ batch : List Frame, (∀ frame ∈ batch, frame ∈ frames) →
      serializer.formatBatchOwned batch format = .ok (Utf8.encode (batch.flatMap block))) :
    ∃ payloads : List (List UInt8),
      BatchFrameStream.intoStream serializer ⟨frames, format, batchSize⟩ = payloads.map .ok ∧
      payloads.flatten = Utf8.encode (frames.flatMap block) := by
  obtain ⟨batches, payloads, hflatten, -, hrun, hpayloads⟩ :=
    @BatchFrameStream.intoStreamFrom_eq _ _ batchSize [] _ (by simp) fun b hb => ⟨_, h b hb⟩
  refine ⟨payloads, hrun, ?_⟩
  rw [List.nil_append] at hflatten
  rw [← hflatten]
  have hmem : ∀ batch ∈ batches, ∀ frame ∈ batch, frame ∈ frames := fun batch hb frame hf => by
    rw [← hflatten]
    exact List.mem_flatten_of_mem hb hf
  clear hrun hflatten
  induction hpayloads with
  | nil => rfl
  | @cons batch payload batches payloads hpayload _ ih =>
    rw [h batch (hmem batch (by simp)), Except.ok.injEq] at hpayload
    rw [List.flatten_cons, List.flatten_cons, List.flatMap_append, Utf8.encode_append, ← hpayload,
      ih fun b hb => hmem b (by simp [hb])]

theorem intoStream_lines {serializer : Serializer} {format : StreamFormat}
    (hformat : format = .json ∨ format = .ndJson) (batchSize : ℕ) {frames : List Frame}
    {json : Frame → List Char}
    (h : ∀ frame ∈ frames, serializer.frame frame = .ok (Utf8.encode (json frame))) :
    ∃ payloads : List (List UInt8),
      BatchFrameStream.intoStream serializer ⟨frames, format, batchSize⟩ = payloads.map .ok ∧
      payloads.flatten = Utf8.encode ((frames.map json).flatMap (· ++ ['\n'])) := by
  rw [List.flatMap_map]
  refine intoStream_flatten batchSize fun batch hbatch => ?_
  have heach := @Serializer.each_eq _ (Utf8.encode ['\n'])
    (fun frame => Utf8.encode (json frame)) _ fun frame hf => h frame (hbatch frame hf)
  simp only [← Utf8.encode_append, ← Utf8.encode_flatMap] at heach
  rcases hformat with rfl | rfl <;> exact heach

theorem frames_append_errors (lines : List (List Char × α)) {errors : List (TransportEvent α)}
    (h : errors = [] ∨ ∃ message part, errors = [.error message part]) :
    TransportEvent.frames (lines.map (.frame ·.2) ++ errors) = lines.map Prod.snd := by
  have hlines : TransportEvent.frames (lines.map (.frame ·.2)) = lines.map Prod.snd := by
    rw [TransportEvent.frames, List.filterMap_map, ← List.filterMap_eq_map]
    rfl
  have herrors : TransportEvent.frames errors = [] := by
    rcases h with rfl | ⟨message, part, rfl⟩ <;> rfl
  rw [TransportEvent.frames, List.filterMap_append]
  exact (congrArg₂ (· ++ ·) hlines herrors).trans (List.append_nil _)

section Client
open Client Client.PJSClient

variable (showJs : JsValue → String) (showNumber : Float → String) (text : TextForms)
  {stream : Stream} {d : DataDocument}

/-- The response may be batched in any way, cut into chunks in any way and end after any byte, as
if it were complete or with an error. The client shows the view of the frames that arrived whole;
with more bytes it shows no less, with all of them the view of all frames. -/
theorem view_of_cut (env₁ : Env) {m : List (String × JsonData)} (hm : d.value = .object m)
    (hstate : stream.state = .streaming) (hdata : stream.sourceData = some d)
    (hkeys : d.value.Addressable JsonReconstructor.SafeKey)
    (hrules : ∀ key p, stream.config.priorityRules.get? key = some p → p ≤ .critical)
    {frames : List Frame} (hframes : ∀ frame ∈ frames, Emits stream frame) {skeleton : Frame}
    (hskeleton : (stream.createSkeletonFrame env₁).1 = .ok skeleton)
    {parse : String → Except String JsValue} {serializer : Serializer} {json : Frame → List Char}
    (hjson : ∀ frame ∈ skeleton :: frames,
      serializer.frame frame = .ok (Utf8.encode (json frame)) ∧
        Line parse (json frame) (received text frame))
    {format : StreamFormat} (hformat : format = .json ∨ format = .ndJson) (batchSize : ℕ) :
    ∃ payloads : List (List UInt8),
      BatchFrameStream.intoStream serializer ⟨skeleton :: frames, format, batchSize⟩ =
        payloads.map .ok ∧
      ∀ (chunks : List (List UInt8)) (ending : Ending), chunks.flatten <+: payloads.flatten →
        let count := fun (bytes : List UInt8) =>
          arrived ((skeleton :: frames).map json) bytes ending
        let shown := fun (n : ℕ) => Stream.view d.value (Frame.settings (frames.take n))
        let run := processStream showJs showNumber
          (TransportEvent.frames (emitted parse chunks ending))
        TransportEvent.frames (emitted parse chunks ending) =
          ((skeleton :: frames).take (count chunks.flatten)).map (received text) ∧
        (emitted parse chunks ending).length ≤ count chunks.flatten + 1 ∧
        (count chunks.flatten = 0 → run = .start) ∧
        (∀ n, count chunks.flatten = n + 1 → run.settled = none ∧
          run.result = JsValue.ofData (shown n) ∧
          ∀ outcome ∈ run.outcomes, outcome.success = true ∧ outcome.skippedPatches = 0) ∧
        (∀ more, chunks.flatten <+: more → count chunks.flatten ≤ count more ∧
          (shown (count chunks.flatten - 1)).Below Stream.Stands (shown (count more - 1))) ∧
        count payloads.flatten = frames.length + 1 := by
  obtain ⟨payloads, hrun, hpayloads⟩ :=
    intoStream_lines hformat batchSize fun frame hf => (hjson frame hf).1
  refine ⟨payloads, hrun, fun chunks ending hcut => ?_⟩
  intro count shown run
  set lines := (skeleton :: frames).map fun frame => (json frame, received text frame) with hlines
  have htexts : lines.map Prod.fst = (skeleton :: frames).map json := by
    rw [hlines, List.map_map]
    rfl
  have hline : ∀ line ∈ lines, Line parse line.1 line.2 := by
    rw [hlines]
    exact List.forall_mem_map.mpr fun frame hf => (hjson frame hf).2
  rw [hpayloads, ← htexts] at hcut
  obtain ⟨errors, hevents, herrors⟩ := emitted_of_cut hline ending hcut
  rw [htexts] at hevents
  have hone : errors.length ≤ 1 := by
    rcases herrors with rfl | ⟨part, rfl⟩
    · exact Nat.zero_le 1
    · exact le_refl 1
  have hgot : TransportEvent.frames (emitted parse chunks ending) =
      ((skeleton :: frames).take (count chunks.flatten)).map (received text) := by
    rw [hevents, frames_append_errors _ (herrors.imp_right fun ⟨part, hpart⟩ => ⟨_, part, hpart⟩),
      hlines, ← List.map_take, List.map_map]
    rfl
  have hmono : ∀ more, chunks.flatten <+: more → count chunks.flatten ≤ count more :=
    fun more hmore => arrived_mono _ ending hmore
  refine ⟨hgot, ?_, fun hzero => ?_, fun n hn => ?_, fun more hmore => ⟨hmono more hmore, ?_⟩, ?_⟩
  · rw [hevents, List.length_append, List.length_map, List.length_take]
    change min (count chunks.flatten) _ + errors.length ≤ _
    omega
  · change processStream showJs showNumber (TransportEvent.frames _) = _
    rw [hgot, hzero]
    rfl
  · have hat := at_view showJs showNumber text env₁ hm hstate hdata hkeys hrules
      (fun frame hf => hframes frame (List.mem_of_mem_take (i := n) hf)) hskeleton
    have hat' : run.At (shown n) (frames.take n).length := by
      change (processStream showJs showNumber
        (TransportEvent.frames (emitted parse chunks ending))).At _ _
      rw [hgot, hn, List.take_succ_cons]
      exact hat
    exact ⟨hat'.settled, hat'.result, fun outcome ho =>
      ⟨(hat'.applied outcome ho).1, (hat'.applied outcome ho).2.1⟩⟩
  · refine Stream.view_mono d ?_
    have hle := hmono more hmore
    obtain ⟨rest, hrest⟩ : frames.take (count chunks.flatten - 1) <+:
        frames.take (count more - 1) := List.take_prefix_take_left (by omega)
    rw [← hrest, Frame.settings_append]
    exact List.subset_append_left _ _
  · change arrived _ payloads.flatten ending = _
    rw [hpayloads, arrived_whole, List.length_map, List.length_cons]

def arriving : Frame := Frame.skeleton ⟨1⟩ 1 (Stream.generateSkeleton Stream.userDocument.value)
  .epoch

def arrivingText : List Char :=
  ["\x7b\"stream_id\":", "\"00000000-0000-0000-", "0000-000000000001\",",
   "\"frame_type\":\"Skeleton\",", "\"priority\":100,", "\"sequence\":1,", "\"timestamp\":",
   "\"1970-01-01T00:00:00Z\",", "\"payload\":\x7b\"id\":0,", "\"tags\":[],",
   "\"user\":\x7b\"name\":null\x7d\x7d,", "\"metadata\":\x7b\x7d\x7d"].flatMap
    String.toList

/-- The patch frame of the whole document. -/
def following : Frame where
  streamId := ⟨1⟩
  frameType := .patch
  priority := .critical
  sequence := 2
  timestamp := .epoch
  payload := .object [("patches", .array [
    .object [("path", JsonData.string "$.id"), ("operation", JsonData.string "set"),
      ("value", JsonData.integer 7)],
    .object [("path", JsonData.string "$.user.name"), ("operation", JsonData.string "set"),
      ("value", JsonData.string "y")],
    .object [("path", JsonData.string "$.tags"), ("operation", JsonData.string "set"),
      ("value", .array [JsonData.string "x"])]])]
  metadata := .empty

def followingText : List Char :=
  ["\x7b\"stream_id\":", "\"00000000-0000-0000-", "0000-000000000001\",",
   "\"frame_type\":\"Patch\",", "\"priority\":100,", "\"sequence\":2,", "\"timestamp\":",
   "\"1970-01-01T00:00:00Z\",", "\"payload\":\x7b\"patches\":[", "\x7b\"path\":\"$.id\",",
   "\"operation\":\"set\",", "\"value\":7\x7d,", "\x7b\"path\":\"$.user.name\",",
   "\"operation\":\"set\",", "\"value\":\"y\"\x7d,", "\x7b\"path\":\"$.tags\",",
   "\"operation\":\"set\",", "\"value\":[\"x\"]\x7d]\x7d,", "\"metadata\":\x7b\x7d\x7d"].flatMap
    String.toList

def textOf (frame : Frame) : List Char :=
  if frame = arriving then arrivingText else followingText

def serializerOf : Serializer where
  frame frame :=
    if frame ∈ [arriving, following] then .ok (Utf8.encode (textOf frame))
    else .error (.serialization "unknown frame")
  frames _ := .error (.serialization "unknown frames")

/-- A parser of two texts. -/
def parseEither (first second : List Char) (value value' : α) (text : String) : Except String α :=
  if text.toList = first then .ok value
  else if text.toList = second then .ok value'
  else .error "Unexpected end of JSON input"

theorem line_parseEither {first second : List Char} {value value' : α}
    (hleft : ¬ first <+: second) (hright : ¬ second <+: first)
    (hheads : first.head? = some '\x7b' ∧ second.head? = some '\x7b')
    (hlines : '\n' ∉ first ∧ '\n' ∉ second) :
    Line (parseEither first second value value') first value ∧
      Line (parseEither first second value value') second value' := by
  have hne : second ≠ first := fun heq => hright (heq ▸ List.prefix_rfl)
  refine ⟨⟨hheads.1, hlines.1, ?_, fun part hpart hcut => ?_⟩,
    hheads.2, hlines.2, ?_, fun part hpart hcut => ?_⟩
  · rw [parseEither, String.toList_ofList, if_pos rfl]
  · have hother : part ≠ second := fun heq => hright (heq ▸ hpart)
    rw [parseEither, String.toList_ofList, if_neg hcut, if_neg hother]
    exact ⟨_, rfl⟩
  · rw [parseEither, String.toList_ofList, if_neg hne, if_pos rfl]
  · have hother : part ≠ first := fun heq => hleft (heq ▸ hpart)
    rw [parseEither, String.toList_ofList, if_neg hother, if_neg hcut]
    exact ⟨_, rfl⟩

def parseOf : String → Except String JsValue :=
  parseEither arrivingText followingText (received epochTexts arriving)
    (received epochTexts following)

theorem line_parseOf : ∀ frame ∈ [arriving, following],
    serializerOf.frame frame = .ok (Utf8.encode (textOf frame)) ∧
      Line parseOf (textOf frame) (received epochTexts frame) := by
  have harriving : textOf arriving = arrivingText := if_pos rfl
  have hfollowing : textOf following = followingText := if_neg (by decide +kernel)
  have hapart : ¬ arrivingText <+: followingText := by decide +kernel
  obtain ⟨hfirst, hsecond⟩ :=
    line_parseEither hapart (by decide +kernel) (by decide +kernel) (by decide +kernel)
  intro frame hframe
  refine ⟨if_pos hframe, ?_⟩
  simp only [List.mem_cons, List.not_mem_nil, or_false] at hframe
  rcases hframe with rfl | rfl
  · rw [harriving]
    exact hfirst
  · rw [hfollowing]
    exact hsecond

/-- With both frames there, the client has the document, whether or not the response went on. -/
theorem view_of_cut_user :
    ∃ payloads : List (List UInt8),
      BatchFrameStream.intoStream serializerOf ⟨[arriving, following], .ndJson, 1⟩ =
        payloads.map .ok ∧
      ∀ (chunks : List (List UInt8)) (ending : Ending), chunks.flatten <+: payloads.flatten →
        arrived ([arriving, following].map textOf) chunks.flatten ending = 2 →
          (processStream (fun _ => "") (fun _ => "")
            (TransportEvent.frames (emitted parseOf chunks ending))).result =
              JsValue.ofData Stream.userDocument.value := by
  have hskeleton : (Stream.started Stream.userDocument).createSkeletonFrame Stream.stillEnv =
      (.ok arriving, (Stream.started Stream.userDocument).recordFrameCreated
        (Stream.stillEnv.later 1) arriving) := rfl
  have hcreated : (((Stream.started Stream.userDocument).recordFrameCreated
      (Stream.stillEnv.later 1) arriving).createPatchFrames Stream.stillEnv .minimum 1).1 =
        .ok [following] := by decide +kernel
  have hemits : ∀ frame ∈ [following], Emits (Stream.started Stream.userDocument) frame :=
    fun frame hframe => ⟨_, (Stream.started Stream.userDocument).recordFrameCreated
      (Stream.stillEnv.later 1) arriving, _, _, _, rfl, rfl, hcreated, hframe⟩
  obtain ⟨payloads, hpayloads, hcut⟩ := view_of_cut (fun _ => "") (fun _ => "") epochTexts
    Stream.stillEnv rfl rfl rfl addressable_userDocument (by rintro _ _ ⟨⟩) hemits
    (congrArg Prod.fst hskeleton) line_parseOf (Or.inr rfl) 1
  refine ⟨payloads, hpayloads, fun chunks ending hprefix hcount => ?_⟩
  have hrun := ((hcut chunks ending hprefix).2.2.2.1 1 hcount).2.1
  rw [hrun]
  exact congrArg JsValue.ofData (by decide +kernel)

end Client

end HttpTransport

end PJS
