import PJS.Domain.FrameSerde
import PJS.Http.Streaming
import PJS.Lib.Lines

/-! The client's end of a stream over HTTP: bytes are decoded as they arrive, lines are parsed as
they are completed. -/
namespace PJS

/-- A `TextDecoder`: the first character of the text is dropped when it is a byte order mark. -/
structure TextDecoder where
  decoder : Utf8.Decoder
  bomSeen : Bool

namespace TextDecoder

def start : TextDecoder := ⟨.start, false⟩

/-- `decode(value, { stream: true })`. -/
def decode (t : TextDecoder) (value : List UInt8) : TextDecoder × List Char :=
  match t.bomSeen, t.decoder.run value with
  | true, (decoder, text) => (⟨decoder, true⟩, text)
  | false, (decoder, []) => (⟨decoder, false⟩, [])
  | false, (decoder, c :: text) => (⟨decoder, true⟩, if c = '\uFEFF' then text else c :: text)

/-- The text of each piece. -/
def decodeAll (t : TextDecoder) : List (List UInt8) → List (List Char)
  | [] => []
  | value :: rest => (t.decode value).2 :: decodeAll (t.decode value).1 rest

theorem flatten_decodeAll_seen (d : Utf8.Decoder) (values : List (List UInt8)) :
    (decodeAll ⟨d, true⟩ values).flatten = (d.run values.flatten).2 := by
  induction values generalizing d with
  | nil => rfl
  | cons value rest ih =>
    rw [List.flatten_cons, Utf8.Decoder.run_append, decodeAll, List.flatten_cons]
    exact congrArg _ (ih _)

/-- The text does not depend on how its bytes are cut. -/
theorem flatten_decodeAll {d : Utf8.Decoder} {values : List (List UInt8)}
    (hbom : (d.run values.flatten).2.head? ≠ some '\uFEFF') :
    (decodeAll ⟨d, false⟩ values).flatten = (d.run values.flatten).2 := by
  induction values generalizing d with
  | nil => rfl
  | cons value rest ih =>
    rw [List.flatten_cons, Utf8.Decoder.run_append] at hbom ⊢
    rw [decodeAll, List.flatten_cons]
    rcases hrun : d.run value with ⟨d', _ | ⟨first, text⟩⟩
    · simp only [decode, hrun, List.nil_append] at hbom ⊢
      exact ih hbom
    · rw [hrun, List.cons_append, List.head?_cons, ne_eq, Option.some.injEq] at hbom
      simp only [decode, hrun, if_neg hbom, flatten_decodeAll_seen]

/-- An encoded text is decoded to itself. -/
theorem flatten_decodeAll_encode {text : List Char} {values : List (List UInt8)}
    (hbom : text.head? ≠ some '\uFEFF') (hvalues : values.flatten = Utf8.encode text) :
    (decodeAll start values).flatten = text := by
  have hrun := Utf8.Decoder.run_encode text
  rw [start, flatten_decodeAll (by rwa [hvalues, hrun]), hvalues, hrun]

end TextDecoder

/-- White space and line ends as `trim` removes them. -/
def isTrimmed (c : Char) : Bool :=
  c.toNat ∈ [0x09, 0x0A, 0x0B, 0x0C, 0x0D, 0x20, 0xA0, 0x1680, 0x2028, 0x2029, 0x202F, 0x205F,
    0x3000, 0xFEFF] || (0x2000 ≤ c.toNat && c.toNat ≤ 0x200A)

inductive TransportEvent (α : Type) where
  | frame (value : α)
  | error (message : String) (text : String)

namespace HttpTransport
variable {α : Type} (parse : String → Except String α)

/-- Parse one line, unless it is blank. -/
def parseLine (message : String) (line : List Char) : List (TransportEvent α) :=
  if line.all isTrimmed then []
  else match parse (String.ofList line) with
    | .ok frame => [.frame frame]
    | .error _ => [.error message (String.ofList line)]

/-- What the read loop keeps between chunks. -/
structure Reading where
  decoder : TextDecoder
  buffer : List Char

/-- One chunk: decode it, and parse the lines it completes. -/
def readChunk (r : Reading) (value : List UInt8) : Reading × List (TransportEvent α) :=
  let (decoder, text) := r.decoder.decode value
  let (lines, buffer) := Lines.feed '\n' r.buffer text
  (⟨decoder, buffer⟩, lines.flatMap (parseLine parse "Failed to parse frame from HTTP response"))

/-- The read loop, and the parse of what remains at its end. -/
def readAll (r : Reading) : List (List UInt8) → List (TransportEvent α)
  | [] => parseLine parse "Failed to parse final frame from HTTP response" r.buffer
  | value :: rest => (readChunk parse r value).2 ++ readAll (readChunk parse r value).1 rest

def processStreamingResponse (chunks : List (List UInt8)) : List (TransportEvent α) :=
  readAll parse ⟨.start, []⟩ chunks

/-- The loop parses the lines of the decoded pieces. -/
theorem readAll_eq (r : Reading) (chunks : List (List UInt8)) :
    readAll parse r chunks =
      (Lines.feedAll '\n' r.buffer (r.decoder.decodeAll chunks)).1.flatMap
          (parseLine parse "Failed to parse frame from HTTP response") ++
        parseLine parse "Failed to parse final frame from HTTP response"
          (Lines.feedAll '\n' r.buffer (r.decoder.decodeAll chunks)).2 := by
  induction chunks generalizing r with
  | nil => rfl
  | cons value rest ih =>
    rw [readAll, ih, TextDecoder.decodeAll, Lines.feedAll, List.flatMap_append, List.append_assoc]
    rfl

/-- The serializer writes the frame as a JSON object on one line, which the parser reads as
`value`. -/
def Written (serializer : Serializer) (value : Frame → α) (frame : Frame) : Prop :=
  ∃ text : List Char, serializer.frame frame = .ok (Utf8.encode text) ∧
    text.head? = some '\x7b' ∧ '\n' ∉ text ∧ parse (String.ofList text) = .ok (value frame)

variable {parse}

theorem parseLine_of_ok {message : String} {line : List Char} {value : α}
    (hhead : line.head? = some '\x7b') (h : parse (String.ofList line) = .ok value) :
    parseLine parse message line = [.frame value] := by
  have hblank : line.all isTrimmed = false := by
    rw [List.head?_eq_some_iff] at hhead
    obtain ⟨rest, rfl⟩ := hhead
    rw [List.all_cons, Bool.and_eq_false_iff]
    exact Or.inl (by decide)
  rw [parseLine, hblank, h]
  rfl

/-- Lines of written frames come out as the frames, however their bytes are cut. -/
theorem processStreamingResponse_lines {frames : List Frame} {text : Frame → List Char}
    {value : Frame → α} (h : ∀ frame ∈ frames, (text frame).head? = some '\x7b' ∧
      '\n' ∉ text frame ∧ parse (String.ofList (text frame)) = .ok (value frame))
    {chunks : List (List UInt8)}
    (hchunks : chunks.flatten = Utf8.encode (frames.flatMap fun frame => text frame ++ ['\n'])) :
    processStreamingResponse parse chunks = frames.map fun frame => .frame (value frame) := by
  have hbom : (frames.flatMap fun frame => text frame ++ ['\n']).head? ≠ some '\uFEFF' := by
    cases frames with
    | nil => simp
    | cons frame rest =>
      obtain ⟨hhead, -, -⟩ := h frame (by simp)
      rw [List.flatMap_cons, List.head?_append, List.head?_append, hhead, Option.some_or,
        Option.some_or, ne_eq, Option.some.injEq]
      decide
  have hlines := @Lines.feed_terminated _ _ '\n' (frames.map text)
    (List.forall_mem_map.mpr fun frame hf => (h frame hf).2.1)
  rw [List.flatMap_map] at hlines
  rw [processStreamingResponse, readAll_eq, Lines.feedAll_eq '\n' [] _ (by simp),
    TextDecoder.flatten_decodeAll_encode hbom hchunks, hlines, List.flatMap_map]
  have hparsed : (frames.flatMap fun frame =>
      parseLine parse "Failed to parse frame from HTTP response" (text frame)) =
      frames.flatMap fun frame => [TransportEvent.frame (value frame)] :=
    List.flatMap_congr fun frame hf => parseLine_of_ok (h frame hf).1 (h frame hf).2.2
  rw [hparsed, ← List.map_eq_flatMap]
  exact List.append_nil _

/-- Whatever the size of the batches and however the response is cut into chunks, the client emits
the frames of the stream, once each and in order, and no error. -/
theorem frames_delivered (parse : String → Except String α) (serializer : Serializer)
    (value : Frame → α) {format : StreamFormat} (hformat : format = .json ∨ format = .ndJson)
    (batchSize : ℕ) {frames : List Frame}
    (h : ∀ frame ∈ frames, Written parse serializer value frame) :
    ∃ batches payloads, batches.flatten = frames ∧ BatchFrameStream.Batched batchSize batches ∧
      BatchFrameStream.intoStream serializer ⟨frames, format, batchSize⟩ = payloads.map .ok ∧
      List.Forall₂ (fun batch payload =>
        serializer.formatBatchOwned batch format = .ok payload) batches payloads ∧
      ∀ chunks : List (List UInt8), chunks.flatten = payloads.flatten →
        processStreamingResponse parse chunks = frames.map fun frame => .frame (value frame) := by
  choose! text hbytes htext using h
  have hlines : ∀ batch : List Frame, (∀ frame ∈ batch, frame ∈ frames) →
      serializer.formatBatchOwned batch format =
        .ok (Utf8.encode (batch.flatMap fun frame => text frame ++ ['\n'])) := by
    intro batch hbatch
    have heach := @Serializer.each_eq _ (Utf8.encode ['\n'])
      (fun frame => Utf8.encode (text frame)) _ fun frame hf => hbytes frame (hbatch frame hf)
    simp only [← Utf8.encode_append, ← Utf8.encode_flatMap] at heach
    rcases hformat with rfl | rfl <;> exact heach
  obtain ⟨batches, payloads, hflatten, hbatched, hrun, hpayloads⟩ :=
    @BatchFrameStream.intoStreamFrom_eq _ _ batchSize [] _ (by simp)
      fun b hb => ⟨_, hlines b hb⟩
  refine ⟨batches, payloads, hflatten, hbatched, hrun, hpayloads, fun chunks hchunks => ?_⟩
  refine processStreamingResponse_lines htext (hchunks.trans ?_)
  have hmem : ∀ batch ∈ batches, ∀ frame ∈ batch, frame ∈ frames := fun batch hb frame hf => by
    rw [← List.nil_append frames, ← hflatten]
    exact List.mem_flatten_of_mem hb hf
  have hsame : ∀ {bs ps}, List.Forall₂ (fun batch payload =>
      serializer.formatBatchOwned batch format = .ok payload) bs ps →
      (∀ batch ∈ bs, ∀ frame ∈ batch, frame ∈ frames) →
      ps.flatten = Utf8.encode (bs.flatten.flatMap fun frame => text frame ++ ['\n']) := by
    intro bs ps hall hbs
    induction hall with
    | nil => rfl
    | @cons batch payload bs ps hpayload _ ih =>
      rw [hlines batch (hbs batch (by simp)), Except.ok.injEq] at hpayload
      rw [List.flatten_cons, List.flatten_cons, List.flatMap_append, Utf8.encode_append, ← hpayload,
        ih fun b hb => hbs b (by simp [hb])]
  rw [hsame hpayloads hmem, hflatten, List.nil_append]

def closing : Frame := Frame.complete ⟨1⟩ 3 (some "é") .epoch

def closingText : String :=
  "\x7b\"stream_id\":\"00000000-0000-0000-0000-000000000001\",\"frame_type\":\"Complete\"," ++
    "\"priority\":100,\"sequence\":3,\"timestamp\":\"1970-01-01T00:00:00Z\"," ++
    "\"payload\":\x7b\"checksum\":\"é\"\x7d,\"metadata\":\x7b\x7d\x7d"

def closingSerializer : Serializer where
  frame frame :=
    if frame = closing then .ok (Utf8.encode closingText.toList)
    else .error (.serialization "unknown frame")
  frames _ := .error (.serialization "unknown frames")

def parseClosing (text : String) : Except String SerdeValue :=
  if text = closingText then .ok (closing.serialize epochTexts) else .error "Unexpected token"

theorem frames_delivered_closing :
    ∃ batches payloads, batches.flatten = [closing, closing, closing] ∧
      BatchFrameStream.Batched 2 batches ∧
      BatchFrameStream.intoStream closingSerializer ⟨[closing, closing, closing], .ndJson, 2⟩ =
        payloads.map .ok ∧
      List.Forall₂ (fun batch payload =>
        closingSerializer.formatBatchOwned batch .ndJson = .ok payload) batches payloads ∧
      ∀ chunks : List (List UInt8), chunks.flatten = payloads.flatten →
        processStreamingResponse parseClosing chunks =
          [closing, closing, closing].map fun frame => .frame (frame.serialize epochTexts) := by
  refine frames_delivered parseClosing closingSerializer _ (Or.inr rfl) 2 fun frame hf => ?_
  have hframe : frame = closing := by simpa using hf
  have hserialize : closingSerializer.frame closing = .ok (Utf8.encode closingText.toList) := by
    simp only [closingSerializer, if_true]
  subst hframe
  refine ⟨closingText.toList, hserialize, by decide +kernel, by decide +kernel, ?_⟩
  rw [String.ofList_toList, parseClosing, if_pos rfl]

end HttpTransport

end PJS
