import PJS.Compression.Delta
import PJS.Compression.Dictionary
import PJS.Compression.RunLength
import PJS.Stream.Priority

/-! Compression of frames and its reversal by the client. Machine integers wrap as in a release
build, and `none` is a panic. -/
namespace PJS

/-- What the coders take from their libraries: the display of floats, the JSON text of a value and
the `Debug` form of a string. -/
structure Rendering where
  showFloat : Float → String
  toJson : JsonValue → String
  debug : String → String

/-- Schema-aware compressor. -/
structure SchemaCompressor where
  strategy : CompressionStrategy
  config : CompressionConfig

/-- Side-channel data needed by clients to undo a compressed frame. -/
structure DecompressionMetadata where
  strategy : CompressionStrategy
  dictionaryMap : AssocMap UInt16 String
  deltaBases : AssocMap String Float

/-- Compressed stream frame with metadata. -/
structure CompressedFrame where
  frame : StreamFrame
  compressedData : CompressedData
  decompressionMetadata : DecompressionMetadata

variable (render : Rendering)

namespace SchemaCompressor

/-- The size of a compressed payload on the wire. -/
def wireSize (data : JsonValue) (metadata : AssocMap String JsonValue) : ℕ :=
  (render.toJson data).utf8ByteSize +
    if metadata.size = 0 then 0 else (render.toJson (.object metadata.entries)).utf8ByteSize

/-- Add base values to metadata. -/
def insertBases (metadata : AssocMap String JsonValue) :
    List (String × Float) → DomainResult (AssocMap String JsonValue)
  | [] => .ok metadata
  | (path, base) :: bases =>
    if h : base.isFinite = true then
      insertBases (metadata.insert s!"base_{path}" (JsonValue.number (.float base h))) bases
    else .error (.compressionError
      s!"delta base value for path '{path}' is non-finite (NaN or Infinity); cannot compress")

/-- Compress JSON data according to current strategy. -/
def compress (compressor : SchemaCompressor) (data : JsonValue) : DomainResult CompressedData :=
  let finish (compressed : JsonValue) (metadata : AssocMap String JsonValue) : CompressedData :=
    ⟨compressor.strategy, wireSize render compressed metadata, compressed, metadata⟩
  match compressor.strategy with
  | .none => .ok (finish data .empty)
  | .dictionary dictionary =>
    .ok (finish (substituteDictionaryStrings dictionary data)
      (AssocMap.empty.insert "dict" (dictionaryMetadata dictionary)))
  | .delta baseValues => do
    let metadata ← insertBases .empty baseValues.entries
    return finish (applyDeltaCompression render.showFloat compressor.config baseValues data)
      metadata
  | .runLength => .ok (finish (applyRunLengthEncoding compressor.config data) .empty)
  | .hybrid stringDict numericDeltas => do
    let metadata ← insertBases (AssocMap.empty.insert "dict" (dictionaryMetadata stringDict))
      numericDeltas.entries
    let substituted := substituteDictionaryStrings stringDict data
    let differences :=
      applyDeltaCompression render.showFloat compressor.config numericDeltas substituted
    return finish differences metadata

end SchemaCompressor

/-- Compression statistics gathered by a streaming compressor. -/
structure CompressionStats where
  totalInputBytes : UInt64
  totalOutputBytes : UInt64
  framesProcessed : UInt32
  priorityRatios : AssocMap ℕ Float32

/-- Streaming compressor that maintains compression state across frames. -/
structure StreamingCompressor where
  skeletonCompressor : SchemaCompressor
  contentCompressor : SchemaCompressor
  stats : CompressionStats

namespace StreamingCompressor

/-- Select appropriate compressor based on frame priority. -/
def selectCompressorForPriority (compressor : StreamingCompressor) (priority : Priority) :
    SchemaCompressor :=
  if priority = .critical ∨ priority = .high then compressor.skeletonCompressor
  else compressor.contentCompressor

/-- Update compression statistics. -/
def updateStats (stats : CompressionStats) (priority : Priority)
    (originalSize compressedSize : ℕ) : CompressionStats where
  totalInputBytes := stats.totalInputBytes + UInt64.ofNat originalSize
  totalOutputBytes := stats.totalOutputBytes + UInt64.ofNat compressedSize
  framesProcessed := stats.framesProcessed + 1
  priorityRatios := stats.priorityRatios.insert priority.value
    (if originalSize > 0 then Float32.ofNat compressedSize / Float32.ofNat originalSize else 1)

/-- The path in a metadata key that starts with `base_`. -/
def basePath (key : String) : Option String :=
  if "base_".toList.isPrefixOf key.toList then some (String.ofList (key.toList.drop 5)) else none

/-- Take over one entry of the metadata. -/
def readMetadata (maps : AssocMap UInt16 String × AssocMap String Float) :
    String × JsonValue → AssocMap UInt16 String × AssocMap String Float
  | (key, value) =>
    if key = "dict" then
      match value with
      | .array entries => (readDictionary maps.1 entries, maps.2)
      | _ => maps
    else
      match basePath key, value.asF64 with
      | some path, some num => (maps.1, maps.2.insert path num)
      | _, _ => maps

/-- Create decompression metadata for client. -/
def createDecompressionMetadata (data : CompressedData) : DecompressionMetadata :=
  let maps := data.compressionMetadata.entries.foldl readMetadata (.empty, .empty)
  ⟨data.strategy, maps.1, maps.2⟩

/-- Process and compress a stream frame based on its priority. -/
def compressFrame (compressor : StreamingCompressor) (frame : StreamFrame) :
    DomainResult CompressedFrame × StreamingCompressor :=
  let originalSize := (render.toJson frame.data).utf8ByteSize
  match (compressor.selectCompressorForPriority frame.priority).compress render frame.data with
  | .error e => (.error e, compressor)
  | .ok data =>
    let stats := updateStats compressor.stats frame.priority originalSize data.compressedSize
    (.ok ⟨frame, data, createDecompressionMetadata data⟩, { compressor with stats })

end StreamingCompressor

/-- Counters tracking decompression activity. -/
structure DecompressionStats where
  framesDecompressed : UInt32
  totalDecompressedBytes : UInt64
  avgDecompressionTimeUs : UInt64

/-- Client-side decompressor for receiving compressed frames. -/
structure StreamingDecompressor where
  activeDictionary : AssocMap UInt16 String
  deltaBases : AssocMap String Float
  stats : DecompressionStats

namespace StreamingDecompressor

def new : StreamingDecompressor := ⟨.empty, .empty, ⟨0, 0, 0⟩⟩

/-- Update decompression context with new metadata. -/
def updateContext (decompressor : StreamingDecompressor) (metadata : DecompressionMetadata) :
    StreamingDecompressor :=
  { decompressor with
    activeDictionary := metadata.dictionaryMap.entries.foldl
      (fun map e => map.insert e.1 e.2) decompressor.activeDictionary
    deltaBases := metadata.deltaBases.entries.foldl
      (fun map e => map.insert e.1 e.2) decompressor.deltaBases }

/-- Decompress data according to strategy. -/
def decompressData (data : CompressedData) (metadata : DecompressionMetadata) :
    DomainResult JsonValue :=
  match metadata.strategy with
  | .none => .ok data.data
  | .dictionary _ => decompressDictionary render.debug metadata.dictionaryMap data.data
  | .delta _ => decompressDelta data.data
  | .runLength => decompressRunLength data.data
  | .hybrid _ _ => do
    let deltaDecompressed ← decompressDelta data.data
    decompressDictionary render.debug metadata.dictionaryMap deltaDecompressed

/-- Update decompression statistics. The average divides by the number of frames, which is zero
when the counter has wrapped. -/
def updateDecompressionStats (stats : DecompressionStats) (data : JsonValue) (timeUs : UInt64) :
    Option DecompressionStats :=
  let framesDecompressed := stats.framesDecompressed + 1
  let totalDecompressedBytes :=
    stats.totalDecompressedBytes + UInt64.ofNat (render.toJson data).utf8ByteSize
  if framesDecompressed = 1 then some ⟨framesDecompressed, totalDecompressedBytes, timeUs⟩
  else
    let totalFrames := framesDecompressed.toUInt64
    let totalTime := stats.avgDecompressionTimeUs * (totalFrames - 1) + timeUs
    if totalFrames = 0 then none
    else some ⟨framesDecompressed, totalDecompressedBytes, totalTime / totalFrames⟩

/-- Decompress a compressed frame, in `timeUs` microseconds. -/
def decompressFrame (timeUs : UInt64) (decompressor : StreamingDecompressor)
    (compressed : CompressedFrame) : Option (DomainResult StreamFrame × StreamingDecompressor) :=
  let decompressor := decompressor.updateContext compressed.decompressionMetadata
  match decompressData render compressed.compressedData compressed.decompressionMetadata with
  | .error e => some (.error e, decompressor)
  | .ok data => do
    let stats ← updateDecompressionStats render decompressor.stats data timeUs
    return (.ok { compressed.frame with data }, { decompressor with stats })

/-- Decompress frames one after another. -/
def decompressFrames (decompressor : StreamingDecompressor) :
    List (UInt64 × CompressedFrame) → Option StreamingDecompressor
  | [] => some decompressor
  | (timeUs, compressed) :: rest => do
    let (_, decompressor) ← decompressFrame render timeUs decompressor compressed
    decompressFrames decompressor rest

end StreamingDecompressor

section Dictionary

open StreamingDecompressor

/-- The average cannot be taken when the counter of frames wraps. -/
theorem updateDecompressionStats_cases (stats : DecompressionStats) (data : JsonValue)
    (timeUs : UInt64) :
    (stats.framesDecompressed = 4294967295 ∧
      updateDecompressionStats render stats data timeUs = none) ∨
    stats.framesDecompressed ≠ 4294967295 ∧
      ∃ stats', updateDecompressionStats render stats data timeUs = some stats' ∧
        stats'.framesDecompressed.toNat = stats.framesDecompressed.toNat + 1 := by
  unfold updateDecompressionStats
  by_cases h : stats.framesDecompressed = 4294967295
  · left
    refine ⟨h, ?_⟩
    rw [h]
    rfl
  · right
    have hlt : stats.framesDecompressed.toNat + 1 < 2 ^ 32 := by
      have hne : stats.framesDecompressed.toNat ≠ 4294967295 :=
        fun heq => h (UInt32.toNat_inj.mp heq)
      have := stats.framesDecompressed.toNat_lt
      omega
    have hnext : (stats.framesDecompressed + 1).toNat = stats.framesDecompressed.toNat + 1 := by
      rw [UInt32.toNat_add]
      exact Nat.mod_eq_of_lt hlt
    have hzero : (stats.framesDecompressed + 1).toUInt64 ≠ 0 := by
      intro heq
      have := congrArg UInt64.toNat heq
      rw [UInt32.toNat_toUInt64, hnext] at this
      cases this
    refine ⟨h, ?_⟩
    simp only [hzero, if_false]
    split_ifs
    · exact ⟨_, rfl, hnext⟩
    · exact ⟨_, rfl, hnext⟩

/-- Whatever the decompressor has seen before, a frame with good data is decompressed and counted,
or the counter is at its end. -/
theorem decompressFrame_cases (decompressor : StreamingDecompressor) (timeUs : UInt64)
    {compressed : CompressedFrame} {data : JsonValue}
    (h : decompressData render compressed.compressedData compressed.decompressionMetadata =
      .ok data) :
    (decompressor.stats.framesDecompressed = 4294967295 ∧
      decompressor.decompressFrame render timeUs compressed = none) ∨
    decompressor.stats.framesDecompressed ≠ 4294967295 ∧
      ∃ decompressor', decompressor.decompressFrame render timeUs compressed =
          some (.ok { compressed.frame with data }, decompressor') ∧
        decompressor'.stats.framesDecompressed.toNat =
          decompressor.stats.framesDecompressed.toNat + 1 := by
  have hcontext : (decompressor.updateContext compressed.decompressionMetadata).stats =
      decompressor.stats := rfl
  unfold decompressFrame
  simp only [h, hcontext]
  rcases updateDecompressionStats_cases render decompressor.stats data timeUs with
    ⟨hmax, hnone⟩ | ⟨hmax, stats', hsome, hcount⟩
  · rw [hnone]
    exact Or.inl ⟨hmax, rfl⟩
  · rw [hsome]
    exact Or.inr ⟨hmax, _, rfl, hcount⟩

/-- A frame that is sent under a dictionary carries its own inverse. -/
theorem compressFrame_dictionary (compressor : StreamingCompressor) (frame : StreamFrame)
    (repetitions : AssocMap String UInt32) (config : CompressionConfig)
    (hstrategy : (compressor.selectCompressorForPriority frame.priority).strategy =
      .dictionary (buildDictionary repetitions config).1) :
    ∃ compressed compressor',
      compressor.compressFrame render frame = (.ok compressed, compressor') ∧
      decompressData render compressed.compressedData compressed.decompressionMetadata =
        .ok frame.data := by
  unfold StreamingCompressor.compressFrame SchemaCompressor.compress
  simp only [hstrategy]
  refine ⟨_, _, rfl, ?_⟩
  refine decompressDictionary_substitute render.debug ?_ frame.data
  exact (indexed_buildDictionary repetitions config).numbered.inverts rfl .empty

/-- A frame that is sent under a dictionary comes back from every decompressor, unless the
decompressor's counter of frames is at its end. -/
theorem dictionary_frame_iff (compressor : StreamingCompressor) (frame : StreamFrame)
    (repetitions : AssocMap String UInt32) (config : CompressionConfig)
    (hstrategy : (compressor.selectCompressorForPriority frame.priority).strategy =
      .dictionary (buildDictionary repetitions config).1)
    (decompressor : StreamingDecompressor) (timeUs : UInt64) :
    (∃ compressed compressor' frame' decompressor',
      compressor.compressFrame render frame = (.ok compressed, compressor') ∧
      decompressor.decompressFrame render timeUs compressed = some (.ok frame', decompressor') ∧
      frame'.data = frame.data) ↔
    decompressor.stats.framesDecompressed ≠ 4294967295 := by
  obtain ⟨compressed, compressor', hc, hd⟩ :=
    compressFrame_dictionary render compressor frame repetitions config hstrategy
  rcases decompressFrame_cases render decompressor timeUs hd with
    ⟨hmax, hnone⟩ | ⟨hmax, decompressor', hsome, -⟩
  · refine iff_of_false ?_ (not_not.mpr hmax)
    rintro ⟨compressed', compressor'', frame', decompressor', hc', hd', -⟩
    cases hc.symm.trans hc'
    cases hnone.symm.trans hd'
  · exact iff_of_true ⟨_, _, _, _, hc, hsome, rfl⟩ hmax

/-- The JSON text of null, of a string without escapes and of an empty dictionary. -/
def plainRendering : Rendering where
  showFloat := showSmall
  toJson
    | .null => "null"
    | .string s => "\"" ++ s ++ "\""
    | _ => "\x7b\"dict\":[]\x7d"
  debug s := "\"" ++ s ++ "\""

/-- A compressor with the dictionary of no strings. -/
def plainCompressor : StreamingCompressor :=
  let compressor := ⟨.dictionary (buildDictionary .empty .default).1, .default⟩
  ⟨compressor, compressor, ⟨0, 0, 0, .empty⟩⟩

/-- A string that looks like a marker. -/
theorem dictionary_frame_marker :
    let frame : StreamFrame := ⟨JsonValue.string "\x7f0", .medium, .empty⟩
    (∃ compressed compressor' frame' decompressor',
      plainCompressor.compressFrame plainRendering frame = (.ok compressed, compressor') ∧
      StreamingDecompressor.new.decompressFrame plainRendering 0 compressed =
        some (.ok frame', decompressor') ∧ frame'.data = frame.data) ↔
    StreamingDecompressor.new.stats.framesDecompressed ≠ 4294967295 :=
  dictionary_frame_iff plainRendering plainCompressor _ .empty .default rfl .new 0

theorem decompressFrames_replicate {compressed : CompressedFrame} {data : JsonValue}
    (h : decompressData render compressed.compressedData compressed.decompressionMetadata =
      .ok data) (timeUs : UInt64) (n : ℕ) (decompressor : StreamingDecompressor)
    (hn : decompressor.stats.framesDecompressed.toNat + n < 2 ^ 32) :
    ∃ decompressor', decompressor.decompressFrames render (List.replicate n (timeUs, compressed)) =
        some decompressor' ∧
      decompressor'.stats.framesDecompressed.toNat =
        decompressor.stats.framesDecompressed.toNat + n := by
  induction n generalizing decompressor with
  | zero => exact ⟨decompressor, rfl, rfl⟩
  | succ n ih =>
    rcases decompressFrame_cases render decompressor timeUs h with
      ⟨hmax, -⟩ | ⟨-, next, hnext, hcount⟩
    · rw [hmax] at hn
      exact absurd hn (by change ¬ 4294967295 + (n + 1) < 2 ^ 32; omega)
    · obtain ⟨last, hlast, htotal⟩ := ih next (by omega)
      refine ⟨last, ?_, by omega⟩
      rw [List.replicate_succ, decompressFrames, hnext]
      exact hlast

/-- The frame after four thousand million others brings the decompressor down. -/
theorem decompressor_panics :
    ∃ compressed compressor' decompressor,
      plainCompressor.compressFrame plainRendering ⟨JsonValue.null, .medium, .empty⟩ =
        (.ok compressed, compressor') ∧
      StreamingDecompressor.new.decompressFrames plainRendering
        (List.replicate 4294967295 (0, compressed)) = some decompressor ∧
      decompressor.decompressFrame plainRendering 0 compressed = none := by
  obtain ⟨compressed, compressor', hc, hd⟩ := compressFrame_dictionary plainRendering
    plainCompressor ⟨JsonValue.null, .medium, .empty⟩ .empty .default rfl
  obtain ⟨decompressor, hrun, hcount⟩ :=
    decompressFrames_replicate plainRendering hd 0 4294967295 .new (by decide)
  refine ⟨compressed, compressor', decompressor, hc, hrun, ?_⟩
  rcases decompressFrame_cases plainRendering decompressor 0 hd with ⟨-, hnone⟩ | ⟨hmax, -⟩
  · exact hnone
  · exact absurd (UInt32.toNat_inj.mp hcount) hmax

end Dictionary

end PJS
