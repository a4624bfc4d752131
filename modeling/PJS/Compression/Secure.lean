import PJS.Security.CompressionBomb

/-! Decompression behind the protected reader. The decoders of the codecs are third-party readers;
whatever they deliver, the bytes read are within the limits up to an interval, and a result is
within the limits. -/
namespace PJS

open FloatOrder (ratio value)

/-- The codecs; `δ` stands for zstd dictionaries. -/
inductive ByteCodec (δ : Type*) where
  | none
  | deflate
  | gzip
  | brotli
  | zstdDict (dict : δ)

/-- The decoders of the codecs over the compressed bytes, with `σ` for their states. -/
structure Decoders (δ σ : Type*) where
  read : ReadFn σ
  deflateDecoder : List UInt8 → σ
  gzDecoder : List UInt8 → σ
  brotliDecompressor : List UInt8 → (bufferSize : ℕ) → σ
  zstdDecoder : List UInt8 → δ → Except String σ

structure SecureCompressedData (δ : Type*) where
  data : List UInt8
  codec : ByteCodec δ

structure SecureCompressor where
  detector : CompressionBombDetector

namespace SecureCompressor
variable {δ σ ρ : Type*} (showRatio : Float → String) (decoders : Decoders δ σ)

/-- The reader that a call reads from. -/
def protect (detector : CompressionBombDetector) (decoder : ρ) (compressedSize : ℕ) :
    Option ℕ → Except SecureError (CompressionBombProtector ρ)
  | some d => detector.protectNestedReader showRatio decoder compressedSize d
  | none => .ok (detector.protectReader decoder compressedSize)

/-- The read loop over a decoder, with the lengths of the buffers it reads into. -/
def run (compressor : SecureCompressor) (bufs : List ℕ) (decoderRead : ReadFn ρ) (decoder : ρ)
    (data : List UInt8) (depth : Option ℕ) : Option (Except SecureError (List UInt8)) :=
  match protect showRatio compressor.detector decoder data.length depth with
  | .error e => some (.error e)
  | .ok protector =>
    match ReadFn.readToEnd (CompressionBombProtector.read showRatio decoderRead) bufs protector []
      with
    | none => none
    | some (.error e, _) =>
      some (.error (.securityError s!"Protected decompression failed: {e.message}"))
    | some (.ok out, _) =>
      match compressor.detector.validateResult showRatio data.length out.length with
      | .error e => some (.error e)
      | .ok () => some (.ok out)

def decodeWithProtection (compressor : SecureCompressor) (bufs : List ℕ) (data : List UInt8)
    (codec : ByteCodec δ) (depth : Option ℕ) : Option (Except SecureError (List UInt8)) :=
  match codec with
  | .none => compressor.run showRatio bufs ReadFn.cursor data data depth
  | .deflate =>
    compressor.run showRatio bufs decoders.read (decoders.deflateDecoder data) data depth
  | .gzip => compressor.run showRatio bufs decoders.read (decoders.gzDecoder data) data depth
  | .brotli =>
    compressor.run showRatio bufs decoders.read (decoders.brotliDecompressor data 4096) data depth
  | .zstdDict dict =>
    match decoders.zstdDecoder data dict with
    | .error e => some (.error (.compressionError s!"zstd decoder init: {e}"))
    | .ok decoder => compressor.run showRatio bufs decoders.read decoder data depth

def decompress (compressor : SecureCompressor) (bufs : List ℕ)
    (compressed : SecureCompressedData δ) (depth : Option ℕ) :
    Option (Except SecureError (List UInt8)) :=
  match compressor.detector.validatePreDecompression compressed.data.length with
  | .error e => some (.error e)
  | .ok () =>
    compressor.decodeWithProtection showRatio decoders bufs compressed.data compressed.codec depth

def decompressProtected (compressor : SecureCompressor) (bufs : List ℕ)
    (compressed : SecureCompressedData δ) : Option (Except SecureError (List UInt8)) :=
  compressor.decompress showRatio decoders bufs compressed none

def decompressNested (compressor : SecureCompressor) (bufs : List ℕ)
    (compressed : SecureCompressedData δ) (depth : ℕ) : Option (Except SecureError (List UInt8)) :=
  compressor.decompress showRatio decoders bufs compressed (some depth)

/-- A result has been validated. -/
theorem run_ok {compressor : SecureCompressor} {bufs : List ℕ} {decoderRead : ReadFn ρ}
    {decoder : ρ} {data out : List UInt8} {depth : Option ℕ}
    (h : compressor.run showRatio bufs decoderRead decoder data depth = some (.ok out)) :
    compressor.detector.validateResult showRatio data.length out.length = .ok () := by
  unfold run at h
  split at h
  · cases h
  · split at h
    · cases h
    · cases h
    · split at h
      · cases h
      · next hvalid =>
        cases h
        exact hvalid

theorem decodeWithProtection_ok {compressor : SecureCompressor} {bufs : List ℕ}
    {data out : List UInt8} {codec : ByteCodec δ} {depth : Option ℕ}
    (h : compressor.decodeWithProtection showRatio decoders bufs data codec depth =
      some (.ok out)) :
    compressor.detector.validateResult showRatio data.length out.length = .ok () := by
  unfold decodeWithProtection at h
  cases codec with
  | none => exact run_ok showRatio h
  | deflate => exact run_ok showRatio h
  | gzip => exact run_ok showRatio h
  | brotli => exact run_ok showRatio h
  | zstdDict dict =>
    simp only at h
    split at h
    · cases h
    · exact run_ok showRatio h

section Bounds
variable {config : CompressionBombConfig} {c : ℕ}

/-- The bytes that the protected reader delivers: the size limit holds up to an interval, and the
ratio limit up to an interval and the rounding of the ratio. -/
theorem delivered_bounded (hc : c < 2 ^ 64) (innerRead : ReadFn ρ) (inner : ρ) (ns : List ℕ)
    {got : ℕ}
    (hgot : got = ReadFn.delivered (ReadFn.reads
      (CompressionBombProtector.read showRatio innerRead) ns (.new inner config c)).1) :
    got ≤ config.maxDecompressedSize + config.checkIntervalBytes ∧
      (0 < c → ∀ q : ℚ,
        value config.maxRatio = some ((q : WithTop ℚ) : WithBot (WithTop ℚ)) →
        (2 ^ 53 - 3) * ((got : ℚ) - config.checkIntervalBytes) ≤ 2 ^ 53 * (max q 0 * c)) := by
  obtain ⟨checked, hpass, hle⟩ :=
    CompressionBombProtector.delivered_passes showRatio innerRead hc inner ns
  rw [← hgot] at hle
  refine ⟨hle.trans (Nat.add_le_add_right hpass.1 _), fun hpos q hq => ?_⟩
  have hbound := hpass.le hpos hc hq
  have hcast : (got : ℚ) ≤ checked + config.checkIntervalBytes := by exact_mod_cast hle
  linarith

/-- A result that is returned. -/
theorem decoded_bounded {compressor : SecureCompressor} {bufs : List ℕ} {data out : List UInt8}
    {codec : ByteCodec δ} {depth : Option ℕ} (hdata : data.length < 2 ^ 64)
    (h : compressor.decodeWithProtection showRatio decoders bufs data codec depth =
      some (.ok out)) :
    out.length ≤ compressor.detector.config.maxDecompressedSize ∧
      (data ≠ [] → ∀ q : ℚ, value compressor.detector.config.maxRatio =
          some ((q : WithTop ℚ) : WithBot (WithTop ℚ)) →
        (2 ^ 53 - 3) * (out.length : ℚ) ≤ 2 ^ 53 * (q * data.length)) := by
  obtain ⟨hsize, hratio⟩ := (CompressionBombDetector.validateResult_eq_ok_iff showRatio).mp
    (decodeWithProtection_ok showRatio decoders h)
  refine ⟨hsize, fun hne q hq => ?_⟩
  have hpos := List.length_pos_of_ne_nil hne
  exact FloatOrder.le_of_not_lt_ratio hpos.ne' hdata hq (hratio hpos)

/-- The bounds of the protected reader and of decompression. The ratios are compared as rounded
quotients, so a bound holds up to three times `2 ^ -53` of it. -/
theorem decompression_bounded (innerRead : ReadFn ρ) (inner : ρ) (config : CompressionBombConfig)
    (c : ℕ) (hc : c < 2 ^ 64) :
    (∀ ns got, got = ReadFn.delivered (ReadFn.reads
        (CompressionBombProtector.read showRatio innerRead) ns (.new inner config c)).1 →
      got ≤ config.maxDecompressedSize + config.checkIntervalBytes ∧
      (0 < c → ∀ q : ℚ,
        value config.maxRatio = some ((q : WithTop ℚ) : WithBot (WithTop ℚ)) →
        (2 ^ 53 - 3) * ((got : ℚ) - config.checkIntervalBytes) ≤ 2 ^ 53 * (max q 0 * c))) ∧
    (∀ (p : CompressionBombProtector ρ) n ns, p.compressedSize = c →
      CompressionBombProtector.FailsOnLimit showRatio innerRead p n →
      ∀ r ∈ (ReadFn.reads (CompressionBombProtector.read showRatio innerRead) ns
        (CompressionBombProtector.read showRatio innerRead p n).2).1, ∃ e, r = .error e) ∧
    ∀ bufs (data out : List UInt8) (codec : ByteCodec δ) depth, data.length = c →
      decodeWithProtection showRatio decoders ⟨⟨config⟩⟩ bufs data codec depth =
        some (.ok out) →
      out.length ≤ config.maxDecompressedSize ∧
      (data ≠ [] → ∀ q : ℚ,
        value config.maxRatio = some ((q : WithTop ℚ) : WithBot (WithTop ℚ)) →
        (2 ^ 53 - 3) * (out.length : ℚ) ≤ 2 ^ 53 * (q * data.length)) := by
  refine ⟨fun ns got hgot => delivered_bounded showRatio hc innerRead inner ns hgot, ?_, ?_⟩
  · rintro p n ns rfl hfails
    exact hfails.reads showRatio hc ns
  · rintro bufs data out codec depth rfl h
    exact decoded_bounded showRatio decoders hc h

/-- Stored blocks: decoders that deliver the compressed bytes themselves. -/
def storedDecoders : Decoders Unit (List UInt8) := ⟨ReadFn.cursor, id, id, fun bytes _ => bytes,
  fun bytes _ => .ok bytes⟩

/-- Eight bytes are cut off at four: the second of the reads fails, and the third one. -/
theorem decompression_bounded_cut_off :
    let config : CompressionBombConfig := { maxDecompressedSize := 4, checkIntervalBytes := 4 }
    let read := CompressionBombProtector.read (fun _ => "") ReadFn.cursor
    let p : CompressionBombProtector (List UInt8) := .new (List.replicate 8 7) config 3
    ReadFn.delivered (ReadFn.reads read [3, 3, 3] p).1 ≤ 4 + 4 ∧
      (∀ r ∈ (ReadFn.reads read [3] (read (read p 3).2 3).2).1, ∃ e, r = .error e) ∧
      [(1 : UInt8), 2, 3].length ≤ 4 := by
  intro config read p
  have hbounded := decompression_bounded (fun _ => "") storedDecoders ReadFn.cursor
    (List.replicate 8 7) config 3 (by decide)
  refine ⟨(hbounded.1 [3, 3, 3] _ rfl).1, ?_, ?_⟩
  · exact hbounded.2.1 (read p 3).2 3 [3] rfl ⟨⟨_, rfl⟩, _, rfl⟩
  · refine (hbounded.2.2 [2, 2, 2] [1, 2, 3] [1, 2, 3] (ByteCodec.gzip) none rfl ?_).1
    decide +kernel

/-- A ratio limit of 2.3 lets 23 bytes out of 10 pass: the double is below 23/10, and so is the
rounded ratio. -/
theorem rounded_ratio_passes :
    let config : CompressionBombConfig :=
      { maxRatio := Float.ofBits 0x4002666666666666, checkIntervalBytes := 0 }
    ∃ q : ℚ, value config.maxRatio = some ((q : WithTop ℚ) : WithBot (WithTop ℚ)) ∧
      q * 10 + config.checkIntervalBytes < ReadFn.delivered (ReadFn.reads
        (CompressionBombProtector.read (fun _ => "") ReadFn.cursor) [23]
        (.new (List.replicate 23 0) config 10)).1 := by
  intro config
  have hdelivered : ReadFn.delivered (ReadFn.reads
      (CompressionBombProtector.read (fun _ => "") ReadFn.cursor) [23]
      (.new (List.replicate 23 0) config 10)).1 = 23 := by decide +kernel
  rw [hdelivered]
  have hunpack : (Float.ofBits 0x4002666666666666).toModel.unpack =
      .finite .positive 5179139571476070 (-51) (by decide) := rfl
  refine ⟨(5179139571476070 : ℕ) * 2 ^ (-51 : ℤ), ?_, ?_⟩
  · change FloatOrder.exact (Float.ofBits 0x4002666666666666).toModel.unpack = _
    rw [hunpack]
    exact FloatOrder.exact_finite _
  · change ((5179139571476070 : ℕ) * 2 ^ (-51 : ℤ) : ℚ) * 10 + (0 : ℕ) < (23 : ℕ)
    norm_num

end Bounds

end SecureCompressor

end PJS
