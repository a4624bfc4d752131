import PJS.Lib.ByteReader
import PJS.Lib.FloatRound

/-! Protection against compression bombs. A protected reader counts what the inner reader delivers
and checks the limits once the bytes since the last check reach an interval; the counter is reset
by a check that passes. The compression ratio is compared as a rounded `f64` quotient. -/
namespace PJS

open FloatOrder (ratio value)

inductive CompressionBombError where
  | ratioExceeded (ratio maxRatio : Float)
  | sizeExceeded (size maxSize : ℕ)
  | depthExceeded (depth maxDepth : ℕ)

/-- `showRatio` formats a float with two decimals, as `{:.2}` does. -/
def CompressionBombError.toString (showRatio : Float → String) : CompressionBombError → String
  | .ratioExceeded ratio maxRatio =>
    s!"Compression ratio exceeded: {showRatio ratio}x > {showRatio maxRatio}x"
  | .sizeExceeded size maxSize => s!"Decompressed size exceeded: {size} bytes > {maxSize} bytes"
  | .depthExceeded depth maxDepth => s!"Compression depth exceeded: {depth} > {maxDepth}"

/-- The variants of the crate's error that the protection raises. -/
inductive SecureError where
  | securityError (message : String)
  | compressionError (message : String)
deriving DecidableEq

def SecureError.toString : SecureError → String
  | .securityError message => s!"Security error: {message}"
  | .compressionError message => s!"Compression error: {message}"

structure CompressionBombConfig where
  maxRatio : Float := 300.0
  maxDecompressedSize : ℕ := 100 * 1024 * 1024
  maxCompressedSize : ℕ := 100 * 1024 * 1024
  maxCompressionDepth : ℕ := 3
  checkIntervalBytes : ℕ := 64 * 1024

/-- The reader around a reader with states `ρ`. -/
structure CompressionBombProtector (ρ : Type*) where
  inner : ρ
  config : CompressionBombConfig
  compressedSize : ℕ
  decompressedSize : ℕ
  bytesSinceCheck : ℕ
  compressionDepth : ℕ

variable {ρ : Type*} (showRatio : Float → String)

/-- The size check, then the ratio check if there is a ratio. -/
def CompressionBombConfig.check (config : CompressionBombConfig) (compressedSize size : ℕ)
    (hasRatio : Bool) : Except SecureError Unit :=
  if config.maxDecompressedSize < size then
    .error (.securityError
      ((CompressionBombError.sizeExceeded size config.maxDecompressedSize).toString showRatio))
  else if hasRatio ∧ config.maxRatio < ratio size compressedSize then
    .error (.securityError
      ((CompressionBombError.ratioExceeded (ratio size compressedSize) config.maxRatio).toString
        showRatio))
  else .ok ()

namespace CompressionBombProtector

def new (inner : ρ) (config : CompressionBombConfig) (compressedSize : ℕ) :
    CompressionBombProtector ρ :=
  ⟨inner, config, compressedSize, 0, 0, 0⟩

def withDepth (inner : ρ) (config : CompressionBombConfig) (compressedSize depth : ℕ) :
    Except SecureError (CompressionBombProtector ρ) :=
  if config.maxCompressionDepth < depth then
    .error (.securityError
      ((CompressionBombError.depthExceeded depth config.maxCompressionDepth).toString showRatio))
  else .ok ⟨inner, config, compressedSize, 0, 0, depth⟩

def checkLimits (p : CompressionBombProtector ρ) : Except SecureError Unit :=
  p.config.check showRatio p.compressedSize p.decompressedSize
    (0 < p.compressedSize && 0 < p.decompressedSize)

/-- The bytes of a successful inner read are counted. -/
def advance (p : CompressionBombProtector ρ) (inner : ρ) (bytesRead : ℕ) :
    CompressionBombProtector ρ :=
  { p with
    inner
    decompressedSize := p.decompressedSize + bytesRead
    bytesSinceCheck := p.bytesSinceCheck + bytesRead }

def read (innerRead : ReadFn ρ) : ReadFn (CompressionBombProtector ρ) := fun p n =>
  match innerRead p.inner n with
  | (.error e, inner) => (.error e, { p with inner })
  | (.ok bytes, inner) =>
    let p := p.advance inner bytes.length
    if p.config.checkIntervalBytes ≤ p.bytesSinceCheck then
      match p.checkLimits showRatio with
      | .error e => (.error ⟨.invalidData, e.toString⟩, p)
      | .ok () => (.ok bytes, { p with bytesSinceCheck := 0 })
    else (.ok bytes, p)

end CompressionBombProtector

/-- The configuration of a detector. -/
structure CompressionBombDetector where
  config : CompressionBombConfig

namespace CompressionBombDetector

def validatePreDecompression (detector : CompressionBombDetector) (compressedSize : ℕ) :
    Except SecureError Unit :=
  if detector.config.maxCompressedSize < compressedSize then
    .error (.securityError (s!"Compressed data size {compressedSize} exceeds maximum allowed " ++
      s!"compressed size {detector.config.maxCompressedSize}"))
  else .ok ()

def protectReader (detector : CompressionBombDetector) (reader : ρ) (compressedSize : ℕ) :
    CompressionBombProtector ρ :=
  .new reader detector.config compressedSize

def protectNestedReader (detector : CompressionBombDetector) (reader : ρ)
    (compressedSize depth : ℕ) : Except SecureError (CompressionBombProtector ρ) :=
  CompressionBombProtector.withDepth showRatio reader detector.config compressedSize depth

/-- Unlike `check_limits`, an empty result has a ratio too. -/
def validateResult (detector : CompressionBombDetector) (compressedSize decompressedSize : ℕ) :
    Except SecureError Unit :=
  detector.config.check showRatio compressedSize decompressedSize (0 < compressedSize)

end CompressionBombDetector

section Limits
variable {config : CompressionBombConfig} {c d d' : ℕ}

/-- The counts that a check lets pass. -/
def CompressionBombConfig.Passes (config : CompressionBombConfig) (c d : ℕ) : Prop :=
  d ≤ config.maxDecompressedSize ∧ (0 < c → 0 < d → ¬ config.maxRatio < ratio d c)

theorem CompressionBombConfig.check_eq_ok_iff {hasRatio : Bool} :
    config.check showRatio c d hasRatio = .ok () ↔
      d ≤ config.maxDecompressedSize ∧ (hasRatio → ¬ config.maxRatio < ratio d c) := by
  unfold CompressionBombConfig.check
  split_ifs with hsize hratio
  · simp only [false_iff, not_and]
    intro hle
    omega
  · simp only [false_iff, not_and, not_forall, not_not]
    exact fun _ => ⟨hratio.1, hratio.2⟩
  · exact iff_of_true rfl ⟨not_lt.mp hsize, fun h hlt => hratio ⟨h, hlt⟩⟩

theorem CompressionBombProtector.checkLimits_eq_ok_iff {p : CompressionBombProtector ρ} :
    p.checkLimits showRatio = .ok () ↔ p.config.Passes p.compressedSize p.decompressedSize := by
  unfold CompressionBombProtector.checkLimits CompressionBombConfig.Passes
  rw [CompressionBombConfig.check_eq_ok_iff]
  simp

theorem CompressionBombDetector.validateResult_eq_ok_iff {detector : CompressionBombDetector} :
    detector.validateResult showRatio c d = .ok () ↔ d ≤ detector.config.maxDecompressedSize ∧
      (0 < c → ¬ detector.config.maxRatio < ratio d c) := by
  unfold CompressionBombDetector.validateResult
  rw [CompressionBombConfig.check_eq_ok_iff, decide_eq_true_iff]

theorem CompressionBombConfig.passes_zero : config.Passes c 0 :=
  ⟨Nat.zero_le _, fun _ h => absurd h (lt_irrefl 0)⟩

/-- A count that passes lets every smaller one pass, as the rounded ratio is monotone. -/
theorem CompressionBombConfig.Passes.of_le (hc : c < 2 ^ 64) (hle : d ≤ d')
    (h : config.Passes c d') : config.Passes c d := by
  refine ⟨hle.trans h.1, fun hpos hd hlt => ?_⟩
  have hlt' := FloatOrder.lt_ratio_mono hpos.ne' hc hd.ne' hle hlt
  exact h.2 hpos (by omega) hlt'

/-- The bound on a count that passes: the ratio of its size is known up to rounding. -/
theorem CompressionBombConfig.Passes.le {q : ℚ} (h : config.Passes c d) (hpos : 0 < c)
    (hc : c < 2 ^ 64)
    (hq : value config.maxRatio = some ((q : WithTop ℚ) : WithBot (WithTop ℚ))) :
    (2 ^ 53 - 3) * (d : ℚ) ≤ 2 ^ 53 * (max q 0 * c) := by
  rcases Nat.eq_zero_or_pos d with rfl | hd
  · rw [Nat.cast_zero, mul_zero]
    positivity
  · have hle := FloatOrder.le_of_not_lt_ratio hpos.ne' hc hq (h.2 hpos hd)
    have hmax : q * (c : ℚ) ≤ max q 0 * c :=
      mul_le_mul_of_nonneg_right (le_max_left q 0) (Nat.cast_nonneg c)
    linarith

end Limits

namespace CompressionBombProtector
variable {innerRead : ReadFn ρ} {p : CompressionBombProtector ρ} {n : ℕ}

/-- What a read does: the inner read fails, or its bytes are counted, and checked once they reach
the interval. -/
theorem read_cases (innerRead : ReadFn ρ) (p : CompressionBombProtector ρ) (n : ℕ) :
    (∃ e inner, innerRead p.inner n = (.error e, inner) ∧
      read showRatio innerRead p n = (.error e, { p with inner })) ∨
    ∃ bytes inner, innerRead p.inner n = (.ok bytes, inner) ∧
      ((p.bytesSinceCheck + bytes.length < p.config.checkIntervalBytes ∧
          read showRatio innerRead p n = (.ok bytes, p.advance inner bytes.length)) ∨
        (p.config.Passes p.compressedSize (p.decompressedSize + bytes.length) ∧
          read showRatio innerRead p n =
            (.ok bytes, { p.advance inner bytes.length with bytesSinceCheck := 0 })) ∨
        (p.config.checkIntervalBytes ≤ p.bytesSinceCheck + bytes.length ∧
          ¬ p.config.Passes p.compressedSize (p.decompressedSize + bytes.length) ∧
          ∃ e, read showRatio innerRead p n = (.error e, p.advance inner bytes.length))) := by
  unfold read
  rcases innerRead p.inner n with ⟨e | bytes, inner⟩
  · exact Or.inl ⟨e, inner, rfl, rfl⟩
  · refine Or.inr ⟨bytes, inner, rfl, ?_⟩
    have hiff := @checkLimits_eq_ok_iff ρ showRatio (p.advance inner bytes.length)
    simp only
    split_ifs with hinterval
    · rcases hcheck : (p.advance inner bytes.length).checkLimits showRatio with e | _
      · rw [hcheck] at hiff
        have hfails : ¬ p.config.Passes p.compressedSize (p.decompressedSize + bytes.length) :=
          fun hpass => nomatch hiff.mpr hpass
        exact Or.inr (Or.inr ⟨hinterval, hfails, _, rfl⟩)
      · exact Or.inr (Or.inl ⟨hiff.mp hcheck, rfl⟩)
    · exact Or.inl ⟨not_le.mp hinterval, rfl⟩

/-- A check has failed: the counter was not reset. -/
def Tripped (p : CompressionBombProtector ρ) : Prop :=
  p.config.checkIntervalBytes ≤ p.bytesSinceCheck ∧
    ¬ p.config.Passes p.compressedSize p.decompressedSize

/-- Reads change neither the configuration nor the compressed size. -/
theorem read_fixed (innerRead : ReadFn ρ) (p : CompressionBombProtector ρ) (n : ℕ) :
    (read showRatio innerRead p n).2.config = p.config ∧
      (read showRatio innerRead p n).2.compressedSize = p.compressedSize := by
  rcases read_cases showRatio innerRead p n with ⟨e, inner, -, h⟩ |
    ⟨bytes, inner, -, ⟨-, h⟩ | ⟨-, h⟩ | ⟨-, -, e, h⟩⟩ <;> rw [h] <;> exact ⟨rfl, rfl⟩

/-- Once a check has failed every read fails: there are only more bytes than then. -/
theorem Tripped.read (hc : p.compressedSize < 2 ^ 64) (h : p.Tripped) (innerRead : ReadFn ρ)
    (n : ℕ) :
    (∃ e, (read showRatio innerRead p n).1 = .error e) ∧
      (CompressionBombProtector.read showRatio innerRead p n).2.Tripped := by
  obtain ⟨hinterval, hfails⟩ := h
  rcases read_cases showRatio innerRead p n with ⟨e, inner, -, hr⟩ |
    ⟨bytes, inner, -, ⟨hlt, -⟩ | ⟨hpass, -⟩ | ⟨hle, hfails', e, hr⟩⟩
  · rw [hr]
    exact ⟨⟨e, rfl⟩, hinterval, hfails⟩
  · omega
  · exact absurd (hpass.of_le hc (Nat.le_add_right _ _)) hfails
  · rw [hr]
    exact ⟨⟨e, rfl⟩, hle, hfails'⟩

/-- A read fails on a limit: the inner reader has delivered, the protected one fails. -/
def FailsOnLimit (innerRead : ReadFn ρ) (p : CompressionBombProtector ρ) (n : ℕ) : Prop :=
  (∃ bytes, (innerRead p.inner n).1 = .ok bytes) ∧ ∃ e, (read showRatio innerRead p n).1 = .error e

theorem FailsOnLimit.tripped (h : FailsOnLimit showRatio innerRead p n) :
    (read showRatio innerRead p n).2.Tripped := by
  obtain ⟨⟨bytes, hbytes⟩, e, he⟩ := h
  rcases read_cases showRatio innerRead p n with ⟨e', inner, hinner, -⟩ |
    ⟨bytes', inner, -, ⟨-, hr⟩ | ⟨-, hr⟩ | ⟨hle, hfails, e', hr⟩⟩
  · rw [hinner] at hbytes
    cases hbytes
  · rw [hr] at he
    cases he
  · rw [hr] at he
    cases he
  · rw [hr]
    exact ⟨hle, hfails⟩

/-- After one read fails on a limit every later one fails. -/
theorem FailsOnLimit.reads (hc : p.compressedSize < 2 ^ 64)
    (h : FailsOnLimit showRatio innerRead p n) (ns : List ℕ) :
    ∀ r ∈ (ReadFn.reads (read showRatio innerRead) ns (read showRatio innerRead p n).2).1,
      ∃ e, r = .error e := by
  have hstuck := (read_fixed showRatio innerRead p n).2
  refine @ReadFn.reads_error _ _ (fun q => q.compressedSize < 2 ^ 64 ∧ q.Tripped) ?_ ns _
    ⟨by rwa [hstuck], h.tripped⟩
  rintro q m ⟨hq, htripped⟩
  obtain ⟨herror, hnext⟩ := htripped.read showRatio hq innerRead m
  exact ⟨herror, by rwa [(read_fixed showRatio innerRead q m).2], hnext⟩

/-- With `got` bytes delivered: they pass up to an interval, and are all that the protector has
counted until a check fails. -/
def Guards (config : CompressionBombConfig) (c got : ℕ) (p : CompressionBombProtector ρ) : Prop :=
  p.config = config ∧ p.compressedSize = c ∧
    ∃ checked, config.Passes c checked ∧ got ≤ checked + config.checkIntervalBytes ∧
      (p.Tripped ∨ got = p.decompressedSize ∧ got = checked + p.bytesSinceCheck)

theorem guards_new (inner : ρ) (config : CompressionBombConfig) (c : ℕ) :
    Guards config c 0 (new inner config c) :=
  ⟨rfl, rfl, 0, CompressionBombConfig.passes_zero, Nat.zero_le _, Or.inr ⟨rfl, rfl⟩⟩

theorem Guards.read {config : CompressionBombConfig} {c got : ℕ} (hc : c < 2 ^ 64)
    (h : Guards config c got p) (n : ℕ) :
    Guards config c (got + ReadFn.count (read showRatio innerRead p n).1)
      (CompressionBombProtector.read showRatio innerRead p n).2 := by
  obtain ⟨rfl, rfl, checked, hpass, hle, hstate⟩ := h
  obtain ⟨hconfig, hsize⟩ := read_fixed showRatio innerRead p n
  refine ⟨hconfig, hsize, ?_⟩
  rcases hstate with htripped | ⟨hgot, hsince⟩
  · -- nothing more is delivered
    obtain ⟨⟨e, he⟩, hnext⟩ := htripped.read showRatio hc innerRead n
    rw [he]
    exact ⟨checked, hpass, hle, Or.inl hnext⟩
  rcases read_cases showRatio innerRead p n with ⟨e, inner, -, hr⟩ |
    ⟨bytes, inner, -, ⟨hlt, hr⟩ | ⟨hpass', hr⟩ | ⟨hinterval, hfails, e, hr⟩⟩ <;> rw [hr]
  · exact ⟨checked, hpass, hle, Or.inr ⟨hgot, hsince⟩⟩
  · -- counted, and the interval is not reached
    refine ⟨checked, hpass, ?_, Or.inr ⟨?_, ?_⟩⟩
    · change got + bytes.length ≤ _
      omega
    · change got + bytes.length = p.decompressedSize + bytes.length
      omega
    · change got + bytes.length = checked + (p.bytesSinceCheck + bytes.length)
      omega
  · -- a check has passed
    refine ⟨p.decompressedSize + bytes.length, hpass', ?_, Or.inr ⟨?_, ?_⟩⟩
    · change got + bytes.length ≤ _
      omega
    · change got + bytes.length = p.decompressedSize + bytes.length
      omega
    · change got + bytes.length = p.decompressedSize + bytes.length + 0
      omega
  · exact ⟨checked, hpass, hle, Or.inl ⟨hinterval, hfails⟩⟩

/-- Whatever the inner reader does and however long the buffers are, the delivered bytes pass up
to an interval. -/
theorem delivered_passes (innerRead : ReadFn ρ) {config : CompressionBombConfig} {c : ℕ}
    (hc : c < 2 ^ 64) (inner : ρ) (ns : List ℕ) : ∃ checked, config.Passes c checked ∧
      ReadFn.delivered (ReadFn.reads (read showRatio innerRead) ns (new inner config c)).1 ≤
        checked + config.checkIntervalBytes := by
  have hrun := @ReadFn.reads_invariant _ (read showRatio innerRead) (Guards config c)
    (fun got s n h => h.read showRatio hc n) ns _ _ (guards_new inner config c)
  obtain ⟨-, -, checked, hpass, hle, -⟩ := hrun
  rw [Nat.zero_add] at hle
  exact ⟨checked, hpass, hle⟩

end CompressionBombProtector

end PJS
