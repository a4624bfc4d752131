import PJS.Domain.PathText
import PJS.Stream.JsonValue

/-! What a compressor is told and what it hands on. -/
namespace PJS

/-- The configuration that the coders read. -/
structure CompressionConfig where
  minStringLength : ℕ
  minFrequencyCount : UInt32
  minNumericSequenceSize : ℕ

def CompressionConfig.default : CompressionConfig := ⟨3, 1, 3⟩

/-- Compression strategy. -/
inductive CompressionStrategy where
  | none
  | dictionary (dictionary : AssocMap String UInt16)
  | delta (baseValues : AssocMap String Float)
  | runLength
  | hybrid (stringDict : AssocMap String UInt16) (numericDeltas : AssocMap String Float)

/-- Compressed data with the metadata that travels beside it. -/
structure CompressedData where
  strategy : CompressionStrategy
  compressedSize : ℕ
  data : JsonValue
  compressionMetadata : AssocMap String JsonValue

namespace JsonValue

/-- `Value::as_u64`. -/
def asU64 : JsonValue → Option ℕ
  | .number (.posInt n) => some n.toNat
  | _ => none

/-- `Value::as_f64`. -/
def asF64 : JsonValue → Option Float
  | .number (.posInt n) => some n.toFloat
  | .number (.negInt i _) => some i.toFloat
  | .number (.float f _) => some f
  | _ => none

/-- `Value::from(f64)`: a number, or null if it is not finite. -/
def ofF64 (f : Float) : JsonValue :=
  if h : f.isFinite = true then .number (.float f h) else .null

end JsonValue

/-- A step and the rest both succeed. -/
theorem bind_eq_ok_iff {α β : Type} {x : DomainResult α} {f : α → DomainResult β} {b : β} :
    x >>= f = .ok b ↔ ∃ a, x = .ok a ∧ f a = .ok b := by
  cases x <;> simp [bind, Except.bind]

end PJS
