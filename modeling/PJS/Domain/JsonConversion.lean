import PJS.Domain.Serde
import PJS.Stream.JsonValue

/-! Two ways from JSON to the values of the domain: reading a text, and converting a
`serde_json::Value`. -/
namespace PJS.JsonData

section Convert

/-- `Number::as_i64`. -/
def asI64 : JsonNumber → Option Int64
  | .posInt n => if n.toNat ≤ 9223372036854775807 then some n.toInt64 else none
  | .negInt i _ => some i
  | .float _ _ => none

/-- `Number::as_f64`. -/
def asF64 : JsonNumber → Option Float
  | .posInt n => some n.toFloat
  | .negInt i _ => some (.ofModel (.ofInt64 i))
  | .float f _ => some f

def convertScalar : JsonScalar → DataScalar
  | .null => .null
  | .bool b => .bool b
  | .number n =>
    match asI64 n with
    | some i => .integer i
    | none =>
      match asF64 n with
      | some f => .float f
      | none => .float 0.0
  | .string s => .string s

/-- `From<serde_json::Value>`. The keys of a map are distinct, so that collecting them keeps every
one. -/
def convert (value : JsonValue) : JsonData := value.mapScalar convertScalar

/-- What the text of a scalar denotes. -/
def textScalar : JsonScalar → SerdeScalar
  | .null => .null
  | .bool b => .bool b
  | .number (.posInt n) => .posInt n
  | .number (.negInt i _) => .negInt i
  | .number (.float f _) => .float f
  | .string s => .string s

def text (value : JsonValue) : SerdeValue := value.mapScalar textScalar

end Convert

section Agreement

theorem visitScalar_textScalar (s : JsonScalar) :
    visitScalar (textScalar s) = .ok (convertScalar s) := by
  rcases s with _ | b | n | s
  · rfl
  · rfl
  · cases n with
    | posInt n =>
      unfold textScalar visitScalar convertScalar asI64 asF64
      by_cases hn : n.toNat ≤ 9223372036854775807
      · simp only [hn, if_true]
      · simp only [hn, if_false]
    | negInt i neg => rfl
    | float f finite =>
      simp only [textScalar, visitScalar, isNaN_or_isInf_eq_false finite, Bool.false_eq_true,
        if_false]
      rfl
  · rfl

theorem over_true {σ : Type} (d : Doc String σ) : d.Over fun _ => True := by
  induction d using Doc.induction with
  | scalar s => exact .scalar trivial
  | array xs ih => exact .array ih
  | object m ih => exact .object ih

/-- A document nested too deep is refused. -/
theorem deserialize_serialize_refused {d : JsonData} (hn : ¬d.Nests maxDeserializeDepth) :
    ∃ e, deserialize (serialize d) = .error e := by
  cases h : deserialize (serialize d) with
  | error e => exact ⟨e, rfl⟩
  | ok d' =>
    have hnests := nests_of_deserializeAt_eq_ok (Nat.zero_add _) h
    exact absurd ((Doc.nests_mapScalar serializeScalar).mp hnests) hn

theorem deserialize_text {w : JsonValue} (hkeys : w.Keyed (· ≠ ·))
    (hn : w.Nests maxDeserializeDepth) : deserialize (text w) = .ok (convert w) :=
  deserializeAt_mapScalar (fun s _ => visitScalar_textScalar s) hkeys (over_true w)
    (Nat.zero_add _) hn

/-- Reading and writing are inverse up to the limit and no further, and reading the text of a value
is converting it. -/
theorem deserialize_agrees :
    (∀ d : JsonData, d.Distinct → d.Over Writable →
      (d.Nests maxDeserializeDepth → deserialize (serialize d) = .ok d) ∧
      (¬d.Nests maxDeserializeDepth → ∃ e, deserialize (serialize d) = .error e)) ∧
    ∀ w : JsonDocument, w.value.Nests maxDeserializeDepth →
      deserialize (text w.value) = .ok (convert w.value) :=
  ⟨fun _ hkeys hw => ⟨(deserialize_serialize_iff hkeys hw).mpr, deserialize_serialize_refused⟩,
    fun w hn => deserialize_text w.ordered.nodup hn⟩

section Examples

/-- A number inside `n` objects, each of them the element of an array. -/
def wrapped : ℕ → JsonData
  | 0 => .float 1.5
  | n + 1 => .array [.object [("x", wrapped n)]]

theorem keyed_wrapped (n : ℕ) : (wrapped n).Distinct := by
  induction n with
  | zero => exact .scalar _
  | succ n ih => exact .array (by simpa using .object (by simp) (by simpa using ih))

theorem over_wrapped (n : ℕ) : (wrapped n).Over Writable := by
  induction n with
  | zero =>
    have hfinite : (1.5 : Float).isFinite = true := by decide +kernel
    exact .scalar hfinite
  | succ n ih => exact .array (by simpa using .object (by simpa using ih))

theorem nests_wrapped_iff {n k : ℕ} : (wrapped n).Nests k ↔ 2 * n ≤ k := by
  induction n generalizing k with
  | zero => exact ⟨fun _ => Nat.zero_le k, fun _ => .scalar k _⟩
  | succ n ih =>
    constructor
    · rintro (_ | ⟨harray⟩)
      obtain _ | _ | ⟨hobject⟩ := harray _ (List.mem_singleton_self _)
      have hle := ih.mp (hobject "x" _ (List.mem_singleton_self _))
      omega
    · intro hle
      obtain ⟨k, rfl⟩ : ∃ k', k = k' + 2 := ⟨k - 2, by omega⟩
      have hn := ih.mpr (show 2 * n ≤ k by omega)
      exact .array (by simpa using .object (by simpa using hn))

/-- The text `{"id":9223372036854775808}`: an integer above the signed ones. -/
def unsignedId : JsonDocument :=
  ⟨.object [("id", JsonValue.number (.posInt 9223372036854775808))],
    .object (by simp) (by simpa using .scalar _)⟩

theorem deserialize_agrees_wrapped :
    deserialize (serialize (wrapped 32)) = .ok (wrapped 32) ∧
      (∃ e, deserialize (serialize (.array [wrapped 32])) = .error e) ∧
      deserialize (text unsignedId.value) = .ok (convert unsignedId.value) ∧
      convert unsignedId.value =
        .object [("id", float (9223372036854775808 : UInt64).toFloat)] := by
  obtain ⟨hdata, hvalue⟩ := deserialize_agrees
  have hkeyed : Distinct (.array [wrapped 32]) := .array (by simpa using keyed_wrapped 32)
  have hover : (Doc.array [wrapped 32]).Over Writable := .array (by simpa using over_wrapped 32)
  have hdeep : ¬(Doc.array [wrapped 32]).Nests maxDeserializeDepth := by
    intro h
    have hle := nests_wrapped_iff.mp (Doc.nests_array_iff.mp h _ (List.mem_singleton_self _))
    omega
  have hshallow : unsignedId.value.Nests maxDeserializeDepth :=
    .object (by simpa [unsignedId] using .scalar _ _)
  exact ⟨(hdata _ (keyed_wrapped 32) (over_wrapped 32)).1 (nests_wrapped_iff.mpr le_rfl),
    (hdata _ hkeyed hover).2 hdeep, hvalue unsignedId hshallow, by decide +kernel⟩

end Examples

end Agreement

end PJS.JsonData
