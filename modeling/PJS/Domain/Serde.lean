import PJS.Domain.Frame
import PJS.Lib.Nesting

/-! Reading and writing values and frames as JSON. A tree of literals holds what a JSON text
denotes; the texts of numbers and strings are left to the text layer. That layer's own limit of 128
containers lies above what the values and frames here may nest, but not above every schema: schemas
are read from trees, which have no such limit. -/
namespace PJS

/-- A scalar as a JSON text denotes it. -/
inductive SerdeScalar where
  | null
  | bool (b : Bool)
  | posInt (n : UInt64)
  | negInt (i : Int64)
  | float (f : Float)
  | string (s : String)
deriving DecidableEq

abbrev SerdeValue := Doc String SerdeScalar

inductive DeError where
  | custom (msg : String)
  | invalidType (expected : String)
  | invalidValue (expected : String)
  | invalidLength (length : ℕ)
  | unknownVariant (name : String)
  | missingField (name : String)
  | duplicateField (name : String)
  | trailingCharacters
deriving DecidableEq

namespace JsonData

section Serialize

/-- A number that JSON cannot express is written as null. -/
def serializeScalar : DataScalar → SerdeScalar
  | .null => .null
  | .bool b => .bool b
  | .integer i => if 0 ≤ i then .posInt i.toUInt64 else .negInt i
  | .float f => if f.isFinite then .float f else .null
  | .string s => .string s

def serialize (data : JsonData) : SerdeValue := data.mapScalar serializeScalar

end Serialize

section Deserialize

/-- Maximum container nesting depth accepted when deserializing. -/
def maxDeserializeDepth : ℕ := 64

def visitScalar : SerdeScalar → Except DeError DataScalar
  | .null => .ok .null
  | .bool b => .ok (.bool b)
  | .posInt v =>
    if v.toNat ≤ 9223372036854775807 then .ok (.integer v.toInt64) else .ok (.float v.toFloat)
  | .negInt v => .ok (.integer v)
  | .float v =>
    if v.isNaN || v.isInf then
      .error (.custom "JSON does not support NaN or infinite float values (RFC 8259 §6)")
    else .ok (.float v)
  | .string v => .ok (.string v)

/-- Descends one container level, or rejects once the depth bound is hit. -/
def enter (depth : ℕ) : Except DeError ℕ :=
  if depth ≥ maxDeserializeDepth then
    .error (.custom s!"JSON nesting depth exceeds maximum of {maxDeserializeDepth}")
  else .ok (depth + 1)

mutual

/-- The visitor at a depth. -/
def deserializeAt : SerdeValue → ℕ → Except DeError JsonData
  | .scalar s, _ => do return .scalar (← visitScalar s)
  | .array xs, depth => do return .array (← visitSeq xs (← enter depth))
  | .object m, depth => do return .object (← visitMap [] m (← enter depth))

def visitSeq : List SerdeValue → ℕ → Except DeError (List JsonData)
  | [], _ => .ok []
  | x :: xs, depth => do
    let elem ← deserializeAt x depth
    let vec ← visitSeq xs depth
    return elem :: vec

/-- The loop over a map's entries, inserting into `obj`. -/
def visitMap (obj : List (String × JsonData)) :
    List (String × SerdeValue) → ℕ → Except DeError (List (String × JsonData))
  | [], _ => .ok obj
  | (key, v) :: rest, depth => do
    let value ← deserializeAt v depth
    visitMap (Assoc.insert key value obj) rest depth

end

def deserialize (value : SerdeValue) : Except DeError JsonData := deserializeAt value 0

end Deserialize

section RoundTrip

/-- The number can be written as JSON. -/
def Writable : DataScalar → Prop
  | .float f => f.isFinite = true
  | _ => True

theorem isNaN_or_isInf_eq_false {f : Float} (h : f.isFinite = true) :
    (f.isNaN || f.isInf) = false := by
  unfold Float.isFinite Float.Model.isFinite at h
  unfold Float.isNaN Float.isInf Float.Model.isNaN Float.Model.isInf
  cases hf : f.toModel.unpack <;> rw [hf] at h <;> first | rfl | cases h

theorem visitScalar_serializeScalar {s : DataScalar} (h : Writable s) :
    visitScalar (serializeScalar s) = .ok s := by
  cases s with
  | integer i =>
    rw [serializeScalar]
    split_ifs with hi
    · have hle : i.toUInt64.toNat ≤ 9223372036854775807 := by
        rw [Int64.toNat_toUInt64_of_le hi]
        have hlt := i.toInt_lt
        unfold Int64.toNatClampNeg
        omega
      simp only [visitScalar, hle, if_true, Int64.toInt64_toUInt64]
    · rfl
  | float f =>
    change f.isFinite = true at h
    simp only [serializeScalar, h, if_true, visitScalar, isNaN_or_isInf_eq_false h,
      Bool.false_eq_true, if_false]
  | _ => rfl

theorem enter_eq_ok {depth n : ℕ} (h : depth + (n + 1) = maxDeserializeDepth) :
    enter depth = .ok (depth + 1) := by
  unfold enter
  rw [if_neg (by omega)]

theorem enter_eq_ok_iff {depth d : ℕ} :
    enter depth = .ok d ↔ d = depth + 1 ∧ depth < maxDeserializeDepth := by
  unfold enter
  split_ifs with h
  · exact ⟨nofun, fun hd => absurd hd.2 (by omega)⟩
  · rw [Except.ok.injEq]
    omega

section MapScalar

variable {σ : Type} {f : σ → SerdeScalar} {g : σ → DataScalar}

theorem visitSeq_mapScalar {xs : List (Doc String σ)} {depth : ℕ}
    (h : ∀ x ∈ xs, deserializeAt (x.mapScalar f) depth = .ok (x.mapScalar g)) :
    visitSeq (xs.map (Doc.mapScalar f)) depth = .ok (xs.map (Doc.mapScalar g)) := by
  induction xs with
  | nil => rfl
  | cons x xs ih =>
    rw [List.map_cons, visitSeq, h x (by simp), ih fun y hy => h y (by simp [hy])]
    rfl

theorem visitMap_mapScalar {m : List (String × Doc String σ)} {obj : List (String × JsonData)}
    {depth : ℕ} (h : ∀ k v, (k, v) ∈ m → deserializeAt (v.mapScalar f) depth = .ok (v.mapScalar g)) :
    visitMap obj (m.map fun e => (e.1, e.2.mapScalar f)) depth =
      .ok ((m.map fun e => (e.1, e.2.mapScalar g)).foldl
        (fun acc e => Assoc.insert e.1 e.2 acc) obj) := by
  induction m generalizing obj with
  | nil => rfl
  | cons e m ih =>
    rw [List.map_cons, visitMap, h e.1 e.2 (by simp)]
    exact ih fun k v hkv => h k v (by simp [hkv])

/-- Where every scalar reads as it should, what stays within the depth that is left does. -/
theorem deserializeAt_mapScalar {P : σ → Prop} (hscalar : ∀ s, P s → visitScalar (f s) = .ok (g s))
    {d : Doc String σ} (hkeys : d.Keyed (· ≠ ·)) (hw : d.Over P) {depth n : ℕ}
    (hdepth : depth + n = maxDeserializeDepth) (hn : d.Nests n) :
    deserializeAt (d.mapScalar f) depth = .ok (d.mapScalar g) := by
  induction hn generalizing depth with
  | scalar n s =>
    cases hw with
    | scalar hs =>
      change (do return Doc.scalar (← visitScalar (f s))) = _
      rw [hscalar s hs]
      rfl
  | @array n xs _ ih =>
    cases hkeys with
    | array hkeys =>
      cases hw with
      | array hw =>
        have hxs := visitSeq_mapScalar fun x hx => ih x hx (hkeys x hx) (hw x hx)
          (show depth + 1 + n = maxDeserializeDepth by omega)
        rw [Doc.mapScalar_array, Doc.mapScalar_array, deserializeAt, enter_eq_ok hdepth]
        change (visitSeq (xs.map (Doc.mapScalar f)) (depth + 1) >>= fun ys =>
          pure (Doc.array ys)) = _
        rw [hxs]
        rfl
  | @object n m _ ih =>
    cases hkeys with
    | object hk hkeys =>
      cases hw with
      | object hw =>
        have hm := @visitMap_mapScalar σ f g m [] (depth + 1) fun k v hkv =>
          ih k v hkv (hkeys k v hkv) (hw k v hkv) (by omega)
        have hnodup : (([] ++ m.map fun e : String × Doc String σ =>
            (e.1, e.2.mapScalar g)).map Prod.fst).Nodup := by
          rw [List.nil_append, List.map_map]
          exact hk
        rw [Assoc.foldl_insert_eq hnodup, List.nil_append] at hm
        rw [Doc.mapScalar_object, Doc.mapScalar_object, deserializeAt, enter_eq_ok hdepth]
        change (visitMap [] (m.map fun e => (e.1, e.2.mapScalar f)) (depth + 1) >>=
          fun obj => pure (Doc.object obj)) = _
        rw [hm]
        rfl

end MapScalar

theorem bind_eq_ok {ε α β : Type} {x : Except ε α} {f : α → Except ε β} {b : β}
    (h : x >>= f = .ok b) : ∃ a, x = .ok a ∧ f a = .ok b := by
  cases x with
  | error e => cases h
  | ok a => exact ⟨a, rfl, h⟩

theorem mem_of_visitSeq {xs : List SerdeValue} {ys : List JsonData} {depth : ℕ}
    (h : visitSeq xs depth = .ok ys) {y : JsonData} (hy : y ∈ ys) :
    ∃ x ∈ xs, deserializeAt x depth = .ok y := by
  induction xs generalizing ys with
  | nil =>
    cases h
    simp at hy
  | cons x xs ih =>
    obtain ⟨z, hz, h⟩ := bind_eq_ok h
    obtain ⟨zs, hzs, h⟩ := bind_eq_ok h
    cases h
    rcases List.mem_cons.mp hy with rfl | hy
    · exact ⟨x, by simp, hz⟩
    · obtain ⟨w, hw, hwy⟩ := ih hzs hy
      exact ⟨w, by simp [hw], hwy⟩

/-- Every element was read. -/
theorem exists_of_visitSeq {xs : List SerdeValue} {ys : List JsonData} {depth : ℕ}
    (h : visitSeq xs depth = .ok ys) {x : SerdeValue} (hx : x ∈ xs) :
    ∃ y, deserializeAt x depth = .ok y := by
  induction xs generalizing ys with
  | nil => simp at hx
  | cons z xs ih =>
    obtain ⟨y, hy, h⟩ := bind_eq_ok h
    obtain ⟨zs, hzs, -⟩ := bind_eq_ok h
    rcases List.mem_cons.mp hx with rfl | hx
    · exact ⟨y, hy⟩
    · exact ih hzs hx

/-- Every value was read, also those of keys that occur again. -/
theorem exists_of_visitMap {m : List (String × SerdeValue)} {obj m' : List (String × JsonData)}
    {depth : ℕ} (h : visitMap obj m depth = .ok m') {k : String} {v : SerdeValue}
    (hkv : (k, v) ∈ m) : ∃ y, deserializeAt v depth = .ok y := by
  induction m generalizing obj with
  | nil => simp at hkv
  | cons e m ih =>
    obtain ⟨y, hy, h⟩ := bind_eq_ok h
    rcases List.mem_cons.mp hkv with rfl | hkv
    · exact ⟨y, hy⟩
    · exact ih h hkv

theorem mem_of_visitMap {m : List (String × SerdeValue)} {obj m' : List (String × JsonData)} {depth : ℕ}
    (h : visitMap obj m depth = .ok m') {k : String} {v : JsonData} (hkv : (k, v) ∈ m') :
    (k, v) ∈ obj ∨ ∃ j x, (j, x) ∈ m ∧ deserializeAt x depth = .ok v := by
  induction m generalizing obj with
  | nil =>
    cases h
    exact Or.inl hkv
  | cons e m ih =>
    obtain ⟨w, hw, h⟩ := bind_eq_ok h
    rcases ih h with hobj | ⟨j, x, hx, hxv⟩
    · rcases Assoc.mem_insert hobj with heq | hobj
      · cases heq
        exact Or.inr ⟨e.1, e.2, by simp, hw⟩
      · exact Or.inl hobj
    · exact Or.inr ⟨j, x, by simp [hx], hxv⟩

/-- What stays within the depth that is left reads back. -/
theorem deserializeAt_serialize {d : JsonData} (hkeys : d.Distinct) (hw : d.Over Writable)
    {depth n : ℕ} (hdepth : depth + n = maxDeserializeDepth) (hn : d.Nests n) :
    deserializeAt (serialize d) depth = .ok d := by
  have hread := @deserializeAt_mapScalar _ serializeScalar id Writable
    (fun _ => visitScalar_serializeScalar) d hkeys hw depth n hdepth hn
  rwa [Doc.mapScalar_id] at hread

/-- What the visitor accepts stays within the depth that is left. -/
theorem nests_of_deserializeAt_eq_ok {w : SerdeValue} {d : JsonData} {depth n : ℕ}
    (hdepth : depth + n = maxDeserializeDepth) (h : deserializeAt w depth = .ok d) :
    w.Nests n := by
  induction w using Doc.induction generalizing d depth n with
  | scalar s => exact .scalar n s
  | array xs ih =>
    obtain ⟨next, hnext, h⟩ := bind_eq_ok h
    obtain ⟨ys, hys, -⟩ := bind_eq_ok h
    obtain ⟨rfl, hlt⟩ := enter_eq_ok_iff.mp hnext
    obtain ⟨n, rfl⟩ : ∃ k, n = k + 1 := ⟨n - 1, by omega⟩
    refine .array fun x hx => ?_
    obtain ⟨y, hy⟩ := exists_of_visitSeq hys hx
    exact ih x hx (by omega) hy
  | object m ih =>
    obtain ⟨next, hnext, h⟩ := bind_eq_ok h
    obtain ⟨m', hm', -⟩ := bind_eq_ok h
    obtain ⟨rfl, hlt⟩ := enter_eq_ok_iff.mp hnext
    obtain ⟨n, rfl⟩ : ∃ k, n = k + 1 := ⟨n - 1, by omega⟩
    refine .object fun k v hkv => ?_
    obtain ⟨y, hy⟩ := exists_of_visitMap hm' hkv
    exact ih k v hkv (by omega) hy

/-- The visitor accepts nothing beyond the depth that is left. -/
theorem nests_of_deserializeAt {w : SerdeValue} {d : JsonData} {depth n : ℕ}
    (hdepth : depth + n = maxDeserializeDepth) (h : deserializeAt w depth = .ok d) :
    d.Nests n := by
  induction w using Doc.induction generalizing d depth n with
  | scalar s =>
    obtain ⟨t, -, h⟩ := bind_eq_ok h
    cases h
    exact .scalar n t
  | array xs ih =>
    obtain ⟨next, hnext, h⟩ := bind_eq_ok h
    obtain ⟨ys, hys, h⟩ := bind_eq_ok h
    cases h
    obtain ⟨rfl, hlt⟩ := enter_eq_ok_iff.mp hnext
    obtain ⟨n, rfl⟩ : ∃ k, n = k + 1 := ⟨n - 1, by omega⟩
    refine .array fun y hy => ?_
    obtain ⟨x, hx, hxy⟩ := mem_of_visitSeq hys hy
    exact ih x hx (by omega) hxy
  | object m ih =>
    obtain ⟨next, hnext, h⟩ := bind_eq_ok h
    obtain ⟨m', hm', h⟩ := bind_eq_ok h
    cases h
    obtain ⟨rfl, hlt⟩ := enter_eq_ok_iff.mp hnext
    obtain ⟨n, rfl⟩ : ∃ k, n = k + 1 := ⟨n - 1, by omega⟩
    refine .object fun k v hkv => ?_
    rcases mem_of_visitMap hm' hkv with hnil | ⟨j, x, hx, hxv⟩
    · simp at hnil
    · exact ih j x hx (by omega) hxv

/-- A document reads back as it was written iff it nests no deeper than the limit. -/
theorem deserialize_serialize_iff {d : JsonData} (hkeys : d.Distinct) (hw : d.Over Writable) :
    deserialize (serialize d) = .ok d ↔ d.Nests maxDeserializeDepth :=
  ⟨nests_of_deserializeAt (Nat.zero_add _), deserializeAt_serialize hkeys hw (Nat.zero_add _)⟩

end RoundTrip

end JsonData

end PJS
