import PJS.Compression.Strategy

/-! Delta coding of numeric arrays. A coded array starts with an object that holds the base, and
goes on with differences; the decoder adds them up again, as floats. -/
namespace PJS

def maxDeltaArraySize : ℕ := 1000000

section Encoder
variable (showFloat : Float → String) (config : CompressionConfig)
  (baseValues : AssocMap String Float)

/-- Check if array contains a numeric sequence suitable for delta compression. -/
def isNumericSequence (arr : List JsonValue) : Bool :=
  !(arr.length < config.minNumericSequenceSize) && arr.all fun
    | .number _ => true
    | _ => false

/-- The length of the numbers as text. -/
def precision (numbers : List Float) : ℕ := (numbers.map fun n => (showFloat n).utf8ByteSize).sum

/-- The base from analysis, or the first element. -/
def deltaBase (path : String) (numbers : List Float) : Float :=
  (baseValues.get? path).getD (numbers.headD 0)

/-- The differences are shorter than the numbers. -/
def isBeneficial (path : String) (numbers : List Float) : Bool :=
  let base := deltaBase baseValues path numbers
  precision showFloat (numbers.map fun num => num - base) < precision showFloat numbers

/-- Apply delta compression to numeric array. -/
def compressNumericArrayWithDelta (arr : List JsonValue) (path : String) : JsonValue :=
  let numbers := arr.filterMap JsonValue.asF64
  if numbers.isEmpty then .array arr
  else
    let base := deltaBase baseValues path numbers
    if isBeneficial showFloat baseValues path numbers then
      .array (.object [("delta_base", JsonValue.ofF64 base),
          ("delta_type", JsonValue.string "numeric_sequence")] ::
        numbers.map fun num => JsonValue.ofF64 (num - base))
    else .array arr

/-- The path of a field. -/
def fieldPath (path key : String) : String := if path.isEmpty then key else s!"{path}.{key}"

/-- The path of an array element. -/
def itemPath (path : String) (idx : ℕ) : String := s!"{path}[{idx}]"

mutual

/-- Recursively apply delta compression to JSON structure. -/
def applyDeltaRecursive (path : String) : JsonValue → JsonValue
  | .object obj => .object (applyDeltaFields path obj)
  | .array arr =>
    if arr.length > 2 ∧ isNumericSequence config arr then
      compressNumericArrayWithDelta showFloat baseValues arr path
    else .array (applyDeltaItems path 0 arr)
  | .scalar s => .scalar s

def applyDeltaItems (path : String) (idx : ℕ) : List JsonValue → List JsonValue
  | [] => []
  | item :: items =>
    applyDeltaRecursive (itemPath path idx) item :: applyDeltaItems path (idx + 1) items

def applyDeltaFields (path : String) : JsonMap → JsonMap
  | [] => []
  | (key, value) :: fields =>
    (key, applyDeltaRecursive (fieldPath path key) value) :: applyDeltaFields path fields

end

/-- Apply delta compression to numeric sequences in arrays. -/
def applyDeltaCompression (data : JsonValue) : JsonValue :=
  applyDeltaRecursive showFloat config baseValues "" data

end Encoder

section Decoder

/-- An object with the keys that start a coded array. -/
def isDeltaHead : JsonValue → Bool
  | .object obj => (obj.lookup "delta_base").isSome && (obj.lookup "delta_type").isSome
  | _ => false

/-- `Value::get` with a key. -/
def JsonValue.get? (key : String) : JsonValue → Option JsonValue
  | .object obj => obj.lookup key
  | _ => none

/-- Add the base to every difference. -/
def addBase (base : Float) : List JsonValue → DomainResult (List JsonValue)
  | [] => .ok []
  | delta :: deltas =>
    match delta.asF64 with
    | none => .error (.compressionError "Invalid delta value: expected number")
    | some delta => do return JsonValue.ofF64 (base + delta) :: (← addBase base deltas)

/-- Decompress delta-encoded array back to original values. -/
def decompressDeltaArray (arr : List JsonValue) : DomainResult JsonValue :=
  match arr with
  | [] => .ok (.array [])
  | first :: deltas =>
    if arr.length > maxDeltaArraySize then
      .error (.compressionError
        s!"Delta array size {arr.length} exceeds maximum {maxDeltaArraySize}")
    else
      match (first.get? "delta_base").bind JsonValue.asF64 with
      | none => .error (.compressionError "Missing or invalid delta_base in metadata")
      | some base => do return .array (← addBase base deltas)

mutual

/-- Decompress delta-encoded values. -/
def decompressDelta : JsonValue → DomainResult JsonValue
  | .object obj => do return .object (← decompressDeltaFields obj)
  | .array arr =>
    if (arr.head?.map isDeltaHead).getD false then decompressDeltaArray arr
    else do return .array (← decompressDeltaItems arr)
  | .scalar s => .ok (.scalar s)

def decompressDeltaItems : List JsonValue → DomainResult (List JsonValue)
  | [] => .ok []
  | item :: items => do
    let item ← decompressDelta item
    return item :: (← decompressDeltaItems items)

def decompressDeltaFields : JsonMap → DomainResult JsonMap
  | [] => .ok []
  | (key, value) :: fields => do
    let value ← decompressDelta value
    return (key, value) :: (← decompressDeltaFields fields)

end

end Decoder

section RoundTrip

/-- Numbers are integers, and no array starts like a coded one. -/
inductive Integral : JsonValue → Prop
  | scalar {s : JsonScalar} (h : ∀ f finite, s ≠ .number (.float f finite)) : Integral (.scalar s)
  | object {obj : JsonMap} (h : ∀ k v, (k, v) ∈ obj → Integral v) : Integral (.object obj)
  | array {arr : List JsonValue} (hhead : ∀ x ∈ arr.head?, isDeltaHead x = false)
      (h : ∀ x ∈ arr, Integral x) : Integral (.array arr)

variable (showFloat : Float → String) (config : CompressionConfig)
  (baseValues : AssocMap String Float)

/-- The encoder replaces the array by differences. -/
def TakesDelta (path : String) (arr : List JsonValue) : Prop :=
  2 < arr.length ∧ isNumericSequence config arr = true ∧
    isBeneficial showFloat baseValues path (arr.filterMap JsonValue.asF64) = true

/-- No array of the value is replaced by differences. -/
inductive Uncoded : String → JsonValue → Prop
  | scalar (path : String) (s : JsonScalar) : Uncoded path (.scalar s)
  | object {path : String} {obj : JsonMap}
      (h : ∀ k v, (k, v) ∈ obj → Uncoded (fieldPath path k) v) : Uncoded path (.object obj)
  | array {path : String} {arr : List JsonValue}
      (hkept : ¬ TakesDelta showFloat config baseValues path arr)
      (h : ∀ idx x, arr[idx]? = some x → Uncoded (itemPath path idx) x) : Uncoded path (.array arr)

/-- In a numeric sequence every element is a number. -/
theorem asF64_of_isNumericSequence {arr : List JsonValue}
    (h : isNumericSequence config arr = true) :
    ∀ x ∈ arr, ∃ n, x = JsonValue.number n ∧ ∃ f, x.asF64 = some f := by
  intro x hx
  simp only [isNumericSequence, Bool.and_eq_true, List.all_eq_true] at h
  have hnum := h.2 x hx
  split at hnum
  · rename_i n
    refine ⟨n, rfl, ?_⟩
    cases n <;> exact ⟨_, rfl⟩
  · cases hnum

theorem applyDeltaItems_of_numbers {arr : List JsonValue}
    (h : ∀ x ∈ arr, ∃ n, x = JsonValue.number n) (path : String) (idx : ℕ) :
    applyDeltaItems showFloat config baseValues path idx arr = arr := by
  induction arr generalizing idx with
  | nil => rfl
  | cons x arr ih =>
    rw [List.forall_mem_cons] at h
    obtain ⟨⟨n, rfl⟩, htail⟩ := h
    rw [applyDeltaItems, ih htail]
    rfl

theorem applyDeltaRecursive_of_not_takesDelta {path : String} {arr : List JsonValue}
    (h : ¬ TakesDelta showFloat config baseValues path arr) :
    applyDeltaRecursive showFloat config baseValues path (.array arr) =
      .array (applyDeltaItems showFloat config baseValues path 0 arr) := by
  unfold applyDeltaRecursive
  split_ifs with hnum
  · have hnumbers := asF64_of_isNumericSequence config hnum.2
    rw [applyDeltaItems_of_numbers showFloat config baseValues
      (fun x hx => (hnumbers x hx).imp fun _ h => h.1)]
    have hbeneficial : ¬ isBeneficial showFloat baseValues path
        (arr.filterMap JsonValue.asF64) = true := fun hb => h ⟨hnum.1, hnum.2, hb⟩
    unfold compressNumericArrayWithDelta
    simp only [if_neg hbeneficial, ite_self]
  · rfl

theorem applyDeltaRecursive_of_takesDelta {path : String} {arr : List JsonValue}
    (h : TakesDelta showFloat config baseValues path arr) :
    ∃ (base : Float) (numbers : List Float),
      applyDeltaRecursive showFloat config baseValues path (.array arr) =
      .array (.object [("delta_base", JsonValue.ofF64 base),
        ("delta_type", JsonValue.string "numeric_sequence")] ::
          numbers.map fun num => JsonValue.ofF64 (num - base)) := by
  obtain ⟨hlen, hnum, hbeneficial⟩ := h
  have hempty : (arr.filterMap JsonValue.asF64).isEmpty = false := by
    obtain ⟨x, xs, rfl⟩ := List.exists_cons_of_length_pos (by omega : 0 < arr.length)
    obtain ⟨n, -, f, hf⟩ := asF64_of_isNumericSequence config hnum x (by simp)
    rw [List.filterMap_cons_some hf]
    rfl
  refine ⟨deltaBase baseValues path (arr.filterMap JsonValue.asF64),
    arr.filterMap JsonValue.asF64, ?_⟩
  unfold applyDeltaRecursive
  rw [if_pos ⟨hlen, hnum⟩]
  simp only [compressNumericArrayWithDelta, hempty, hbeneficial]
  rfl

theorem applyDeltaFields_eq (path : String) (obj : JsonMap) :
    applyDeltaFields showFloat config baseValues path obj = obj.map fun e =>
      (e.1, applyDeltaRecursive showFloat config baseValues (fieldPath path e.1) e.2) := by
  induction obj with
  | nil => rfl
  | cons e obj ih => rw [applyDeltaFields, ih, List.map_cons]

theorem applyDeltaRecursive_array (path : String) (arr : List JsonValue) :
    ∃ arr', applyDeltaRecursive showFloat config baseValues path (.array arr) = .array arr' := by
  by_cases h : TakesDelta showFloat config baseValues path arr
  · obtain ⟨base, numbers, heq⟩ :=
      applyDeltaRecursive_of_takesDelta showFloat config baseValues h
    exact ⟨_, heq⟩
  · exact ⟨_, applyDeltaRecursive_of_not_takesDelta showFloat config baseValues h⟩

/-- The encoder keeps the keys of an object. -/
theorem isDeltaHead_applyDeltaRecursive (path : String) (x : JsonValue) :
    isDeltaHead (applyDeltaRecursive showFloat config baseValues path x) = isDeltaHead x := by
  cases x with
  | scalar s => rfl
  | array arr =>
    obtain ⟨arr', heq⟩ := applyDeltaRecursive_array showFloat config baseValues path arr
    rw [heq]
    rfl
  | object obj =>
    have hlookup := fun key => Assoc.lookup_map
      (fun k v => applyDeltaRecursive showFloat config baseValues (fieldPath path k) v) key obj
    rw [applyDeltaRecursive, applyDeltaFields_eq]
    simp only [isDeltaHead, hlookup, Option.isSome_map]

theorem addBase_eq_ok {base : Float} {deltas values : List JsonValue}
    (h : addBase base deltas = .ok values) : ∀ v ∈ values, ∃ f, v = JsonValue.ofF64 f := by
  induction deltas generalizing values with
  | nil =>
    cases h
    simp
  | cons delta deltas ih =>
    unfold addBase at h
    cases hdelta : JsonValue.asF64 delta with
    | none =>
      rw [hdelta] at h
      cases h
    | some f =>
      rw [hdelta] at h
      obtain ⟨rest, hrest, hcons⟩ := bind_eq_ok_iff.mp h
      cases hcons
      rw [List.forall_mem_cons]
      exact ⟨⟨_, rfl⟩, ih hrest⟩

/-- A float is no integer. -/
theorem ofF64_ne_integer {x : JsonValue} {n : JsonNumber} (hx : Integral x)
    (hn : x = JsonValue.number n) (f : Float) : x ≠ JsonValue.ofF64 f := by
  rintro rfl
  unfold JsonValue.ofF64 at hn hx
  split_ifs at hn hx with hfinite
  · cases hx with
    | scalar h => exact h f hfinite rfl
  · cases hn

/-- A coded array does not come back: its numbers would be floats. -/
theorem decompressDelta_of_takesDelta {path : String} {arr : List JsonValue}
    (harr : ∀ x ∈ arr, Integral x) (h : TakesDelta showFloat config baseValues path arr) :
    decompressDelta (applyDeltaRecursive showFloat config baseValues path (.array arr)) ≠
      .ok (.array arr) := by
  obtain ⟨base, numbers, heq⟩ := applyDeltaRecursive_of_takesDelta showFloat config baseValues h
  obtain ⟨hlen, hnum, -⟩ := h
  rw [heq, decompressDelta]
  intro hok
  have hhead : ∀ deltas : List JsonValue, (((Doc.object [("delta_base", JsonValue.ofF64 base),
      ("delta_type", JsonValue.string "numeric_sequence")] :: deltas).head?.map
        isDeltaHead).getD false) = true := fun _ => rfl
  rw [if_pos (hhead _)] at hok
  unfold decompressDeltaArray at hok
  simp only at hok
  split_ifs at hok
  split at hok
  · cases hok
  · obtain ⟨values, hvalues, hcons⟩ := bind_eq_ok_iff.mp hok
    cases hcons
    obtain ⟨x, xs, rfl⟩ := List.exists_cons_of_length_pos (by omega : 0 < arr.length)
    obtain ⟨f, hf⟩ := addBase_eq_ok hvalues x (by simp)
    obtain ⟨n, hn, -⟩ := asF64_of_isNumericSequence config hnum x (by simp)
    exact ofF64_ne_integer (harr x (by simp)) hn f hf

theorem decompressDeltaItems_eq_ok_iff (path : String) (idx : ℕ) (arr : List JsonValue) :
    decompressDeltaItems (applyDeltaItems showFloat config baseValues path idx arr) = .ok arr ↔
      ∀ i x, arr[i]? = some x → decompressDelta
        (applyDeltaRecursive showFloat config baseValues (itemPath path (idx + i)) x) = .ok x := by
  induction arr generalizing idx with
  | nil => simp [applyDeltaItems, decompressDeltaItems]
  | cons x arr ih =>
    rw [applyDeltaItems, decompressDeltaItems, bind_eq_ok_iff]
    have hshift : ∀ i, idx + 1 + i = idx + (i + 1) := by omega
    constructor
    · rintro ⟨w, hw, hrest⟩
      obtain ⟨ws, hws, hcons⟩ := bind_eq_ok_iff.mp hrest
      cases hcons
      intro i y hy
      cases i with
      | zero =>
        cases hy
        exact hw
      | succ i =>
        rw [← hshift]
        exact (ih (idx + 1)).mp hws i y hy
    · intro h
      refine ⟨x, h 0 x rfl, bind_eq_ok_iff.mpr ⟨arr, (ih (idx + 1)).mpr fun i y hy => ?_, rfl⟩⟩
      rw [hshift]
      exact h (i + 1) y hy

theorem decompressDeltaFields_eq_ok_iff (path : String) (obj : JsonMap) :
    decompressDeltaFields (applyDeltaFields showFloat config baseValues path obj) = .ok obj ↔
      ∀ k v, (k, v) ∈ obj → decompressDelta
        (applyDeltaRecursive showFloat config baseValues (fieldPath path k) v) = .ok v := by
  induction obj with
  | nil => simp [applyDeltaFields, decompressDeltaFields]
  | cons e obj ih =>
    obtain ⟨key, value⟩ := e
    rw [applyDeltaFields, decompressDeltaFields, bind_eq_ok_iff]
    constructor
    · rintro ⟨w, hw, hrest⟩
      obtain ⟨ws, hws, hcons⟩ := bind_eq_ok_iff.mp hrest
      cases hcons
      intro k v hmem
      rcases List.mem_cons.mp hmem with heq | hmem
      · cases heq
        exact hw
      · exact ih.mp hws k v hmem
    · intro h
      refine ⟨value, h key value (by simp), bind_eq_ok_iff.mpr ⟨obj, ih.mpr ?_, rfl⟩⟩
      exact fun k v hmem => h k v (by simp [hmem])

theorem decompressDelta_eq_ok_iff {v : JsonValue} (h : Integral v) (path : String) :
    decompressDelta (applyDeltaRecursive showFloat config baseValues path v) = .ok v ↔
      Uncoded showFloat config baseValues path v := by
  induction v using Doc.induction generalizing path with
  | scalar s => exact iff_of_true rfl (.scalar path s)
  | array arr ih =>
    cases h with
    | array hhead harr =>
      by_cases htakes : TakesDelta showFloat config baseValues path arr
      · refine iff_of_false
          (decompressDelta_of_takesDelta showFloat config baseValues harr htakes) fun hun => ?_
        cases hun with
        | array hkept _ => exact hkept htakes
      · -- the first element keeps its keys, so the array is not taken for a coded one
        have hplain : ¬ ((applyDeltaItems showFloat config baseValues path 0 arr).head?.map
            isDeltaHead).getD false = true := by
          cases arr with
          | nil => simp [applyDeltaItems]
          | cons x xs =>
            simp [applyDeltaItems, isDeltaHead_applyDeltaRecursive, hhead x (by simp)]
        rw [applyDeltaRecursive_of_not_takesDelta showFloat config baseValues htakes,
          decompressDelta, if_neg hplain, bind_eq_ok_iff]
        have hitems := decompressDeltaItems_eq_ok_iff showFloat config baseValues path 0 arr
        simp only [Nat.zero_add] at hitems
        constructor
        · rintro ⟨ws, hws, hcons⟩
          cases hcons
          refine .array htakes fun idx x hx => ?_
          have hmem := List.mem_of_getElem? hx
          exact (ih x hmem (harr x hmem) _).mp (hitems.mp hws idx x hx)
        · intro hun
          cases hun with
          | array _ hun =>
            refine ⟨arr, hitems.mpr fun idx x hx => ?_, rfl⟩
            have hmem := List.mem_of_getElem? hx
            exact (ih x hmem (harr x hmem) _).mpr (hun idx x hx)
  | object obj ih =>
    cases h with
    | object hobj =>
      rw [applyDeltaRecursive, decompressDelta, bind_eq_ok_iff]
      have hfields := decompressDeltaFields_eq_ok_iff showFloat config baseValues path obj
      constructor
      · rintro ⟨ws, hws, hcons⟩
        cases hcons
        refine .object fun k v hmem => ?_
        exact (ih k v hmem (hobj k v hmem) _).mp (hfields.mp hws k v hmem)
      · intro hun
        cases hun with
        | object hun =>
          refine ⟨obj, hfields.mpr fun k v hmem => ?_, rfl⟩
          exact (ih k v hmem (hobj k v hmem) _).mpr (hun k v hmem)

/-- A value of integers comes back exactly if none of its arrays is replaced by differences. -/
theorem delta_round_trip_iff {v : JsonValue} (h : Integral v) :
    decompressDelta (applyDeltaCompression showFloat config baseValues v) = .ok v ↔
      Uncoded showFloat config baseValues "" v :=
  decompressDelta_eq_ok_iff showFloat config baseValues h ""

/-- Ten, eleven and twelve. -/
def tens : JsonValue :=
  .array [JsonValue.number (.posInt 10), JsonValue.number (.posInt 11),
    JsonValue.number (.posInt 12)]

/-- The display of floats that are small natural numbers. -/
def showSmall (f : Float) : String :=
  match (List.range 16).find? fun n => (UInt64.ofNat n).toFloat == f with
  | some n => Nat.repr n
  | none => ""

theorem integral_tens : Integral tens := by
  refine .array (by decide) ?_
  simp only [List.forall_mem_cons]
  exact ⟨.scalar (by simp), .scalar (by simp), .scalar (by simp), by simp⟩

theorem delta_round_trip_tens :
    Integral tens ∧
    (decompressDelta (applyDeltaCompression showSmall .default .empty tens) = .ok tens ↔
      Uncoded showSmall .default .empty "" tens) :=
  ⟨integral_tens, delta_round_trip_iff showSmall .default .empty integral_tens⟩

/-- Three integers come back as three floats. -/
theorem tens_come_back_as_floats :
    Integral tens ∧
    decompressDelta (applyDeltaCompression showSmall .default .empty tens) =
      .ok (.array [JsonValue.ofF64 10.0, JsonValue.ofF64 11.0, JsonValue.ofF64 12.0]) ∧
    decompressDelta (applyDeltaCompression showSmall .default .empty tens) ≠ .ok tens := by
  have hfloats : decompressDelta (applyDeltaCompression showSmall .default .empty tens) =
      .ok (.array [JsonValue.ofF64 10.0, JsonValue.ofF64 11.0, JsonValue.ofF64 12.0]) := rfl
  refine ⟨integral_tens, hfloats, fun h => ?_⟩
  exact absurd (Except.ok.inj (hfloats.symm.trans h)) (by decide)

end RoundTrip

end PJS
