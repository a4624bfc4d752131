import PJS.Lib.FloatRound
import PJS.Validation.Uniqueness

/-! What a schema means, said without depth, order or cache: bounds hold of exact values, `OneOf`
has exactly one branch that is met. How an integer is read as a number is left open, since the
service does not read it exactly. -/
namespace PJS.Schema
open ValidationService (Repeats Equal Alike)

/-- Both bounds that are set are respected, ends included. -/
def Within {β : Type} [LE β] (value : β) (minimum maximum : Option β) : Prop :=
  (∀ b ∈ minimum, b ≤ value) ∧ ∀ b ∈ maximum, value ≤ b

/-- A number between two floats, compared exactly; a NaN bounds nothing. -/
def WithinFloats (q : ℚ) (minimum maximum : Option Float) : Prop :=
  (∀ b ∈ minimum, ∀ x, FloatOrder.value b = some x → x ≤ ((q : WithTop ℚ) : WithBot (WithTop ℚ))) ∧
    ∀ b ∈ maximum, ∀ x, FloatOrder.value b = some x → ((q : WithTop ℚ) : WithBot (WithTop ℚ)) ≤ x

/-- An integer as the number it is. -/
def exactReading (i : Int64) (q : ℚ) : Prop := q = i.toInt

/-- An integer as the float nearest to it, with ties to even. -/
def floatReading (i : Int64) (q : ℚ) : Prop :=
  FloatOrder.Rounds .binary64 |(i.toInt : ℚ)| |q| ∧ (0 ≤ i.toInt → 0 ≤ q) ∧ (i.toInt < 0 → q ≤ 0)

/-- There is one float nearest to an integer, and the conversion yields it. -/
theorem floatReading_iff (i : Int64) (q : ℚ) : floatReading i q ↔
    FloatOrder.value (ValidationService.asFloat i) =
      some ((q : WithTop ℚ) : WithBot (WithTop ℚ)) := by
  obtain ⟨y, hy, hpos, hneg, hvalue⟩ := FloatOrder.value_ofInt64 i
  have hcoe : FloatOrder.value (ValidationService.asFloat i) =
      some ((q : WithTop ℚ) : WithBot (WithTop ℚ)) ↔ y = q := by
    rw [ValidationService.asFloat, hvalue, Option.some_inj, WithBot.coe_inj, WithTop.coe_inj]
  rw [hcoe]
  constructor
  · rintro ⟨hq, hqpos, hqneg⟩
    have habs : |y| = |q| := hy.unique hq
    rcases lt_or_ge i.toInt 0 with hi | hi
    · rw [abs_of_nonpos (hneg hi), abs_of_nonpos (hqneg hi)] at habs
      exact neg_injective habs
    · rwa [abs_of_nonneg (hpos hi), abs_of_nonneg (hqpos hi)] at habs
  · rintro rfl
    exact ⟨hy, hpos, hneg⟩

section Meets
variable (rt : Runtime) (svc : ValidationService) (reading : Int64 → ℚ → Prop)

/-- The value is a number, namely `q`. -/
def IsNumber (data : JsonData) (q : ℚ) : Prop :=
  (∃ f, data = .float f ∧ FloatOrder.value f = some ((q : WithTop ℚ) : WithBot (WithTop ℚ))) ∨
    ∃ i, data = .integer i ∧ reading i q

/-- A pattern of accepted length that the engine builds and matches. -/
def MatchesPattern (value pat : String) : Prop :=
  pat.utf8ByteSize ≤ svc.maxPatternLength ∧
    ∃ re, rt.buildRegex pat = .ok re ∧ rt.isMatch re value = true

mutual

def Meets : Schema → JsonData → Prop
  | .any, _ => True
  | .null, data => data = .null
  | .boolean, data => ∃ b, data = .bool b
  | .integer minimum maximum, data => ∃ i, data = .integer i ∧
      Within i.toInt (minimum.map Int64.toInt) (maximum.map Int64.toInt)
  | .number minimum maximum, data => ∃ q, IsNumber reading data q ∧ WithinFloats q minimum maximum
  | .string minLength maxLength pattern allowedValues, data => ∃ value, data = .string value ∧
      Within value.length minLength maxLength ∧ (∀ allowed ∈ allowedValues, value ∈ allowed) ∧
      ∀ pat ∈ pattern, MatchesPattern rt svc value pat
  | .array items minItems maxItems uniqueItems, data => ∃ arr, data = .array arr ∧
      Within arr.length minItems maxItems ∧ (uniqueItems = true → ¬ Repeats Equal arr) ∧
      ∀ item ∈ arr, MeetsItems items item
  | .object properties required additionalProperties, data => ∃ obj, data = .object obj ∧
      (∀ field ∈ required, ∃ v, obj.lookup field = some v) ∧
      ∀ key v, (key, v) ∈ obj → MeetsProperty properties additionalProperties key v
  | .oneOf schemas, data => ∃! i, MeetsBranch schemas i data
  | .allOf schemas, data => ∀ i < schemas.length, MeetsBranch schemas i data

def MeetsItems : Option Schema → JsonData → Prop
  | none, _ => True
  | some items, item => Meets items item

/-- The entry of a defined property meets its schema; others must be allowed. -/
def MeetsProperty : List (String × Schema) → Bool → String → JsonData → Prop
  | [], additionalProperties, _, _ => additionalProperties = true
  | (name, s) :: rest, additionalProperties, key, v =>
    if key = name then Meets s v else MeetsProperty rest additionalProperties key v

/-- The branch at an index is met. -/
def MeetsBranch : List Schema → ℕ → JsonData → Prop
  | [], _, _ => False
  | s :: _, 0, data => Meets s data
  | _ :: rest, i + 1, data => MeetsBranch rest i data

end

variable {rt svc reading}

theorem meetsProperty_iff {properties : List (String × Schema)} {additionalProperties : Bool}
    {key : String} {v : JsonData} :
    MeetsProperty rt svc reading properties additionalProperties key v ↔
      (∀ s, properties.lookup key = some s → Meets rt svc reading s v) ∧
        (properties.lookup key = none → additionalProperties = true) := by
  induction properties with
  | nil => simp [MeetsProperty]
  | cons e properties ih =>
    obtain ⟨name, s⟩ := e
    rw [MeetsProperty]
    by_cases hk : key = name
    · subst hk
      simp
    · rw [if_neg hk, ih, Assoc.lookup_cons_ne hk]

theorem meetsBranch_iff {schemas : List Schema} {i : ℕ} {data : JsonData} :
    MeetsBranch rt svc reading schemas i data ↔
      ∃ s, schemas[i]? = some s ∧ Meets rt svc reading s data := by
  induction schemas generalizing i with
  | nil => simp [MeetsBranch]
  | cons s schemas ih =>
    cases i with
    | zero => simp [MeetsBranch]
    | succ i => simp [MeetsBranch, ih]

end Meets

/-- An array that the schema checks for unique items has equal ones, and each two of them are equal
only as zeros of opposite signs are. -/
inductive Unsettled : Schema → JsonData → Prop
  | here {items : Option Schema} {minItems maxItems : Option ℕ} {arr : List JsonData}
    (hwithin : Within arr.length minItems maxItems) (hrepeats : Repeats Equal arr)
    (hzeros : ¬ Repeats Alike arr) : Unsettled (.array items minItems maxItems true) (.array arr)
  | item {s : Schema} {minItems maxItems : Option ℕ} {uniqueItems : Bool} {arr : List JsonData}
    {item : JsonData} (hitem : item ∈ arr) (h : Unsettled s item) :
    Unsettled (.array (some s) minItems maxItems uniqueItems) (.array arr)
  | property {properties : List (String × Schema)} {required : List String}
    {additionalProperties : Bool} {obj : List (String × JsonData)} {key : String} {v : JsonData}
    {s : Schema} (hentry : (key, v) ∈ obj) (hs : properties.lookup key = some s)
    (h : Unsettled s v) : Unsettled (.object properties required additionalProperties) (.object obj)
  | oneOf {schemas : List Schema} {s : Schema} {data : JsonData} (hs : s ∈ schemas)
    (h : Unsettled s data) : Unsettled (.oneOf schemas) data
  | allOf {schemas : List Schema} {s : Schema} {data : JsonData} (hs : s ∈ schemas)
    (h : Unsettled s data) : Unsettled (.allOf schemas) data

end PJS.Schema
