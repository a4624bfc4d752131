import PJS.Validation.Uniqueness

/-! The quick type check before a full validation. Both recurse over the schema; they part at a
`Number` schema, which validates an integer by reading it as a float but does not allow its type. -/
namespace PJS

/-- The type a value has as JSON: floats are the numbers that are not integers. -/
def SchemaType.ofData : JsonData → SchemaType
  | .null => .null
  | .bool _ => .boolean
  | .integer _ => .integer
  | .float _ => .number
  | .string _ => .string
  | .array _ => .array
  | .object _ => .object

namespace Schema

/-- The quick check in which a `Number` schema allows integers too. -/
inductive Admits : Schema → SchemaType → Prop
  | allows {s : Schema} {t : SchemaType} (h : s.allowsType t = true) : Admits s t
  | number (minimum maximum : Option Float) : Admits (.number minimum maximum) .integer
  | oneOf {schemas : List Schema} {s : Schema} {t : SchemaType} (hs : s ∈ schemas)
      (h : Admits s t) : Admits (.oneOf schemas) t
  | allOf {schemas : List Schema} {t : SchemaType} (h : ∀ s ∈ schemas, Admits s t) :
      Admits (.allOf schemas) t

/-- A `Number` schema is reached through the branches of `OneOf` and `AllOf`. -/
inductive ReachesNumber : Schema → Prop
  | number (minimum maximum : Option Float) : ReachesNumber (.number minimum maximum)
  | oneOf {schemas : List Schema} {s : Schema} (hs : s ∈ schemas) (h : ReachesNumber s) :
      ReachesNumber (.oneOf schemas)
  | allOf {schemas : List Schema} {s : Schema} (hs : s ∈ schemas) (h : ReachesNumber s) :
      ReachesNumber (.allOf schemas)

/-- Without a `Number` in reach, and for every type but the integers, nothing is added. -/
theorem Admits.allowsType {s : Schema} {t : SchemaType} (h : Admits s t)
    (hn : t = .integer → ¬ ReachesNumber s) : s.allowsType t = true := by
  induction h with
  | allows h => exact h
  | number minimum maximum => exact absurd (.number minimum maximum) (hn rfl)
  | oneOf hs _ ih =>
    rw [Schema.allowsType, anyAllowsType_eq, List.any_eq_true]
    exact ⟨_, hs, ih fun ht hr => hn ht (.oneOf hs hr)⟩
  | allOf _ ih =>
    rw [Schema.allowsType, allAllowType_eq, List.all_eq_true]
    exact fun s hs => ih s hs fun ht hr => hn ht (.allOf hs hr)

end Schema

namespace ValidationService
open Check

variable {rt : Runtime} {svc : ValidationService}

/-- A value accepted at some depth passes the widened quick check. -/
theorem admits_of_accepts {levels : ℕ} {data : JsonData} {schema : Schema}
    (h : accepts rt svc levels data schema = true) : schema.Admits (.ofData data) := by
  induction levels generalizing data schema with
  | zero => cases h
  | succ levels ih =>
    cases schema with
    | any => exact .allows rfl
    | oneOf schemas =>
      have hone : schemas.countP (accepts rt svc levels data) = 1 := by
        simpa [accepts, acceptsOneOf] using h
      obtain ⟨s, hs, hacc⟩ := List.countP_pos_iff.mp (hone ▸ Nat.one_pos)
      exact .oneOf hs (ih hacc)
    | allOf schemas =>
      have hall : ∀ s ∈ schemas, accepts rt svc levels data s = true := by
        simpa [accepts, acceptsAllOf] using h
      exact .allOf fun s hs => ih (hall s hs)
    | number minimum maximum =>
      rcases data with (_ | b | i | f | t) | arr | obj
      case scalar.integer => exact .number minimum maximum
      case scalar.float => exact .allows rfl
      all_goals cases h
    | _ =>
      rcases data with (_ | b | i | f | t) | arr | obj <;> first | exact .allows rfl | cases h

/-- A document that validates passes the quick check, up to integers read as numbers. -/
theorem quick_check_of_validate (rt : Runtime) (svc : ValidationService) (data : JsonData)
    (schema : Schema) (path : String) (cache : RegexCache rt)
    (h : (exec (validate rt svc data schema path) cache).1 = .ok ()) :
    schema.Admits (.ofData data) ∧
      ((SchemaType.ofData data = .integer → ¬ schema.ReachesNumber) →
        schema.allowsType (.ofData data) = true) := by
  have hadm : schema.Admits (.ofData data) := admits_of_accepts ((validate_eq_ok_iff _ _ _ _).mp h)
  exact ⟨hadm, hadm.allowsType⟩

theorem quick_check_of_validate_string :
    (Schema.oneOf [.string none none none none, .null]).Admits .string ∧
      ((SchemaType.string = .integer →
          ¬ (Schema.oneOf [.string none none none none, .null]).ReachesNumber) →
        (Schema.oneOf [.string none none none none, .null]).allowsType .string = true) :=
  quick_check_of_validate collisionFree .new (.string "id") _ "/id" .empty
    ((validate_eq_ok_iff _ _ _ _).mpr (by decide))

/-- The integer 5 validates against `Number`, whose quick check turns integers away. -/
theorem integer_validates_as_number :
    (exec (validate collisionFree .new (.integer 5) (.number none none) "/count") .empty).1 =
        .ok () ∧
      (Schema.number none none).allowsType (.ofData (.integer 5)) = false :=
  ⟨(validate_eq_ok_iff _ _ _ _).mpr (by decide +kernel), rfl⟩

end ValidationService

end PJS
