import PJS.Domain.JsonData

/-! Schemas, the errors of validating against one, and the quick type check that is made before a
full validation. -/
namespace PJS

/-- `items: None` accepts any element; the properties of an object are listed in the iteration
order of their hash map. -/
inductive Schema where
  | string (minLength maxLength : Option ℕ) (pattern : Option String)
      (allowedValues : Option (List String))
  | integer (minimum maximum : Option Int64)
  | number (minimum maximum : Option Float)
  | boolean
  | null
  | array (items : Option Schema) (minItems maxItems : Option ℕ) (uniqueItems : Bool)
  | object (properties : List (String × Schema)) (required : List String)
      (additionalProperties : Bool)
  | oneOf (schemas : List Schema)
  | allOf (schemas : List Schema)
  | any

inductive SchemaType where
  | string
  | integer
  | number
  | boolean
  | null
  | array
  | object
deriving DecidableEq

inductive SchemaValidationError where
  | typeMismatch (path expected actual : String)
  | missingRequired (path field : String)
  | outOfRange (path value min max : String)
  | stringLengthConstraint (path : String) (actual min max : ℕ)
  | patternMismatch (path value pattern : String)
  | invalidPattern (path pattern reason : String)
  | patternTooLong (path : String) (length max : ℕ)
  | arraySizeConstraint (path : String) (actual min max : ℕ)
  | duplicateItems (path : String)
  | invalidEnumValue (path value : String)
  | additionalPropertyNotAllowed (path property : String)
  | noMatchingOneOf (path : String)
  | allOfFailure (path failures : String)
deriving DecidableEq

namespace Schema

mutual

def allowsType : Schema → SchemaType → Bool
  | .string .., .string => true
  | .integer .., .integer => true
  | .number .., .number => true
  | .boolean, .boolean => true
  | .null, .null => true
  | .array .., .array => true
  | .object .., .object => true
  | .any, _ => true
  | .oneOf schemas, schemaType => anyAllowsType schemas schemaType
  | .allOf schemas, schemaType => allAllowType schemas schemaType
  | _, _ => false

def anyAllowsType : List Schema → SchemaType → Bool
  | [], _ => false
  | s :: rest, schemaType => allowsType s schemaType || anyAllowsType rest schemaType

def allAllowType : List Schema → SchemaType → Bool
  | [], _ => true
  | s :: rest, schemaType => allowsType s schemaType && allAllowType rest schemaType

end

mutual

/-- The number of schemas nested inside one another below this one. -/
def nesting : Schema → ℕ
  | .array (some items) _ _ _ => nesting items + 1
  | .object properties _ _ => nestingProperties properties
  | .oneOf schemas => nestingList schemas
  | .allOf schemas => nestingList schemas
  | _ => 0

/-- One more than the deepest of the list; nothing is nested in an empty list. -/
def nestingList : List Schema → ℕ
  | [] => 0
  | s :: rest => max (nesting s + 1) (nestingList rest)

def nestingProperties : List (String × Schema) → ℕ
  | [] => 0
  | (_, s) :: rest => max (nesting s + 1) (nestingProperties rest)

end

theorem anyAllowsType_eq (schemas : List Schema) (t : SchemaType) :
    anyAllowsType schemas t = schemas.any (allowsType · t) := by
  induction schemas with
  | nil => rfl
  | cons s schemas ih => rw [anyAllowsType, ih, List.any_cons]

theorem allAllowType_eq (schemas : List Schema) (t : SchemaType) :
    allAllowType schemas t = schemas.all (allowsType · t) := by
  induction schemas with
  | nil => rfl
  | cons s schemas ih => rw [allAllowType, ih, List.all_cons]

theorem nesting_lt_of_mem {s : Schema} {schemas : List Schema} (h : s ∈ schemas) :
    s.nesting < nestingList schemas := by
  induction schemas with
  | nil => cases h
  | cons t schemas ih =>
    rw [nestingList]
    rcases List.mem_cons.mp h with rfl | h
    · omega
    · have := ih h
      omega

theorem nesting_lt_of_mem_properties {key : String} {s : Schema}
    {properties : List (String × Schema)} (h : (key, s) ∈ properties) :
    s.nesting < nestingProperties properties := by
  induction properties with
  | nil => cases h
  | cons e properties ih =>
    obtain ⟨key', t⟩ := e
    rw [nestingProperties]
    rcases List.mem_cons.mp h with heq | h
    · cases heq
      omega
    · have := ih h
      omega

end Schema

end PJS
