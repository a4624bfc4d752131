import PJS.Lib.Check
import PJS.Domain.DataEq
import PJS.Validation.Schema

/-! Validation of a value against a schema. The service carries a cache of compiled patterns, which
every pattern check may flush and extend; the recursion is cut by a bound on its depth. -/
namespace PJS
open JsonData (partialEq hashTokens)

/-- What the service takes from outside the repository: the regex engine under its size limits,
the hasher of a set, and the text of a float. -/
structure Runtime where
  Regex : Type
  buildRegex : String → Except String Regex
  isMatch : Regex → String → Bool
  Digest : Type
  digestEq : DecidableEq Digest
  digest : List JsonData.HashToken → Digest
  showFloat : Float → String

attribute [instance] Runtime.digestEq

/-- The limits of a service. The ceiling on the pattern length cannot be configured away. -/
structure ValidationService where
  maxDepth : ℕ
  maxPatternLength : ℕ
  ceiling : maxPatternLength ≤ 8 * 1024

namespace ValidationService

def defaultMaxDepth : ℕ := 32

def defaultMaxPatternLength : ℕ := 1024

def maxPatternLengthCeiling : ℕ := 8 * 1024

def maxRegexCacheEntries : ℕ := 64

def new : ValidationService := ⟨defaultMaxDepth, defaultMaxPatternLength, by decide⟩

def withMaxDepth (svc : ValidationService) (maxDepth : ℕ) : ValidationService :=
  { svc with maxDepth }

def withMaxPatternLength (svc : ValidationService) (maxPatternLength : ℕ) : ValidationService :=
  { svc with
    maxPatternLength := min maxPatternLength maxPatternLengthCeiling
    ceiling := min_le_right _ _ }

end ValidationService

/-- The pattern cache: every entry is what its pattern compiles to. -/
structure RegexCache (rt : Runtime) where
  entries : AssocMap String rt.Regex
  compiled : ∀ pat re, entries.get? pat = some re → rt.buildRegex pat = .ok re

namespace RegexCache

variable {rt : Runtime}

def empty : RegexCache rt := ⟨.empty, by rintro _ _ ⟨⟩⟩

/-- Generation flush: a full cache is emptied before the next lookup. -/
def evict (cache : RegexCache rt) : RegexCache rt :=
  if ValidationService.maxRegexCacheEntries ≤ cache.entries.size then empty else cache

def insert (cache : RegexCache rt) (pat : String) (re : rt.Regex)
    (h : rt.buildRegex pat = .ok re) : RegexCache rt where
  entries := cache.entries.insert pat re
  compiled := by
    intro p r hp
    rw [AssocMap.get?_insert] at hp
    split_ifs at hp with heq
    · rw [heq, h, Option.some.inj hp]
    · exact cache.compiled p r hp

end RegexCache

abbrev Validation (rt : Runtime) (α : Type) := Check (RegexCache rt) SchemaValidationError α

namespace ValidationService

open Check (ensure rejectSome succeeds)

section Definitions
variable (rt : Runtime) (svc : ValidationService)

def getTypeName : JsonData → String
  | .null => "null"
  | .bool _ => "boolean"
  | .integer _ => "integer"
  | .float _ => "number"
  | .string _ => "string"
  | .array _ => "array"
  | .object _ => "object"

/-- The type mismatch of every form of schema. -/
def mismatch {α : Type} (data : JsonData) (path expected : String) : Validation rt α :=
  throw (.typeMismatch path expected (getTypeName data))

def validateNull (data : JsonData) (path : String) : Validation rt Unit :=
  match data with
  | .null => pure ()
  | _ => mismatch rt data path "null"

def validateBoolean (data : JsonData) (path : String) : Validation rt Unit :=
  match data with
  | .bool _ => pure ()
  | _ => mismatch rt data path "boolean"

/-- The text of a bound that is not set. -/
def bound {β : Type} (unset : String) (text : β → String) (b : Option β) : String :=
  (b.map text).getD unset

def validateInteger (data : JsonData) (path : String) (minimum maximum : Option Int64) :
    Validation rt Unit :=
  match data with
  | .integer value => do
    let text := fun i : Int64 => Int.repr i.toInt
    rejectSome minimum (fun min => value < min) fun min =>
      .outOfRange path (text value) (text min) (bound "∞" text maximum)
    rejectSome maximum (fun max => value > max) fun max =>
      .outOfRange path (text value) (bound "-∞" text minimum) (text max)
  | _ => mismatch rt data path "integer"

/-- The range check of `validate_number`, once the value is a float. -/
def validateFloat (value : Float) (path : String) (minimum maximum : Option Float) :
    Validation rt Unit := do
  ensure (!(value.isNaN || value.isInf))
    (.typeMismatch path "finite number" (rt.showFloat value))
  rejectSome minimum (fun min => value < min) fun min =>
    .outOfRange path (rt.showFloat value) (rt.showFloat min) (bound "∞" rt.showFloat maximum)
  rejectSome maximum (fun max => value > max) fun max =>
    .outOfRange path (rt.showFloat value) (bound "-∞" rt.showFloat minimum) (rt.showFloat max)

/-- `value as f64`: the nearest float, ties to even. -/
def asFloat (value : Int64) : Float := .ofModel (.ofInt64 value)

def validateNumber (data : JsonData) (path : String) (minimum maximum : Option Float) :
    Validation rt Unit :=
  match data with
  | .float value => validateFloat rt value path minimum maximum
  | .integer value => validateFloat rt (asFloat value) path minimum maximum
  | _ => mismatch rt data path "number"

/-- `usize::MAX` -/
def usizeMax : ℕ := 2 ^ 64 - 1

/-- The entry of a pattern in the cache, compiled if it is missing. -/
def cachedRegex (path pat : String) : Validation rt rt.Regex := do
  modify RegexCache.evict
  let cache ← get
  match cache.entries.get? pat with
  | some re => pure re
  | none =>
    match h : rt.buildRegex pat with
    | .ok re => do
      set (cache.insert pat re h)
      pure re
    | .error reason => throw (.invalidPattern path pat reason)

def validatePattern (value path pat : String) : Validation rt Unit := do
  ensure (decide (pat.utf8ByteSize ≤ svc.maxPatternLength))
    (.patternTooLong path pat.utf8ByteSize svc.maxPatternLength)
  let re ← cachedRegex rt path pat
  ensure (rt.isMatch re value) (.patternMismatch path value pat)

def validateString (data : JsonData) (path : String) (minLength maxLength : Option ℕ)
    (pattern : Option String) (allowedValues : Option (List String)) : Validation rt Unit :=
  match data with
  | .string value => do
    let len := value.length
    rejectSome minLength (fun min => len < min) fun min =>
      .stringLengthConstraint path len min (maxLength.getD usizeMax)
    rejectSome maxLength (fun max => len > max) fun max =>
      .stringLengthConstraint path len (minLength.getD 0) max
    rejectSome allowedValues (fun allowed => !allowed.any (· == value)) fun _ =>
      .invalidEnumValue path value
    match pattern with
    | some pat => validatePattern rt svc value path pat
    | none => pure ()
  | _ => mismatch rt data path "string"

/-- `seen.insert(item)` for every item: a set finds an equal item that hashes alike. -/
def validateUnique (path : String) (seen : List JsonData) : List JsonData → Validation rt Unit
  | [] => pure ()
  | item :: rest => do
    ensure (!seen.any fun s =>
      decide (rt.digest (hashTokens item) = rt.digest (hashTokens s)) && partialEq item s)
      (.duplicateItems path)
    validateUnique path (item :: seen) rest

section Deeper
-- validation one level further down
variable (validateDeeper : JsonData → Schema → String → Validation rt Unit)

def validateItem (path : String) (itemSchema : Schema) (e : JsonData × ℕ) : Validation rt Unit :=
  validateDeeper e.1 itemSchema (path ++ "[" ++ Nat.repr e.2 ++ "]")

def validateArray (data : JsonData) (path : String) (items : Option Schema)
    (minItems maxItems : Option ℕ) (uniqueItems : Bool) : Validation rt Unit :=
  match data with
  | .array arr => do
    let len := arr.length
    rejectSome minItems (fun min => len < min) fun min =>
      .arraySizeConstraint path len min (maxItems.getD usizeMax)
    rejectSome maxItems (fun max => len > max) fun max =>
      .arraySizeConstraint path len (minItems.getD 0) max
    (if uniqueItems then validateUnique rt path [] arr else pure () : Validation rt Unit)
    match items with
    | some itemSchema => forM arr.zipIdx (validateItem rt validateDeeper path itemSchema)
    | none => pure ()
  | _ => mismatch rt data path "array"

def validateProperty (path : String) (properties : List (String × Schema))
    (additionalProperties : Bool) (e : String × JsonData) : Validation rt Unit :=
  match properties.lookup e.1 with
  | some propSchema => validateDeeper e.2 propSchema (path ++ "/" ++ e.1)
  | none => ensure additionalProperties (.additionalPropertyNotAllowed path e.1)

def validateObject (data : JsonData) (path : String) (properties : List (String × Schema))
    (required : List String) (additionalProperties : Bool) : Validation rt Unit :=
  match data with
  | .object obj => do
    forM required fun field =>
      ensure (obj.lookup field).isSome (.missingRequired path field)
    forM obj (validateProperty rt validateDeeper path properties additionalProperties)
  | _ => mismatch rt data path "object"

/-- The loop of `validate_one_of`, with the matches counted so far. -/
def matchOneOf (data : JsonData) (path : String) : List Schema → ℕ → Validation rt Unit
  | [], matchCount => ensure (matchCount == 1) (.noMatchingOneOf path)
  | schema :: rest, matchCount => do
    let ok ← succeeds (validateDeeper data schema path)
    if ok then
      -- early exit: two matches are one too many
      if matchCount + 1 > 1 then throw (.noMatchingOneOf path)
      else matchOneOf data path rest (matchCount + 1)
    else matchOneOf data path rest matchCount

def validateOneOf (data : JsonData) (path : String) (schemas : List Schema) : Validation rt Unit :=
  matchOneOf rt validateDeeper data path schemas 0

/-- The loop of `validate_all_of`: the indices that fail. -/
def failuresAllOf (data : JsonData) (path : String) :
    List (Schema × ℕ) → Validation rt (List ℕ)
  | [] => pure []
  | (schema, i) :: rest => do
    let ok ← succeeds (validateDeeper data schema path)
    let failures ← failuresAllOf data path rest
    pure (if ok then failures else i :: failures)

def validateAllOf (data : JsonData) (path : String) (schemas : List Schema) :
    Validation rt Unit := do
  let failures ← failuresAllOf rt validateDeeper data path schemas.zipIdx
  ensure failures.isEmpty (.allOfFailure path (", ".intercalate (failures.map Nat.repr)))

end Deeper

/-- `validate_with_depth` -/
def validateWithDepth (data : JsonData) (schema : Schema) (path : String) (depth : ℕ) :
    Validation rt Unit :=
  if _h : depth > svc.maxDepth then
    throw (.typeMismatch path "maximum depth not exceeded"
      ("depth " ++ Nat.repr depth ++ " exceeds maximum " ++ Nat.repr svc.maxDepth))
  else
    let deeper := fun data schema path => validateWithDepth data schema path (depth + 1)
    match schema with
    | .any => pure ()
    | .null => validateNull rt data path
    | .boolean => validateBoolean rt data path
    | .integer minimum maximum => validateInteger rt data path minimum maximum
    | .number minimum maximum => validateNumber rt data path minimum maximum
    | .string minLength maxLength pattern allowedValues =>
      validateString rt svc data path minLength maxLength pattern allowedValues
    | .array items minItems maxItems uniqueItems =>
      validateArray rt deeper data path items minItems maxItems uniqueItems
    | .object properties required additionalProperties =>
      validateObject rt deeper data path properties required additionalProperties
    | .oneOf schemas => validateOneOf rt deeper data path schemas
    | .allOf schemas => validateAllOf rt deeper data path schemas
termination_by svc.maxDepth + 1 - depth

/-- `validate` -/
def validate (data : JsonData) (schema : Schema) (path : String) : Validation rt Unit :=
  validateWithDepth rt svc data schema path 0

end Definitions

end ValidationService

end PJS
