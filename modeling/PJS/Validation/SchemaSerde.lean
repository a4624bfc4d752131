import PJS.Domain.FrameSerde
import PJS.Lib.Levels
import PJS.Validation.Schema

/-! Schemas as JSON values. Both the schemas of the domain and their transfer objects are read with
a counter of the thread that bounds how deep they nest. Nothing else bounds it: the trees are those
of `to_value` and `from_value`. A text that nests more than 127 containers is refused before this
counter is asked. -/
namespace PJS

/-- A schema as it crosses the boundary of the application. -/
inductive SchemaDefinitionDto where
  | string (minLength maxLength : Option ℕ) (pattern : Option String)
      (enumValues : Option (List String))
  | integer (minimum maximum : Option Int64)
  | number (minimum maximum : Option Float)
  | boolean
  | null
  | array (items : Option SchemaDefinitionDto) (minItems maxItems : Option ℕ) (uniqueItems : Bool)
  | object (properties : List (String × SchemaDefinitionDto)) (required : List String)
      (additionalProperties : Bool)
  | oneOf (schemas : List SchemaDefinitionDto)
  | allOf (schemas : List SchemaDefinitionDto)
  | any

/-- Which of the two types is written or read. -/
inductive SchemaForm where
  | schema
  | definitionDto

namespace SchemaForm

def typeName : SchemaForm → String
  | schema => "Schema"
  | definitionDto => "SchemaDefinitionDto"

/-- The field of the values a string may take. -/
def allowedValues : SchemaForm → String
  | schema => "allowed_values"
  | definitionDto => "enum_values"

/-- `skip_serializing_if = "Option::is_none"` -/
def skipsNone : SchemaForm → Bool
  | schema => false
  | definitionDto => true

/-- Of `unique_items`, `required` and `additional_properties` only the transfer object has
defaults. -/
def default {α : Type} (a : α) : SchemaForm → Option α
  | schema => none
  | definitionDto => some a

end SchemaForm

inductive SchemaVariant where
  | string
  | integer
  | number
  | boolean
  | null
  | array
  | object
  | oneOf
  | allOf
  | any
deriving DecidableEq

namespace SchemaVariant

def name : SchemaVariant → String
  | string => "String"
  | integer => "Integer"
  | number => "Number"
  | boolean => "Boolean"
  | null => "Null"
  | array => "Array"
  | object => "Object"
  | oneOf => "OneOf"
  | allOf => "AllOf"
  | any => "Any"

def ofName : String → Except DeError SchemaVariant
  | "String" => .ok .string
  | "Integer" => .ok .integer
  | "Number" => .ok .number
  | "Boolean" => .ok .boolean
  | "Null" => .ok .null
  | "Array" => .ok .array
  | "Object" => .ok .object
  | "OneOf" => .ok .oneOf
  | "AllOf" => .ok .allOf
  | "Any" => .ok .any
  | name => .error (.unknownVariant name)

/-- The schema of a variant without fields. -/
def unit : SchemaVariant → Option Schema
  | boolean => some .boolean
  | null => some .null
  | any => some .any
  | _ => none

/-- The fields of a variant in order, and whether each has a default. -/
def fields (form : SchemaForm) : SchemaVariant → List (String × Bool)
  | string => [("min_length", false), ("max_length", false), ("pattern", false),
      (form.allowedValues, false)]
  | integer | number => [("minimum", false), ("maximum", false)]
  | array => [("items", true), ("min_items", false), ("max_items", false),
      ("unique_items", (form.default false).isSome)]
  | object => [("properties", false), ("required", (form.default ([] : List String)).isSome),
      ("additional_properties", (form.default true).isSome)]
  | oneOf | allOf => [("schemas", false)]
  | boolean | null | any => []

/-- Of a sequence of the first `length` fields, the first that is missing without a default. -/
def firstMissing (form : SchemaForm) (variant : SchemaVariant) (length : ℕ) : Option ℕ :=
  (((variant.fields form).zipIdx.drop length).find? fun field => !field.1.2).map Prod.snd

end SchemaVariant

namespace Schema

section Serialize

def natural (n : ℕ) : SerdeValue := .scalar (.posInt (UInt64.ofNat n))

def serializeI64 (i : Int64) : SerdeValue := .scalar (JsonData.serializeScalar (.integer i))

/-- A number that JSON cannot express is written as null. -/
def serializeF64 (f : Float) : SerdeValue := .scalar (JsonData.serializeScalar (.float f))

def text (s : String) : SerdeValue := .scalar (.string s)

def serializeOption (form : SchemaForm) (name : String) :
    Option SerdeValue → List (String × SerdeValue)
  | some value => [(name, value)]
  | none => if form.skipsNone then [] else [(name, .scalar .null)]

/-- A variant with fields. -/
def serializeVariant (variant : SchemaVariant) (fields : List (String × SerdeValue)) :
    SerdeValue :=
  .object [(variant.name, .object fields)]

mutual

def serialize (form : SchemaForm) : Schema → SerdeValue
  | .string minLength maxLength pattern allowedValues => serializeVariant .string
    (serializeOption form "min_length" (minLength.map natural) ++
      serializeOption form "max_length" (maxLength.map natural) ++
      serializeOption form "pattern" (pattern.map text) ++
      serializeOption form form.allowedValues
        (allowedValues.map fun values => .array (values.map text)))
  | .integer minimum maximum => serializeVariant .integer
    (serializeOption form "minimum" (minimum.map serializeI64) ++
      serializeOption form "maximum" (maximum.map serializeI64))
  | .number minimum maximum => serializeVariant .number
    (serializeOption form "minimum" (minimum.map serializeF64) ++
      serializeOption form "maximum" (maximum.map serializeF64))
  | .boolean => text "Boolean"
  | .null => text "Null"
  | .array items minItems maxItems uniqueItems => serializeVariant .array
    (serializeOption form "items" (serializeItems form items) ++
      serializeOption form "min_items" (minItems.map natural) ++
      serializeOption form "max_items" (maxItems.map natural) ++
      [("unique_items", .scalar (.bool uniqueItems))])
  | .object properties required additionalProperties => serializeVariant .object
    [("properties", .object (serializeProperties form properties)),
      ("required", .array (required.map text)),
      ("additional_properties", .scalar (.bool additionalProperties))]
  | .oneOf schemas => serializeVariant .oneOf [("schemas", .array (serializeList form schemas))]
  | .allOf schemas => serializeVariant .allOf [("schemas", .array (serializeList form schemas))]
  | .any => text "Any"

def serializeItems (form : SchemaForm) : Option Schema → Option SerdeValue
  | some items => some (serialize form items)
  | none => none

def serializeProperties (form : SchemaForm) :
    List (String × Schema) → List (String × SerdeValue)
  | [] => []
  | (key, schema) :: rest => (key, serialize form schema) :: serializeProperties form rest

def serializeList (form : SchemaForm) : List Schema → List SerdeValue
  | [] => []
  | schema :: rest => serialize form schema :: serializeList form rest

end

end Serialize

section Deserialize

/-- Reading under the counter of the thread. -/
abbrev Reading (α : Type) := Check ℕ DeError α

open Check (within)

def nestingExceeded (form : SchemaForm) : DeError :=
  .custom s!"{form.typeName} nesting depth exceeds maximum of {JsonData.maxDeserializeDepth}"

/-- The guard is held while `body` reads. -/
def enterDeserializeDepth {α : Type} (form : SchemaForm) (body : Reading α) : Reading α :=
  within JsonData.maxDeserializeDepth (nestingExceeded form) body

def deserializeI64 : SerdeValue → Except DeError Int64
  | .scalar (.posInt v) =>
    if v.toNat ≤ 9223372036854775807 then .ok v.toInt64 else .error (.invalidValue "i64")
  | .scalar (.negInt v) => .ok v
  | _ => .error (.invalidType "i64")

def deserializeF64 : SerdeValue → Except DeError Float
  | .scalar (.posInt v) => .ok v.toFloat
  | .scalar (.negInt v) => .ok (.ofModel (.ofInt64 v))
  | .scalar (.float v) => .ok v
  | _ => .error (.invalidType "f64")

def deserializeBool : SerdeValue → Except DeError Bool
  | .scalar (.bool b) => .ok b
  | _ => .error (.invalidType "a boolean")

def deserializeUsize : SerdeValue → Except DeError ℕ := deserializeUnsigned (2 ^ 64 - 1)

def deserializeTexts : SerdeValue → Except DeError (List String)
  | .array xs => xs.mapM deserializeString
  | _ => .error (.invalidType "a sequence")

def deserializeOption {α : Type} (read : SerdeValue → Except DeError α) :
    SerdeValue → Except DeError (Option α)
  | .scalar .null => .ok none
  | value => (read value).map some

/-- The fields of a variant read so far; a variant reads its own. -/
structure Fields where
  minLength : Option (Option ℕ)
  maxLength : Option (Option ℕ)
  pattern : Option (Option String)
  allowedValues : Option (Option (List String))
  minimum : Option (Option Int64)
  maximum : Option (Option Int64)
  minimumF64 : Option (Option Float)
  maximumF64 : Option (Option Float)
  items : Option (Option Schema)
  minItems : Option (Option ℕ)
  maxItems : Option (Option ℕ)
  uniqueItems : Option Bool
  properties : Option (List (String × Schema))
  required : Option (List String)
  additionalProperties : Option Bool
  schemas : Option (List Schema)

namespace Fields

def none : Fields :=
  ⟨.none, .none, .none, .none, .none, .none, .none, .none, .none, .none, .none, .none, .none,
    .none, .none, .none⟩

/-- Read a field that may be given once. -/
def once {α : Type} (name : String) (slot : Option α) (read : Reading α) : Reading (Option α) :=
  if slot.isSome then throw (.duplicateField name) else some <$> read

def optional {α : Type} (name : String) (slot : Option (Option α))
    (read : SerdeValue → Except DeError α) (value : SerdeValue) : Reading (Option (Option α)) :=
  once name slot (ofExcept (deserializeOption read value))

/-- Read one field; an unknown one is ignored. The last three arguments read the value where the
field holds schemas. -/
def visit (form : SchemaForm) (variant : SchemaVariant) (fields : Fields) (key : String)
    (value : SerdeValue) (items : Reading (Option Schema))
    (properties : Reading (List (String × Schema))) (schemas : Reading (List Schema)) :
    Reading Fields :=
  match variant with
  | .string =>
    if key = "min_length" then do
      return { fields with
        minLength := ← optional key fields.minLength deserializeUsize value }
    else if key = "max_length" then do
      return { fields with
        maxLength := ← optional key fields.maxLength deserializeUsize value }
    else if key = "pattern" then do
      return { fields with
        pattern := ← optional key fields.pattern deserializeString value }
    else if key = form.allowedValues then do
      return { fields with
        allowedValues := ← optional key fields.allowedValues deserializeTexts value }
    else pure fields
  | .integer =>
    if key = "minimum" then do
      return { fields with
        minimum := ← optional key fields.minimum deserializeI64 value }
    else if key = "maximum" then do
      return { fields with
        maximum := ← optional key fields.maximum deserializeI64 value }
    else pure fields
  | .number =>
    if key = "minimum" then do
      return { fields with
        minimumF64 := ← optional key fields.minimumF64 deserializeF64 value }
    else if key = "maximum" then do
      return { fields with
        maximumF64 := ← optional key fields.maximumF64 deserializeF64 value }
    else pure fields
  | .array =>
    if key = "items" then do
      return { fields with items := ← once key fields.items items }
    else if key = "min_items" then do
      return { fields with
        minItems := ← optional key fields.minItems deserializeUsize value }
    else if key = "max_items" then do
      return { fields with
        maxItems := ← optional key fields.maxItems deserializeUsize value }
    else if key = "unique_items" then do
      return { fields with
        uniqueItems := ← once key fields.uniqueItems (ofExcept (deserializeBool value)) }
    else pure fields
  | .object =>
    if key = "properties" then do
      return { fields with properties := ← once key fields.properties properties }
    else if key = "required" then do
      return { fields with
        required := ← once key fields.required (ofExcept (deserializeTexts value)) }
    else if key = "additional_properties" then do
      return { fields with
        additionalProperties :=
          ← once key fields.additionalProperties (ofExcept (deserializeBool value)) }
    else pure fields
  | .oneOf | .allOf =>
    if key = "schemas" then do
      return { fields with schemas := ← once key fields.schemas schemas }
    else pure fields
  | .boolean | .null | .any => pure fields

/-- A field that is missing has its default; an optional one is `None`. -/
def build (form : SchemaForm) (fields : Fields) : SchemaVariant → Except DeError Schema
  | .string => .ok (.string fields.minLength.join fields.maxLength.join fields.pattern.join
    fields.allowedValues.join)
  | .integer => .ok (.integer fields.minimum.join fields.maximum.join)
  | .number => .ok (.number fields.minimumF64.join fields.maximumF64.join)
  | .array => do
    return .array fields.items.join fields.minItems.join fields.maxItems.join
      (← Frame.Fields.required "unique_items" (fields.uniqueItems.or (form.default false)))
  | .object => do
    return .object (← Frame.Fields.required "properties" fields.properties)
      (← Frame.Fields.required "required" (fields.required.or (form.default [])))
      (← Frame.Fields.required "additional_properties"
        (fields.additionalProperties.or (form.default true)))
  | .oneOf => do return .oneOf (← Frame.Fields.required "schemas" fields.schemas)
  | .allOf => do return .allOf (← Frame.Fields.required "schemas" fields.schemas)
  | .boolean => .ok .boolean
  | .null => .ok .null
  | .any => .ok .any

end Fields

/-- A variant by its name alone. -/
def deserializeName : SerdeScalar → Except DeError Schema
  | .string name => do
    match (← SchemaVariant.ofName name).unit with
    | some schema => .ok schema
    | none => .error (.invalidType "struct variant")
  | _ => .error (.invalidType "enum")

/-- What follows the name of a variant without fields. -/
def deserializeUnit (schema : Schema) : SerdeValue → Except DeError Schema
  | .scalar .null => .ok schema
  | _ => .error (.invalidType "unit")

/-- An optional schema, read by `read` where it is not null. -/
def deserializeBoxedSchemaOption (form : SchemaForm) (read : Reading Schema) :
    SerdeValue → Reading (Option Schema)
  | .scalar .null => enterDeserializeDepth form (pure none)
  | _ => enterDeserializeDepth form (some <$> read)

mutual

def deserialize (form : SchemaForm) : SerdeValue → Reading Schema
  | .scalar s => ofExcept (deserializeName s)
  | .array _ => throw (.invalidType "enum")
  | .object [(name, content)] => do
    let variant ← ofExcept (SchemaVariant.ofName name)
    match variant.unit with
    | some schema => ofExcept (deserializeUnit schema content)
    | none => deserializeContent form variant content
  | .object _ => throw (.invalidValue "map with a single key")

/-- The fields of a variant are a map, or the sequence of them. -/
def deserializeContent (form : SchemaForm) (variant : SchemaVariant) :
    SerdeValue → Reading Schema
  | .scalar _ => throw (.invalidType "struct variant")
  | .array xs => do
    let fields ← visitSeq form variant .none ((variant.fields form).map Prod.fst) xs
    match variant.firstMissing form xs.length with
    | some i => throw (.invalidLength i)
    | none =>
      if (variant.fields form).length < xs.length then throw .trailingCharacters
      else ofExcept (fields.build form variant)
  | .object m => do ofExcept ((← visitMap form variant .none m).build form variant)

def visitMap (form : SchemaForm) (variant : SchemaVariant) (fields : Fields) :
    List (String × SerdeValue) → Reading Fields
  | [] => pure fields
  | (key, value) :: rest => do
    let fields ← fields.visit form variant key value
      (deserializeBoxedSchemaOption form (deserialize form value) value)
      (deserializeSchemaProperties form value) (deserializeSchemaList form value)
    visitMap form variant fields rest

def visitSeq (form : SchemaForm) (variant : SchemaVariant) (fields : Fields) :
    List String → List SerdeValue → Reading Fields
  | _, [] => pure fields
  | [], _ :: _ => pure fields
  | key :: names, value :: rest => do
    let fields ← fields.visit form variant key value
      (deserializeBoxedSchemaOption form (deserialize form value) value)
      (deserializeSchemaProperties form value) (deserializeSchemaList form value)
    visitSeq form variant fields names rest

def deserializeSchemaProperties (form : SchemaForm) :
    SerdeValue → Reading (List (String × Schema))
  | .object m => enterDeserializeDepth form (visitProperties form [] m)
  | _ => enterDeserializeDepth form (throw (.invalidType "a map"))

/-- The loop over a map's entries, inserting into `properties`. -/
def visitProperties (form : SchemaForm) (properties : List (String × Schema)) :
    List (String × SerdeValue) → Reading (List (String × Schema))
  | [] => pure properties
  | (key, value) :: rest => do
    let schema ← deserialize form value
    visitProperties form (Assoc.insert key schema properties) rest

def deserializeSchemaList (form : SchemaForm) : SerdeValue → Reading (List Schema)
  | .array xs => enterDeserializeDepth form (visitSchemas form xs)
  | _ => enterDeserializeDepth form (throw (.invalidType "a sequence"))

def visitSchemas (form : SchemaForm) : List SerdeValue → Reading (List Schema)
  | [] => pure []
  | value :: rest => do
    let schema ← deserialize form value
    let schemas ← visitSchemas form rest
    return schema :: schemas

end

end Deserialize

section Conversion

mutual

/-- `impl From<SchemaDefinitionDto> for Schema` -/
def ofDto : SchemaDefinitionDto → Schema
  | .string minLength maxLength pattern enumValues =>
    .string minLength maxLength pattern enumValues
  | .integer minimum maximum => .integer minimum maximum
  | .number minimum maximum => .number minimum maximum
  | .boolean => .boolean
  | .null => .null
  | .array items minItems maxItems uniqueItems =>
    .array (ofDtoItems items) minItems maxItems uniqueItems
  | .object properties required additionalProperties =>
    .object (ofDtoProperties properties) required additionalProperties
  | .oneOf schemas => .oneOf (ofDtoList schemas)
  | .allOf schemas => .allOf (ofDtoList schemas)
  | .any => .any

def ofDtoItems : Option SchemaDefinitionDto → Option Schema
  | some dto => some (ofDto dto)
  | none => none

def ofDtoProperties : List (String × SchemaDefinitionDto) → List (String × Schema)
  | [] => []
  | (key, dto) :: rest => (key, ofDto dto) :: ofDtoProperties rest

def ofDtoList : List SchemaDefinitionDto → List Schema
  | [] => []
  | dto :: rest => ofDto dto :: ofDtoList rest

end

end Conversion

end Schema

namespace SchemaDefinitionDto

mutual

/-- `impl From<&Schema> for SchemaDefinitionDto` -/
def ofSchema : Schema → SchemaDefinitionDto
  | .string minLength maxLength pattern allowedValues =>
    .string minLength maxLength pattern allowedValues
  | .integer minimum maximum => .integer minimum maximum
  | .number minimum maximum => .number minimum maximum
  | .boolean => .boolean
  | .null => .null
  | .array items minItems maxItems uniqueItems =>
    .array (ofSchemaItems items) minItems maxItems uniqueItems
  | .object properties required additionalProperties =>
    .object (ofSchemaProperties properties) required additionalProperties
  | .oneOf schemas => .oneOf (ofSchemaList schemas)
  | .allOf schemas => .allOf (ofSchemaList schemas)
  | .any => .any

def ofSchemaItems : Option Schema → Option SchemaDefinitionDto
  | some schema => some (ofSchema schema)
  | none => none

def ofSchemaProperties : List (String × Schema) → List (String × SchemaDefinitionDto)
  | [] => []
  | (key, schema) :: rest => (key, ofSchema schema) :: ofSchemaProperties rest

def ofSchemaList : List Schema → List SchemaDefinitionDto
  | [] => []
  | schema :: rest => ofSchema schema :: ofSchemaList rest

end

/-- The transfer object has the fields of the schema, under the names of its own form. -/
def serialize (dto : SchemaDefinitionDto) : SerdeValue :=
  Schema.serialize .definitionDto (.ofDto dto)

def deserialize (value : SerdeValue) : Schema.Reading SchemaDefinitionDto :=
  ofSchema <$> Schema.deserialize .definitionDto value

end SchemaDefinitionDto

end PJS
