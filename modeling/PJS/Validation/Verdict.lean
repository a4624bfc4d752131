import PJS.Validation.Service

/-! What validation answers, without the state and the errors: `accepts levels` is validation with
`levels` nested schemas to go. The service decides exactly this, whatever its cache holds. -/
namespace PJS.ValidationService
open JsonData (partialEq hashTokens)
open Check

section Verdict
variable (rt : Runtime) (svc : ValidationService)

/-- The inclusive range check of all the bounds. -/
def inRange {β : Type} [LT β] [DecidableLT β] (value : β) (minimum maximum : Option β) : Bool :=
  !(minimum.any fun min => value < min) && !(maximum.any fun max => value > max)

def acceptsFloat (value : Float) (minimum maximum : Option Float) : Bool :=
  !(value.isNaN || value.isInf) && inRange value minimum maximum

def acceptsPattern (value pat : String) : Bool :=
  decide (pat.utf8ByteSize ≤ svc.maxPatternLength) &&
    match rt.buildRegex pat with
    | .ok re => rt.isMatch re value
    | .error _ => false

def acceptsText (value : String) (minLength maxLength : Option ℕ) (pattern : Option String)
    (allowedValues : Option (List String)) : Bool :=
  inRange value.length minLength maxLength &&
    !(allowedValues.any fun allowed => !allowed.any (· == value)) &&
    pattern.all (acceptsPattern rt svc value)

def duplicates (item s : JsonData) : Bool :=
  decide (rt.digest (hashTokens item) = rt.digest (hashTokens s)) && partialEq item s

def acceptsUnique (seen : List JsonData) : List JsonData → Bool
  | [] => true
  | item :: rest => !seen.any (duplicates rt item) && acceptsUnique (item :: seen) rest

section Deeper
variable (deeper : JsonData → Schema → Bool)

def acceptsItems (arr : List JsonData) (items : Option Schema) (minItems maxItems : Option ℕ)
    (uniqueItems : Bool) : Bool :=
  inRange arr.length minItems maxItems && (!uniqueItems || acceptsUnique rt [] arr) &&
    items.all fun itemSchema => arr.all fun item => deeper item itemSchema

def acceptsProperty (properties : List (String × Schema)) (additionalProperties : Bool)
    (e : String × JsonData) : Bool :=
  match properties.lookup e.1 with
  | some propSchema => deeper e.2 propSchema
  | none => additionalProperties

def acceptsEntries (obj : List (String × JsonData)) (properties : List (String × Schema))
    (required : List String) (additionalProperties : Bool) : Bool :=
  (required.all fun field => (obj.lookup field).isSome) &&
    obj.all (acceptsProperty deeper properties additionalProperties)

def acceptsOneOf (data : JsonData) (schemas : List Schema) : Bool :=
  schemas.countP (deeper data) == 1

def acceptsAllOf (data : JsonData) (schemas : List Schema) : Bool :=
  schemas.all (deeper data)

end Deeper

def accepts : ℕ → JsonData → Schema → Bool
  | 0, _, _ => false
  | levels + 1, data, schema =>
    match schema, data with
    | .any, _ => true
    | .null, .null => true
    | .boolean, .bool _ => true
    | .integer minimum maximum, .integer value => inRange value minimum maximum
    | .number minimum maximum, .float value => acceptsFloat value minimum maximum
    | .number minimum maximum, .integer value => acceptsFloat (asFloat value) minimum maximum
    | .string minLength maxLength pattern allowedValues, .string value =>
      acceptsText rt svc value minLength maxLength pattern allowedValues
    | .array items minItems maxItems uniqueItems, .array arr =>
      acceptsItems rt (accepts levels) arr items minItems maxItems uniqueItems
    | .object properties required additionalProperties, .object obj =>
      acceptsEntries (accepts levels) obj properties required additionalProperties
    | .oneOf schemas, data => acceptsOneOf (accepts levels) data schemas
    | .allOf schemas, data => acceptsAllOf (accepts levels) data schemas
    | _, _ => false

end Verdict

section Leaves
variable {rt : Runtime} {svc : ValidationService} {path : String}

theorem decides_mismatch (data : JsonData) (expected : String) :
    Decides (mismatch rt data path expected : Validation rt Unit) false :=
  decides_throw _

theorem decides_validateFloat (value : Float) (minimum maximum : Option Float) :
    Decides (validateFloat rt value path minimum maximum) (acceptsFloat value minimum maximum) :=
  (decides_ensure _ _).seq ((decides_rejectSome _ _ _).seq (decides_rejectSome _ _ _))

/-- A lookup answers what the pattern compiles to, found in the cache or not. -/
theorem yields_cachedRegex (pat : String) : Yields (cachedRegex rt path pat)
    ((rt.buildRegex pat).mapError fun reason => .invalidPattern path pat reason) := by
  intro cache
  rw [cachedRegex, exec_bind, exec_modify]
  simp only [exec_bind, exec_get]
  cases hget : cache.evict.entries.get? pat with
  | some re => exact (congrArg (Except.mapError _) (cache.evict.compiled pat re hget)).symm
  | none =>
    dsimp only
    split
    · rename_i re h
      exact (congrArg (Except.mapError _) h).symm
    · rename_i reason h
      exact (congrArg (Except.mapError _) h).symm

theorem decides_validatePattern (value pat : String) :
    Decides (validatePattern rt svc value path pat) (acceptsPattern rt svc value pat) := by
  have hcache : Yields (cachedRegex rt path pat) _ := yields_cachedRegex pat
  refine (decides_ensure _ _).seq ?_
  cases h : rt.buildRegex pat with
  | ok re =>
    rw [h] at hcache
    exact Decides.after hcache (decides_ensure _ _)
  | error reason =>
    rw [h] at hcache
    exact ⟨_, hcache.bind_error, rfl⟩

theorem decides_validateUnique (seen arr : List JsonData) :
    Decides (validateUnique rt path seen arr) (acceptsUnique rt seen arr) := by
  induction arr generalizing seen with
  | nil => exact decides_pure
  | cons item arr ih => exact (decides_ensure _ _).seq (ih (item :: seen))

theorem decides_validateNull (data : JsonData) (levels : ℕ) :
    Decides (validateNull rt data path) (accepts rt svc (levels + 1) data .null) := by
  rcases data with (_ | b | i | f | t) | arr | obj
  case scalar.null => exact decides_pure
  all_goals exact decides_mismatch _ _

theorem decides_validateBoolean (data : JsonData) (levels : ℕ) :
    Decides (validateBoolean rt data path) (accepts rt svc (levels + 1) data .boolean) := by
  rcases data with (_ | b | i | f | t) | arr | obj
  case scalar.bool => exact decides_pure
  all_goals exact decides_mismatch _ _

theorem decides_validateInteger (data : JsonData) (minimum maximum : Option Int64) (levels : ℕ) :
    Decides (validateInteger rt data path minimum maximum)
      (accepts rt svc (levels + 1) data (.integer minimum maximum)) := by
  rcases data with (_ | b | i | f | t) | arr | obj
  case scalar.integer => exact (decides_rejectSome _ _ _).seq (decides_rejectSome _ _ _)
  all_goals exact decides_mismatch _ _

theorem decides_validateNumber (data : JsonData) (minimum maximum : Option Float) (levels : ℕ) :
    Decides (validateNumber rt data path minimum maximum)
      (accepts rt svc (levels + 1) data (.number minimum maximum)) := by
  rcases data with (_ | b | i | f | t) | arr | obj
  case scalar.integer => exact decides_validateFloat _ _ _
  case scalar.float => exact decides_validateFloat _ _ _
  all_goals exact decides_mismatch _ _

theorem decides_pattern (rt : Runtime) (svc : ValidationService) (path value : String)
    (pattern : Option String) :
    Decides
      (match pattern with
        | some pat => validatePattern rt svc value path pat
        | none => pure ()) (pattern.all (acceptsPattern rt svc value)) := by
  cases pattern with
  | none => exact decides_pure
  | some pat => exact decides_validatePattern value pat

theorem decides_validateString (data : JsonData) (minLength maxLength : Option ℕ)
    (pattern : Option String) (allowedValues : Option (List String)) (levels : ℕ) :
    Decides (validateString rt svc data path minLength maxLength pattern allowedValues)
      (accepts rt svc (levels + 1) data (.string minLength maxLength pattern allowedValues)) := by
  rcases data with (_ | b | i | f | value) | arr | obj
  case scalar.string =>
    have h := (decides_rejectSome minLength (fun min => value.length < min) fun min =>
        .stringLengthConstraint path value.length min (maxLength.getD usizeMax)).seq
      ((decides_rejectSome maxLength (fun max => value.length > max) fun max =>
        .stringLengthConstraint path value.length (minLength.getD 0) max).seq
      ((decides_rejectSome allowedValues (fun allowed => !allowed.any (· == value)) fun _ =>
        .invalidEnumValue path value).seq
      (decides_pattern rt svc path value pattern)))
    rw [← Bool.and_assoc, ← Bool.and_assoc] at h
    exact h
  all_goals exact decides_mismatch _ _

end Leaves

section Deeper
variable {rt : Runtime} {svc : ValidationService} {path : String}
variable {validate : JsonData → Schema → String → Validation rt Unit}
variable {levels : ℕ}
variable (h : ∀ data schema path, Decides (validate data schema path)
  (accepts rt svc levels data schema))

include h

theorem decides_validateArray (data : JsonData) (items : Option Schema)
    (minItems maxItems : Option ℕ) (uniqueItems : Bool) :
    Decides (validateArray rt validate data path items minItems maxItems uniqueItems)
      (accepts rt svc (levels + 1) data (.array items minItems maxItems uniqueItems)) := by
  rcases data with (_ | b | i | f | t) | arr | obj
  case array =>
    have hunique : Decides (if uniqueItems then validateUnique rt path [] arr else pure ())
        (!uniqueItems || acceptsUnique rt [] arr) := by
      cases uniqueItems with
      | false => exact decides_pure
      | true => exact decides_validateUnique [] arr
    have hitems : Decides
        (match items with
          | some itemSchema => forM arr.zipIdx (validateItem rt validate path itemSchema)
          | none => pure ())
        (items.all fun itemSchema => arr.all fun item => accepts rt svc levels item itemSchema) := by
      cases items with
      | none => exact decides_pure
      | some itemSchema =>
        have hall : Decides (forM arr.zipIdx (validateItem rt validate path itemSchema))
            (arr.zipIdx.all fun e => accepts rt svc levels e.1 itemSchema) :=
          Decides.forM fun e _ => h e.1 itemSchema _
        have hfst : (arr.zipIdx.all fun e => accepts rt svc levels e.1 itemSchema) =
            arr.all fun item => accepts rt svc levels item itemSchema := by
          conv_rhs => rw [← List.zipIdx_map_fst 0 arr]
          rw [List.all_map]
          rfl
        rw [hfst] at hall
        exact hall
    have hlen := (decides_rejectSome minItems (fun min => arr.length < min) fun min =>
        .arraySizeConstraint path arr.length min (maxItems.getD usizeMax)).seq
      ((decides_rejectSome maxItems (fun max => arr.length > max) fun max =>
        .arraySizeConstraint path arr.length (minItems.getD 0) max).seq (hunique.seq hitems))
    rw [← Bool.and_assoc, ← Bool.and_assoc] at hlen
    exact hlen
  all_goals exact decides_mismatch _ _

theorem decides_validateObject (data : JsonData) (properties : List (String × Schema))
    (required : List String) (additionalProperties : Bool) :
    Decides (validateObject rt validate data path properties required additionalProperties)
      (accepts rt svc (levels + 1) data (.object properties required additionalProperties)) := by
  rcases data with (_ | b | i | f | t) | arr | obj
  case object =>
    have hentry : ∀ e ∈ obj, Decides
        (validateProperty rt validate path properties additionalProperties e)
        (acceptsProperty (accepts rt svc levels) properties additionalProperties e) := by
      intro e _
      unfold validateProperty acceptsProperty
      cases properties.lookup e.1 with
      | none => exact decides_ensure _ _
      | some propSchema => exact h _ _ _
    exact (Decides.forM fun field _ => decides_ensure _ _).seq (Decides.forM hentry)
  all_goals exact decides_mismatch _ _

theorem decides_matchOneOf (data : JsonData) (schemas : List Schema) (matchCount : ℕ)
    (hcount : matchCount ≤ 1) : Decides (matchOneOf rt validate data path schemas matchCount)
      (matchCount + schemas.countP (accepts rt svc levels data) == 1) := by
  induction schemas generalizing matchCount with
  | nil => exact decides_ensure _ _
  | cons schema schemas ih =>
    refine Decides.after (yields_succeeds (h data schema path)) ?_
    rw [List.countP_cons]
    cases hok : accepts rt svc levels data schema with
    | false => simpa using ih matchCount hcount
    | true =>
      by_cases hm : matchCount + 1 > 1
      · have hfalse : (matchCount + (schemas.countP (accepts rt svc levels data) + 1) == 1) = false := by
          rw [beq_eq_false_iff_ne]
          omega
        simpa [hm, hfalse] using decides_throw (SchemaValidationError.noMatchingOneOf path)
      · have hzero : matchCount = 0 := by omega
        subst hzero
        simpa [Nat.add_comm] using ih 1 le_rfl

theorem yields_failuresAllOf (data : JsonData) (schemas : List (Schema × ℕ)) :
    Yields (failuresAllOf rt validate data path schemas)
      (.ok ((schemas.filter fun e => !accepts rt svc levels data e.1).map Prod.snd)) := by
  induction schemas with
  | nil => exact yields_pure []
  | cons e schemas ih =>
    obtain ⟨schema, i⟩ := e
    refine (yields_succeeds (h data schema path)).bind (ih.bind ?_)
    cases hok : accepts rt svc levels data schema <;> simpa [hok] using yields_pure _

theorem decides_validateAllOf (data : JsonData) (schemas : List Schema) :
    Decides (validateAllOf rt validate data path schemas)
      (accepts rt svc (levels + 1) data (.allOf schemas)) := by
  refine Decides.after (yields_failuresAllOf h data schemas.zipIdx) ?_
  have hempty : ((schemas.zipIdx.filter fun e => !accepts rt svc levels data e.1).map
      Prod.snd).isEmpty = schemas.all (accepts rt svc levels data) := by
    rw [Bool.eq_iff_iff, List.isEmpty_iff, List.map_eq_nil_iff, List.filter_eq_nil_iff,
      List.all_eq_true]
    conv_rhs => rw [← List.zipIdx_map_fst 0 schemas]
    simp only [List.forall_mem_map, Bool.not_eq_true', Bool.not_eq_false]
  rw [accepts, acceptsAllOf, ← hempty]
  exact decides_ensure _ _

end Deeper

variable {rt : Runtime} {svc : ValidationService}

/-- Validation at some depth decides the verdict of the levels left. -/
theorem decides_validateWithDepth (levels : ℕ) (data : JsonData) (schema : Schema) (path : String)
    (depth : ℕ) (hd : depth + levels = svc.maxDepth + 1) :
    Decides (validateWithDepth rt svc data schema path depth) (accepts rt svc levels data schema) := by
  induction levels generalizing data schema path depth with
  | zero =>
    rw [validateWithDepth, dif_pos (by omega)]
    exact decides_throw _
  | succ levels ih =>
    have h : ∀ data schema path, Decides (validateWithDepth rt svc data schema path (depth + 1))
        (accepts rt svc levels data schema) :=
      fun data schema path => ih data schema path (depth + 1) (by omega)
    rw [validateWithDepth, dif_neg (by omega)]
    cases schema with
    | any => exact decides_pure
    | null => exact decides_validateNull data levels
    | boolean => exact decides_validateBoolean data levels
    | integer minimum maximum => exact decides_validateInteger data minimum maximum levels
    | number minimum maximum => exact decides_validateNumber data minimum maximum levels
    | string minLength maxLength pattern allowedValues =>
      exact decides_validateString data minLength maxLength pattern allowedValues levels
    | array items minItems maxItems uniqueItems =>
      exact decides_validateArray h data items minItems maxItems uniqueItems
    | object properties required additionalProperties =>
      exact decides_validateObject h data properties required additionalProperties
    | oneOf schemas =>
      have hone : Decides (matchOneOf rt _ data path schemas 0) _ :=
        decides_matchOneOf h data schemas 0 (Nat.zero_le 1)
      rw [Nat.zero_add] at hone
      exact hone
    | allOf schemas => exact decides_validateAllOf h data schemas

/-- The verdict of some levels does not look at the configured depth. -/
theorem accepts_withMaxDepth (maxDepth levels : ℕ) :
    accepts rt (svc.withMaxDepth maxDepth) levels = accepts rt svc levels := by
  induction levels with
  | zero => rfl
  | succ levels ih =>
    funext data schema
    simp only [accepts, ih]
    rfl

/-- A service validates a value exactly if the verdict of its whole depth is positive, whatever
its cache holds. -/
theorem validate_eq_ok_iff (data : JsonData) (schema : Schema) (path : String)
    (cache : RegexCache rt) : (exec (validate rt svc data schema path) cache).1 = .ok () ↔
      accepts rt svc (svc.maxDepth + 1) data schema = true :=
  (decides_validateWithDepth (svc.maxDepth + 1) data schema path 0 (Nat.zero_add _)).eq_ok_iff cache

end PJS.ValidationService
