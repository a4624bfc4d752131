import PJS.Validation.SchemaSerde

/-! What becomes of a schema that is written and read again, and what a document is that is read as
a schema. The guards are left again on every way out. -/
namespace PJS

namespace Schema

open Check (Needs Keeps needs_pure keeps_pure keeps_throw keeps_ofExcept within)
open JsonData (maxDeserializeDepth)

/-- Induction with one hypothesis per item, property and alternative. -/
@[elab_as_elim] theorem induction {P : Schema → Prop}
    (string : ∀ a b p v, P (.string a b p v)) (integer : ∀ a b, P (.integer a b))
    (number : ∀ a b, P (.number a b)) (boolean : P .boolean) (null : P .null)
    (array : ∀ items a b u, (∀ s ∈ items, P s) → P (.array items a b u))
    (object : ∀ properties r a, (∀ k s, (k, s) ∈ properties → P s) → P (.object properties r a))
    (oneOf : ∀ schemas, (∀ s ∈ schemas, P s) → P (.oneOf schemas))
    (allOf : ∀ schemas, (∀ s ∈ schemas, P s) → P (.allOf schemas)) (any : P .any)
    (schema : Schema) : P schema :=
  @Schema.rec P (fun items => ∀ s ∈ items, P s) (fun properties => ∀ k s, (k, s) ∈ properties → P s)
    (fun schemas => ∀ s ∈ schemas, P s) (fun e => P e.2)
    string integer number boolean null (fun items a b u h => array items a b u h)
    (fun properties r a h => object properties r a h) oneOf allOf any (by simp)
    (fun s hs t ht => by
      obtain rfl : s = t := Option.some.inj ht
      exact hs)
    (by simp)
    (fun e m he hm k s hs => by
      rcases List.mem_cons.mp hs with rfl | hs
      · exact he
      · exact hm k s hs)
    (by simp)
    (fun s schemas hs hschemas t ht => by
      rcases List.mem_cons.mp ht with rfl | ht
      · exact hs
      · exact hschemas t ht)
    (fun _ _ hs => hs) schema

section Levels

mutual

/-- How many guards are held at once while the schema is read. -/
def levels (form : SchemaForm) : Schema → ℕ
  | .array items _ _ _ => levelsItems form items
  | .object properties _ _ => levelsProperties form properties + 1
  | .oneOf schemas => levelsList form schemas + 1
  | .allOf schemas => levelsList form schemas + 1
  | _ => 0

/-- `items: null` is guarded as well. -/
def levelsItems (form : SchemaForm) : Option Schema → ℕ
  | some items => levels form items + 1
  | none => if form.skipsNone then 0 else 1

def levelsProperties (form : SchemaForm) : List (String × Schema) → ℕ
  | [] => 0
  | (_, schema) :: rest => max (levels form schema) (levelsProperties form rest)

def levelsList (form : SchemaForm) : List Schema → ℕ
  | [] => 0
  | schema :: rest => max (levels form schema) (levelsList form rest)

end

theorem levelsProperties_le {form : SchemaForm} {properties : List (String × Schema)} {n : ℕ} :
    levelsProperties form properties ≤ n ↔ ∀ k s, (k, s) ∈ properties → s.levels form ≤ n := by
  induction properties with
  | nil => simp [levelsProperties]
  | cons e rest ih =>
    obtain ⟨key, schema⟩ := e
    rw [levelsProperties, max_le_iff, ih]
    simp [or_imp, forall_and]

theorem levelsList_le {form : SchemaForm} {schemas : List Schema} {n : ℕ} :
    levelsList form schemas ≤ n ↔ ∀ s ∈ schemas, s.levels form ≤ n := by
  induction schemas with
  | nil => simp [levelsList]
  | cons schema rest ih => rw [levelsList, max_le_iff, ih, List.forall_mem_cons]

end Levels

/-- Lengths are of the machine, and an object has no property twice. -/
inductive Stored : Schema → Prop
  | string {a b : Option ℕ} (ha : ∀ n ∈ a, n < 2 ^ 64) (hb : ∀ n ∈ b, n < 2 ^ 64)
      (p : Option String) (v : Option (List String)) : Stored (.string a b p v)
  | integer (a b : Option Int64) : Stored (.integer a b)
  | number (a b : Option Float) : Stored (.number a b)
  | boolean : Stored .boolean
  | null : Stored .null
  | array {items : Option Schema} {a b : Option ℕ} (h : ∀ s ∈ items, Stored s)
      (ha : ∀ n ∈ a, n < 2 ^ 64) (hb : ∀ n ∈ b, n < 2 ^ 64) (u : Bool) :
      Stored (.array items a b u)
  | object {properties : List (String × Schema)} (hk : (properties.map Prod.fst).Nodup)
      (h : ∀ k s, (k, s) ∈ properties → Stored s) (r : List String) (a : Bool) :
      Stored (.object properties r a)
  | oneOf {schemas : List Schema} (h : ∀ s ∈ schemas, Stored s) : Stored (.oneOf schemas)
  | allOf {schemas : List Schema} (h : ∀ s ∈ schemas, Stored s) : Stored (.allOf schemas)
  | any : Stored .any

section Written

/-- A bound that JSON cannot express is lost. -/
def writtenBound (bound : Option Float) : Option Float := bound.filter Float.isFinite

mutual

/-- What is left of a schema when it has been written. -/
def written : Schema → Schema
  | .number minimum maximum => .number (writtenBound minimum) (writtenBound maximum)
  | .array items a b u => .array (writtenItems items) a b u
  | .object properties r a => .object (writtenProperties properties) r a
  | .oneOf schemas => .oneOf (writtenList schemas)
  | .allOf schemas => .allOf (writtenList schemas)
  | schema => schema

def writtenItems : Option Schema → Option Schema
  | some items => some (written items)
  | none => none

def writtenProperties : List (String × Schema) → List (String × Schema)
  | [] => []
  | (key, schema) :: rest => (key, written schema) :: writtenProperties rest

def writtenList : List Schema → List Schema
  | [] => []
  | schema :: rest => written schema :: writtenList rest

end

theorem keys_writtenProperties (properties : List (String × Schema)) :
    (writtenProperties properties).map Prod.fst = properties.map Prod.fst := by
  induction properties with
  | nil => rfl
  | cons e rest ih => rw [writtenProperties, List.map_cons, ih, List.map_cons]

end Written

section RoundTrip
variable {form : SchemaForm} {α β : Type}

/-- Reading `v` needs that many guards. -/
abbrev Reads (form : SchemaForm) (v : Reading α) (need : ℕ) (a : α) : Prop :=
  Needs maxDeserializeDepth (nestingExceeded form) v need a

theorem deserializeUsize_natural {n : ℕ} (h : n < 2 ^ 64) :
    deserializeOption deserializeUsize (natural n) = .ok (some n) := by
  have hread := @deserializeUnsigned_posInt n (2 ^ 64 - 1) (by omega) (by decide)
  exact congrArg (fun r : Except DeError ℕ => r.map some) hread

theorem deserializeI64_serializeI64 (i : Int64) :
    deserializeOption deserializeI64 (serializeI64 i) = .ok (some i) := by
  rw [serializeI64, JsonData.serializeScalar]
  split_ifs with hi
  · have hle : i.toUInt64.toNat ≤ 9223372036854775807 := by
      rw [Int64.toNat_toUInt64_of_le hi]
      have hlt := i.toInt_lt
      unfold Int64.toNatClampNeg
      omega
    simp only [deserializeOption, deserializeI64, hle, if_true, Int64.toInt64_toUInt64]
    rfl
  · rfl

theorem deserializeF64_serializeF64 (f : Float) :
    deserializeOption deserializeF64 (serializeF64 f) =
      .ok (if f.isFinite then some f else none) := by
  rw [serializeF64, JsonData.serializeScalar]
  split_ifs
  · rfl
  · rfl

theorem mapM_text (values : List String) :
    (values.map text).mapM deserializeString = .ok values := by
  induction values with
  | nil => rfl
  | cons value rest ih =>
    rw [List.map_cons, List.mapM_cons, ih]
    rfl

/-- An optional field leaves its slot with what was written, and the rest of the fields to be
read. -/
theorem visitMap_option {variant : SchemaVariant} {fields : Fields} {name : String} {x : Option α}
    {enc : α → SerdeValue} {read : α → Option β} {put : Option (Option β) → Fields}
    (hnone : put none = fields)
    (hsome : ∀ a ∈ x, ∀ items properties schemas,
      fields.visit form variant name (enc a) items properties schemas = pure (put (some (read a))))
    (hnull : ∀ items properties schemas,
      fields.visit form variant name (.scalar .null) items properties schemas =
        pure (put (some none))) (rest : List (String × SerdeValue)) :
    ∃ slot : Option (Option β), slot.join = x.bind read ∧
      visitMap form variant fields (serializeOption form name (x.map enc) ++ rest) =
        visitMap form variant (put slot) rest := by
  cases x with
  | some a =>
    refine ⟨some (read a), rfl, ?_⟩
    rw [Option.map_some, serializeOption, List.singleton_append, visitMap, hsome a rfl, pure_bind]
  | none =>
    rw [Option.map_none, serializeOption]
    by_cases h : form.skipsNone
    · exact ⟨none, rfl, by rw [if_pos h, List.nil_append, hnone]⟩
    · refine ⟨some none, rfl, ?_⟩
      rw [if_neg h, List.singleton_append, visitMap, hnull, pure_bind]

/-- A variant with fields is read from them. -/
theorem deserialize_serializeVariant {variant : SchemaVariant} (hunit : variant.unit = none)
    (fields : List (String × SerdeValue)) :
    deserialize form (serializeVariant variant fields) =
      visitMap form variant .none fields >>= fun read => ofExcept (read.build form variant) := by
  have hname : SchemaVariant.ofName variant.name = .ok variant := by cases variant <;> rfl
  rw [serializeVariant, deserialize, hname]
  change (match variant.unit with
    | some schema => _
    | none => deserializeContent form variant (.object fields)) = _
  rw [hunit]
  rfl

theorem optional_none {name : String} {read : SerdeValue → Except DeError α} {value : SerdeValue}
    {a : Option α} (h : deserializeOption read value = .ok a) :
    Fields.optional name none read value = pure (some a) := by
  rw [Fields.optional, h]
  rfl

theorem optional_texts (values : List String) :
    deserializeOption deserializeTexts (.array (values.map text)) = .ok (some values) :=
  congrArg (fun r : Except DeError (List String) => r.map some) (mapM_text values)

theorem reads_string {a b : Option ℕ} (ha : ∀ n ∈ a, n < 2 ^ 64) (hb : ∀ n ∈ b, n < 2 ^ 64)
    (p : Option String) (v : Option (List String)) :
    Reads form (deserialize form (serialize form (.string a b p v))) 0 (.string a b p v) := by
  obtain ⟨slot₁, h₁, hrun₁⟩ := @visitMap_option form _ _ .string .none "min_length" a natural some
    (fun slot => { Fields.none with minLength := slot }) rfl
    (fun n hn _ _ _ => by
      simp only [Fields.visit, Fields.none, optional_none (deserializeUsize_natural (ha n hn)),
        if_true, pure_bind])
    (fun _ _ _ => rfl)
    (serializeOption form "max_length" (b.map natural) ++
      (serializeOption form "pattern" (p.map text) ++
        (serializeOption form form.allowedValues (v.map fun values => .array (values.map text)) ++
          [])))
  obtain ⟨slot₂, h₂, hrun₂⟩ := @visitMap_option form _ _ .string
    { Fields.none with minLength := slot₁ } "max_length" b natural some
    (fun slot => { Fields.none with minLength := slot₁, maxLength := slot }) rfl
    (fun n hn _ _ _ => by
      simp only [Fields.visit, Fields.none, optional_none (deserializeUsize_natural (hb n hn)),
        String.reduceEq, if_false, if_true, pure_bind])
    (fun _ _ _ => rfl)
    (serializeOption form "pattern" (p.map text) ++
      (serializeOption form form.allowedValues (v.map fun values => .array (values.map text)) ++
        []))
  obtain ⟨slot₃, h₃, hrun₃⟩ := @visitMap_option form _ _ .string
    { Fields.none with minLength := slot₁, maxLength := slot₂ } "pattern" p text some
    (fun slot => { Fields.none with minLength := slot₁, maxLength := slot₂, pattern := slot }) rfl
    (fun _ _ _ _ _ => rfl) (fun _ _ _ => rfl)
    (serializeOption form form.allowedValues (v.map fun values => .array (values.map text)) ++ [])
  obtain ⟨slot₄, h₄, hrun₄⟩ := @visitMap_option form _ _ .string
    { Fields.none with minLength := slot₁, maxLength := slot₂, pattern := slot₃ }
    form.allowedValues v (fun values => .array (values.map text)) some
    (fun slot => { Fields.none with
      minLength := slot₁, maxLength := slot₂, pattern := slot₃, allowedValues := slot }) rfl
    (fun values _ _ _ _ => by
      cases form <;>
        simp only [Fields.visit, Fields.none, SchemaForm.allowedValues, String.reduceEq, if_false,
          if_true, optional_none (optional_texts values), pure_bind])
    (fun _ _ _ => by cases form <;> rfl) []
  rw [serialize, deserialize_serializeVariant rfl, List.append_assoc, List.append_assoc,
    ← List.append_nil (serializeOption form form.allowedValues _), hrun₁, hrun₂, hrun₃, hrun₄,
    visitMap, pure_bind]
  simp only [Fields.build, h₁, h₂, h₃, h₄, Option.bind_fun_some]
  exact needs_pure _

theorem reads_integer (a b : Option Int64) :
    Reads form (deserialize form (serialize form (.integer a b))) 0 (.integer a b) := by
  obtain ⟨slot₁, h₁, hrun₁⟩ := @visitMap_option form _ _ .integer .none "minimum" a serializeI64 some
    (fun slot => { Fields.none with minimum := slot }) rfl
    (fun i _ _ _ _ => by
      simp only [Fields.visit, Fields.none, optional_none (deserializeI64_serializeI64 i), if_true,
        pure_bind])
    (fun _ _ _ => rfl) (serializeOption form "maximum" (b.map serializeI64) ++ [])
  obtain ⟨slot₂, h₂, hrun₂⟩ := @visitMap_option form _ _ .integer
    { Fields.none with minimum := slot₁ } "maximum" b serializeI64 some
    (fun slot => { Fields.none with minimum := slot₁, maximum := slot }) rfl
    (fun i _ _ _ _ => by
      simp only [Fields.visit, Fields.none, optional_none (deserializeI64_serializeI64 i),
        String.reduceEq, if_false, if_true, pure_bind])
    (fun _ _ _ => rfl) []
  rw [serialize, deserialize_serializeVariant rfl,
    ← List.append_nil (serializeOption form "maximum" _), hrun₁, hrun₂, visitMap, pure_bind]
  simp only [Fields.build, h₁, h₂, Option.bind_fun_some]
  exact needs_pure _

theorem bind_isFinite (bound : Option Float) :
    (bound.bind fun f => if f.isFinite then some f else none) = writtenBound bound := by
  cases bound <;> rfl

theorem reads_number (a b : Option Float) :
    Reads form (deserialize form (serialize form (.number a b))) 0
      (.number (writtenBound a) (writtenBound b)) := by
  obtain ⟨slot₁, h₁, hrun₁⟩ := @visitMap_option form _ _ .number .none "minimum" a serializeF64
    (fun f => if f.isFinite then some f else none)
    (fun slot => { Fields.none with minimumF64 := slot }) rfl
    (fun f _ _ _ _ => by
      simp only [Fields.visit, Fields.none, optional_none (deserializeF64_serializeF64 f), if_true,
        pure_bind])
    (fun _ _ _ => rfl) (serializeOption form "maximum" (b.map serializeF64) ++ [])
  obtain ⟨slot₂, h₂, hrun₂⟩ := @visitMap_option form _ _ .number
    { Fields.none with minimumF64 := slot₁ } "maximum" b serializeF64
    (fun f => if f.isFinite then some f else none)
    (fun slot => { Fields.none with minimumF64 := slot₁, maximumF64 := slot }) rfl
    (fun f _ _ _ _ => by
      simp only [Fields.visit, Fields.none, optional_none (deserializeF64_serializeF64 f),
        String.reduceEq, if_false, if_true, pure_bind])
    (fun _ _ _ => rfl) []
  rw [serialize, deserialize_serializeVariant rfl,
    ← List.append_nil (serializeOption form "maximum" _), hrun₁, hrun₂, visitMap, pure_bind]
  simp only [Fields.build, h₁, h₂, bind_isFinite]
  exact needs_pure _

theorem deserializeBoxedSchemaOption_serialize (read : Reading Schema) (schema : Schema) :
    deserializeBoxedSchemaOption form read (serialize form schema) =
      enterDeserializeDepth form (some <$> read) := by
  cases schema <;> rfl

section Visits
variable (value : SerdeValue) (items : Reading (Option Schema))
  (properties : Reading (List (String × Schema))) (schemas : Reading (List Schema))

theorem visit_items : Fields.none.visit form .array "items" value items properties schemas =
    (fun read => { Fields.none with items := some read }) <$> items := by
  change (some <$> items >>= fun slot => pure { Fields.none with items := slot }) = _
  rw [bind_map_left, map_eq_pure_bind]

theorem visit_properties :
    Fields.none.visit form .object "properties" value items properties schemas =
      (fun read => { Fields.none with properties := some read }) <$> properties := by
  change (some <$> properties >>= fun slot => pure { Fields.none with properties := slot }) = _
  rw [bind_map_left, map_eq_pure_bind]

theorem visit_schemas {variant : SchemaVariant} (h : variant = .oneOf ∨ variant = .allOf) :
    Fields.none.visit form variant "schemas" value items properties schemas =
      (fun read => { Fields.none with schemas := some read }) <$> schemas := by
  have hvisit : Fields.none.visit form variant "schemas" value items properties schemas =
      some <$> schemas >>= fun slot => pure { Fields.none with schemas := slot } := by
    rcases h with rfl | rfl <;> rfl
  rw [hvisit, bind_map_left, map_eq_pure_bind]

end Visits

/-- The items come first, and the other fields are read from their slot on. -/
theorem reads_items {items : Option Schema}
    (h : ∀ s ∈ items, Reads form (deserialize form (serialize form s)) (s.levels form) s.written)
    (rest : List (String × SerdeValue)) :
    ∃ slot : Option (Option Schema), slot.join = writtenItems items ∧
      ∃ v : Reading Fields,
        Reads form v (levelsItems form items) { Fields.none with items := slot } ∧
        visitMap form .array .none
            (serializeOption form "items" (serializeItems form items) ++ rest) =
          v >>= fun fields => visitMap form .array fields rest := by
  cases items with
  | some schema =>
    have hfields := ((h schema rfl).map some).within.map fun read =>
      { Fields.none with items := some read }
    refine ⟨some (some schema.written), rfl, _, hfields, ?_⟩
    rw [serializeItems, serializeOption, List.singleton_append, visitMap, visit_items,
      deserializeBoxedSchemaOption_serialize]
    rfl
  | none =>
    rw [serializeItems, serializeOption, levelsItems]
    by_cases hskip : form.skipsNone
    · refine ⟨none, rfl, pure .none, ?_, ?_⟩
      · rw [if_pos hskip]
        exact needs_pure _
      · rw [if_pos hskip, List.nil_append, pure_bind]
    · have hread : Reads form (enterDeserializeDepth form (pure none)) 1 (none : Option Schema) :=
        (needs_pure _).within
      have hfields := hread.map fun read => { Fields.none with items := some read }
      rw [if_neg hskip, if_neg hskip]
      refine ⟨some none, rfl, _, hfields, ?_⟩
      rw [List.singleton_append, visitMap, visit_items]
      rfl

theorem reads_array {items : Option Schema} {a b : Option ℕ}
    (h : ∀ s ∈ items, Reads form (deserialize form (serialize form s)) (s.levels form) s.written)
    (ha : ∀ n ∈ a, n < 2 ^ 64) (hb : ∀ n ∈ b, n < 2 ^ 64) (u : Bool) :
    Reads form (deserialize form (serialize form (.array items a b u))) (levelsItems form items)
      (.array (writtenItems items) a b u) := by
  obtain ⟨slot, hslot, v, hv, hrun⟩ := reads_items h
    (serializeOption form "min_items" (a.map natural) ++
      (serializeOption form "max_items" (b.map natural) ++
        [("unique_items", .scalar (.bool u))]))
  obtain ⟨slot₁, h₁, hrun₁⟩ := @visitMap_option form _ _ .array { Fields.none with items := slot }
    "min_items" a natural some
    (fun slot₁ => { Fields.none with items := slot, minItems := slot₁ }) rfl
    (fun n hn _ _ _ => by
      simp only [Fields.visit, Fields.none, optional_none (deserializeUsize_natural (ha n hn)),
        String.reduceEq, if_false, if_true, pure_bind])
    (fun _ _ _ => rfl)
    (serializeOption form "max_items" (b.map natural) ++ [("unique_items", .scalar (.bool u))])
  obtain ⟨slot₂, h₂, hrun₂⟩ := @visitMap_option form _ _ .array
    { Fields.none with items := slot, minItems := slot₁ } "max_items" b natural some
    (fun slot₂ => { Fields.none with items := slot, minItems := slot₁, maxItems := slot₂ }) rfl
    (fun n hn _ _ _ => by
      simp only [Fields.visit, Fields.none, optional_none (deserializeUsize_natural (hb n hn)),
        String.reduceEq, if_false, if_true, pure_bind])
    (fun _ _ _ => rfl) [("unique_items", .scalar (.bool u))]
  rw [serialize, deserialize_serializeVariant rfl, List.append_assoc, List.append_assoc, hrun]
  refine (hv.andThen (b := { Fields.none with
    items := slot, minItems := slot₁, maxItems := slot₂, uniqueItems := some u }) ?_).andThen ?_
  · rw [hrun₁, hrun₂]
    exact needs_pure _
  · rw [← hslot, ← Option.bind_fun_some a, ← Option.bind_fun_some b, ← h₁, ← h₂]
    exact needs_pure _

theorem reads_properties {properties acc : List (String × Schema)}
    (h : ∀ k s, (k, s) ∈ properties →
      Reads form (deserialize form (serialize form s)) (s.levels form) s.written)
    (hk : ((acc ++ writtenProperties properties).map Prod.fst).Nodup) :
    Reads form (visitProperties form acc (serializeProperties form properties))
      (levelsProperties form properties) (acc ++ writtenProperties properties) := by
  rw [← Assoc.foldl_insert_eq hk]
  clear hk
  induction properties generalizing acc with
  | nil => exact needs_pure _
  | cons e rest ih =>
    obtain ⟨key, schema⟩ := e
    rw [serializeProperties, visitProperties, levelsProperties, writtenProperties]
    exact (h key schema (by simp)).bind (ih fun k s hs => h k s (by simp [hs]))

theorem reads_schemas {schemas : List Schema}
    (h : ∀ s ∈ schemas, Reads form (deserialize form (serialize form s)) (s.levels form) s.written) :
    Reads form (visitSchemas form (serializeList form schemas)) (levelsList form schemas)
      (writtenList schemas) := by
  induction schemas with
  | nil => exact needs_pure _
  | cons schema rest ih =>
    rw [serializeList, visitSchemas, levelsList, writtenList]
    exact (h schema (by simp)).bind ((ih fun s hs => h s (by simp [hs])).andThen (needs_pure _))

theorem reads_object {properties : List (String × Schema)}
    (h : ∀ k s, (k, s) ∈ properties →
      Reads form (deserialize form (serialize form s)) (s.levels form) s.written)
    (hk : (properties.map Prod.fst).Nodup) (r : List String) (a : Bool) :
    Reads form (deserialize form (serialize form (.object properties r a)))
      (levelsProperties form properties + 1) (.object (writtenProperties properties) r a) := by
  have hread := (@reads_properties form properties [] h (by
    rw [List.nil_append, keys_writtenProperties]
    exact hk)).within
  rw [List.nil_append, ← enterDeserializeDepth] at hread
  rw [serialize, deserialize_serializeVariant rfl, visitMap, visit_properties]
  refine ((hread.map _).andThen (b := { Fields.none with
    properties := some (writtenProperties properties), required := some r,
    additionalProperties := some a }) ?_).andThen (needs_pure _)
  have hrequired : deserializeTexts (.array (r.map text)) = .ok r := mapM_text r
  rw [visitMap]
  simp only [Fields.visit, String.reduceEq, if_false, if_true, hrequired, Fields.none]
  exact needs_pure _

/-- What is written is read back where enough levels are left, and refused as too deep where not. -/
theorem reads_serialize {schema : Schema} (h : schema.Stored) :
    Reads form (deserialize form (serialize form schema)) (schema.levels form) schema.written := by
  induction h with
  | string ha hb p v => exact reads_string ha hb p v
  | integer a b => exact reads_integer a b
  | number a b => exact reads_number a b
  | boolean => exact needs_pure _
  | null => exact needs_pure _
  | any => exact needs_pure _
  | array _ ha hb u ih => exact reads_array ih ha hb u
  | object hk _ r a ih => exact reads_object ih hk r a
  | oneOf _ ih =>
    rw [serialize, deserialize_serializeVariant rfl, visitMap, visit_schemas _ _ _ _ (Or.inl rfl)]
    exact (((reads_schemas ih).within.map _).andThen (needs_pure _)).andThen (needs_pure _)
  | allOf _ ih =>
    rw [serialize, deserialize_serializeVariant rfl, visitMap, visit_schemas _ _ _ _ (Or.inr rfl)]
    exact (((reads_schemas ih).within.map _).andThen (needs_pure _)).andThen (needs_pure _)

end RoundTrip

section Accepted
variable {form : SchemaForm} {α : Type}

/-- What is read with `room` levels left. An array without `items` costs no level. -/
def Fits (room : ℕ) (schema : Schema) : Prop :=
  schema.Stored ∧ schema.levels .definitionDto ≤ room

/-- The same for the values of the fields that hold schemas, one level down. -/
def ItemsFit (room : ℕ) (items : Option Schema) : Prop :=
  ∀ s ∈ items, s.Stored ∧ s.levels .definitionDto + 1 ≤ room

def PropertiesFit (room : ℕ) (properties : List (String × Schema)) : Prop :=
  (properties.map Prod.fst).Nodup ∧ (∀ k s, (k, s) ∈ properties → s.Stored) ∧
    levelsProperties .definitionDto properties + 1 ≤ room

def SchemasFit (room : ℕ) (schemas : List Schema) : Prop :=
  (∀ s ∈ schemas, s.Stored) ∧ levelsList .definitionDto schemas + 1 ≤ room

structure Fields.Fit (room : ℕ) (fields : Fields) : Prop where
  minLength : ∀ n ∈ fields.minLength.join, n < 2 ^ 64
  maxLength : ∀ n ∈ fields.maxLength.join, n < 2 ^ 64
  minItems : ∀ n ∈ fields.minItems.join, n < 2 ^ 64
  maxItems : ∀ n ∈ fields.maxItems.join, n < 2 ^ 64
  items : ItemsFit room fields.items.join
  properties : ∀ properties ∈ fields.properties, PropertiesFit room properties
  schemas : ∀ schemas ∈ fields.schemas, SchemasFit room schemas

theorem Fields.fit_none (room : ℕ) : Fields.none.Fit room where
  minLength := by rintro n ⟨⟩
  maxLength := by rintro n ⟨⟩
  minItems := by rintro n ⟨⟩
  maxItems := by rintro n ⟨⟩
  items := by rintro s ⟨⟩
  properties := by rintro properties ⟨⟩
  schemas := by rintro schemas ⟨⟩

/-- Reading keeps the counter. -/
abbrev Accepts (v : Reading α) (P : ℕ → α → Prop) : Prop := Keeps maxDeserializeDepth v P

theorem lt_of_deserializeUsize {value : SerdeValue} {x : Option ℕ}
    (h : deserializeOption deserializeUsize value = .ok x) : ∀ n ∈ x, n < 2 ^ 64 := by
  have hread : ∀ n, deserializeUsize value = .ok n → n < 2 ^ 64 := fun n hn => by
    unfold deserializeUsize deserializeUnsigned at hn
    split at hn
    · split_ifs at hn
      cases hn
      omega
    · cases hn
    · cases hn
  unfold deserializeOption at h
  split at h
  · cases h
    rintro n ⟨⟩
  · cases hvalue : deserializeUsize value with
    | error e =>
      rw [hvalue] at h
      cases h
    | ok n =>
      rw [hvalue] at h
      cases h
      rintro m ⟨⟩
      exact hread n hvalue

theorem accepts_ofExcept (r : Except DeError α) :
    Accepts (ofExcept r) fun _ _ => True :=
  keeps_ofExcept fun _ _ _ => trivial

theorem accepts_usize (value : SerdeValue) :
    Accepts (ofExcept (deserializeOption deserializeUsize value))
      fun _ x => ∀ n ∈ x, n < 2 ^ 64 :=
  keeps_ofExcept fun _ h _ => lt_of_deserializeUsize h

/-- A field goes into its slot. -/
theorem accepts_put {fields : Fields} {name : String} {slot : Option α} {read : Reading α}
    {P : ℕ → α → Prop} {put : Option α → Fields} (h : Accepts read P)
    (hput : ∀ room a, P room a → fields.Fit room → (put (some a)).Fit room) :
    Accepts (Fields.once name slot read >>= fun slot => pure (put slot))
      fun room read => fields.Fit room → read.Fit room := by
  rw [Fields.once]
  split_ifs
  · exact (keeps_throw _ : Accepts _ fun _ _ => False).bind fun slot =>
      keeps_pure fun room hfalse => hfalse.elim
  · exact (h.map (Q := fun room slot => ∃ a, slot = some a ∧ P room a)
      fun room a ha => ⟨a, rfl, ha⟩).bind fun slot =>
        keeps_pure fun room hslot hfields => by
          obtain ⟨a, rfl, ha⟩ := hslot
          exact hput room a ha hfields

theorem accepts_visit {variant : SchemaVariant} (fields : Fields) (key : String)
    (value : SerdeValue) {items : Reading (Option Schema)}
    {properties : Reading (List (String × Schema))} {schemas : Reading (List Schema)}
    (hitems : Accepts items ItemsFit) (hproperties : Accepts properties PropertiesFit)
    (hschemas : Accepts schemas SchemasFit) :
    Accepts (fields.visit form variant key value items properties schemas)
      fun room read => fields.Fit room → read.Fit room := by
  have hother : Accepts (pure fields : Reading Fields)
      fun room read => fields.Fit room → read.Fit room := keeps_pure fun room h => h
  have hplain : ∀ {β : Type} {r : Except DeError β} {name : String} {slot : Option β}
      {put : Option β → Fields}, (∀ room a, fields.Fit room → (put (some a)).Fit room) →
      Accepts (Fields.once name slot (ofExcept r) >>= fun slot => pure (put slot))
        fun room read => fields.Fit room → read.Fit room := fun hput =>
    accepts_put (accepts_ofExcept _) fun room a _ => hput room a
  cases variant with
  | string =>
    rw [Fields.visit]
    split_ifs
    · exact accepts_put (accepts_usize value) fun room a ha h => { h with minLength := ha }
    · exact accepts_put (accepts_usize value) fun room a ha h => { h with maxLength := ha }
    · exact hplain fun room a h => { h with }
    · exact hplain fun room a h => { h with }
    · exact hother
  | integer =>
    rw [Fields.visit]
    split_ifs
    · exact hplain fun room a h => { h with }
    · exact hplain fun room a h => { h with }
    · exact hother
  | number =>
    rw [Fields.visit]
    split_ifs
    · exact hplain fun room a h => { h with }
    · exact hplain fun room a h => { h with }
    · exact hother
  | array =>
    rw [Fields.visit]
    split_ifs
    · exact accepts_put hitems fun room a ha h => { h with items := ha }
    · exact accepts_put (accepts_usize value) fun room a ha h => { h with minItems := ha }
    · exact accepts_put (accepts_usize value) fun room a ha h => { h with maxItems := ha }
    · exact hplain fun room a h => { h with }
    · exact hother
  | object =>
    rw [Fields.visit]
    split_ifs
    · exact accepts_put hproperties fun room a ha h =>
        { h with properties := by rintro _ ⟨⟩; exact ha }
    · exact hplain fun room a h => { h with }
    · exact hplain fun room a h => { h with }
    · exact hother
  | oneOf =>
    rw [Fields.visit]
    split_ifs
    · exact accepts_put hschemas fun room a ha h => { h with schemas := by rintro _ ⟨⟩; exact ha }
    · exact hother
  | allOf =>
    rw [Fields.visit]
    split_ifs
    · exact accepts_put hschemas fun room a ha h => { h with schemas := by rintro _ ⟨⟩; exact ha }
    · exact hother
  | boolean => exact hother
  | null => exact hother
  | any => exact hother

theorem fits_unit {variant : SchemaVariant} {schema : Schema} (h : variant.unit = some schema)
    (room : ℕ) : Fits room schema := by
  cases variant <;> cases h
  · exact ⟨.boolean, Nat.zero_le room⟩
  · exact ⟨.null, Nat.zero_le room⟩
  · exact ⟨.any, Nat.zero_le room⟩

theorem required_eq_ok {name : String} {slot : Option α} {a : α}
    (h : Frame.Fields.required name slot = .ok a) : slot = some a := by
  cases slot <;> cases h
  rfl

theorem fits_build {variant : SchemaVariant} {fields : Fields} {schema : Schema}
    (h : fields.build form variant = .ok schema) {room : ℕ} (hfields : fields.Fit room) :
    Fits room schema := by
  cases variant with
  | string =>
    cases h
    exact ⟨.string hfields.minLength hfields.maxLength _ _, Nat.zero_le room⟩
  | integer =>
    cases h
    exact ⟨.integer _ _, Nat.zero_le room⟩
  | number =>
    cases h
    exact ⟨.number _ _, Nat.zero_le room⟩
  | boolean =>
    cases h
    exact ⟨.boolean, Nat.zero_le room⟩
  | null =>
    cases h
    exact ⟨.null, Nat.zero_le room⟩
  | any =>
    cases h
    exact ⟨.any, Nat.zero_le room⟩
  | array =>
    obtain ⟨u, -, h⟩ := JsonData.bind_eq_ok h
    cases h
    refine ⟨.array (fun s hs => (hfields.items s hs).1) hfields.minItems hfields.maxItems u, ?_⟩
    rw [levels]
    cases hitems : fields.items.join with
    | none => exact Nat.zero_le room
    | some s => exact (hfields.items s hitems).2
  | object =>
    obtain ⟨properties, hproperties, h⟩ := JsonData.bind_eq_ok h
    obtain ⟨r, -, h⟩ := JsonData.bind_eq_ok h
    obtain ⟨a, -, h⟩ := JsonData.bind_eq_ok h
    cases h
    obtain ⟨hk, hstored, hlevels⟩ := hfields.properties _ (required_eq_ok hproperties)
    exact ⟨.object hk hstored r a, hlevels⟩
  | oneOf =>
    obtain ⟨schemas, hschemas, h⟩ := JsonData.bind_eq_ok h
    cases h
    obtain ⟨hstored, hlevels⟩ := hfields.schemas _ (required_eq_ok hschemas)
    exact ⟨.oneOf hstored, hlevels⟩
  | allOf =>
    obtain ⟨schemas, hschemas, h⟩ := JsonData.bind_eq_ok h
    cases h
    obtain ⟨hstored, hlevels⟩ := hfields.schemas _ (required_eq_ok hschemas)
    exact ⟨.allOf hstored, hlevels⟩

/-- What a value gives wherever a schema, or several, may stand. -/
structure Sound (form : SchemaForm) (value : SerdeValue) : Prop where
  schema : Accepts (deserialize form value) Fits
  content : ∀ variant, Accepts (deserializeContent form variant value) Fits
  properties : Accepts (deserializeSchemaProperties form value) PropertiesFit
  schemas : Accepts (deserializeSchemaList form value) SchemasFit

theorem Sound.items {value : SerdeValue} (h : Sound form value) :
    Accepts (deserializeBoxedSchemaOption form (deserialize form value) value) ItemsFit := by
  unfold deserializeBoxedSchemaOption
  split
  · exact (keeps_pure (P := fun _ items => items = none) fun _ => rfl).within
      fun room items hitems => by
        rintro s hs
        rw [hitems] at hs
        cases hs
  · refine (h.schema.map (Q := fun room items => ∃ s, items = some s ∧ Fits room s)
      fun room s hs => ⟨s, rfl, hs⟩).within fun room items hitems => ?_
    obtain ⟨s, rfl, hstored, hlevels⟩ := hitems
    rintro _ ⟨⟩
    exact ⟨hstored, Nat.succ_le_succ hlevels⟩

theorem accepts_visitMap {variant : SchemaVariant} {fields : Fields}
    {m : List (String × SerdeValue)} (h : ∀ k v, (k, v) ∈ m → Sound form v) :
    Accepts (visitMap form variant fields m) fun room read => fields.Fit room → read.Fit room := by
  induction m generalizing fields with
  | nil => exact keeps_pure fun room h => h
  | cons e rest ih =>
    obtain ⟨key, value⟩ := e
    have hvalue := h key value (by simp)
    rw [visitMap]
    refine (accepts_visit fields key value hvalue.items hvalue.properties hvalue.schemas).bind
      fun fields' => ?_
    exact (ih fun k v hv => h k v (by simp [hv])).mono fun room read hrest hfirst hfields =>
      hrest (hfirst hfields)

theorem accepts_visitSeq {variant : SchemaVariant} {fields : Fields} {names : List String}
    {xs : List SerdeValue} (h : ∀ x ∈ xs, Sound form x) :
    Accepts (visitSeq form variant fields names xs)
      fun room read => fields.Fit room → read.Fit room := by
  induction xs generalizing fields names with
  | nil =>
    rw [visitSeq]
    exact keeps_pure fun room h => h
  | cons value rest ih =>
    cases names with
    | nil => exact keeps_pure fun room h => h
    | cons key names =>
      have hvalue := h value (by simp)
      rw [visitSeq]
      refine (accepts_visit fields key value hvalue.items hvalue.properties hvalue.schemas).bind
        fun fields' => ?_
      exact (ih fun x hx => h x (by simp [hx])).mono fun room read hrest hfirst hfields =>
        hrest (hfirst hfields)

theorem accepts_build (variant : SchemaVariant) (fields : Fields) :
    Accepts (ofExcept (fields.build form variant))
      fun room schema => fields.Fit room → Fits room schema :=
  keeps_ofExcept fun _ h _ hfields => fits_build h hfields

theorem accepts_visitProperties {properties : List (String × Schema)}
    {m : List (String × SerdeValue)} (h : ∀ k v, (k, v) ∈ m → Sound form v) :
    Accepts (visitProperties form properties m) fun room read =>
      (properties.map Prod.fst).Nodup → (∀ k s, (k, s) ∈ properties → Fits room s) →
        (read.map Prod.fst).Nodup ∧ ∀ k s, (k, s) ∈ read → Fits room s := by
  induction m generalizing properties with
  | nil => exact keeps_pure fun room hk hfits => ⟨hk, hfits⟩
  | cons e rest ih =>
    obtain ⟨key, value⟩ := e
    rw [visitProperties]
    refine (h key value (by simp)).schema.bind fun schema => ?_
    refine (ih fun k v hv => h k v (by simp [hv])).mono fun room read hrest hschema hk hfits => ?_
    refine hrest (Assoc.nodup_insert hk) fun k s hs => ?_
    rcases Assoc.mem_insert hs with heq | hs
    · cases heq
      exact hschema
    · exact hfits k s hs

theorem accepts_visitSchemas {xs : List SerdeValue} (h : ∀ x ∈ xs, Sound form x) :
    Accepts (visitSchemas form xs) fun room schemas => ∀ s ∈ schemas, Fits room s := by
  induction xs with
  | nil => exact keeps_pure fun room s hs => by cases hs
  | cons value rest ih =>
    rw [visitSchemas]
    refine (h value (by simp)).schema.bind fun schema => ?_
    refine (ih fun x hx => h x (by simp [hx])).bind fun schemas => ?_
    refine keeps_pure fun room hrest hfirst => ?_
    exact List.forall_mem_cons.mpr ⟨hfirst, hrest⟩

theorem accepts_deserializeName (s : SerdeScalar) :
    Accepts (ofExcept (deserializeName s)) Fits := by
  refine keeps_ofExcept fun schema h room => ?_
  unfold deserializeName at h
  split at h
  · obtain ⟨variant, -, h⟩ := JsonData.bind_eq_ok h
    cases hunit : variant.unit with
    | none =>
      rw [hunit] at h
      cases h
    | some unit =>
      rw [hunit] at h
      cases h
      exact fits_unit hunit room
  · cases h

theorem accepts_deserializeUnit {variant : SchemaVariant} {unit : Schema}
    (hunit : variant.unit = some unit) (content : SerdeValue) :
    Accepts (ofExcept (deserializeUnit unit content)) Fits := by
  refine keeps_ofExcept fun schema h room => ?_
  unfold deserializeUnit at h
  split at h
  · cases h
    exact fits_unit hunit room
  · cases h

theorem accepts_entry {name : String} {content : SerdeValue} (h : Sound form content) :
    Accepts (deserialize form (.object [(name, content)])) Fits := by
  rw [deserialize]
  refine (accepts_ofExcept (SchemaVariant.ofName name)).bind fun variant => ?_
  cases hunit : variant.unit with
  | none => exact (h.content variant).mono fun room schema hfits _ => hfits
  | some unit => exact (accepts_deserializeUnit hunit content).mono fun room schema hfits _ => hfits

/-- Whatever the document is. -/
theorem sound (form : SchemaForm) (value : SerdeValue) : Sound form value := by
  induction value using Doc.induction with
  | scalar s =>
    refine ⟨?_, fun variant => keeps_throw _, (keeps_throw _ : Accepts _ fun _ _ => False).within
      fun room _ h => h.elim, (keeps_throw _ : Accepts _ fun _ _ => False).within
      fun room _ h => h.elim⟩
    rw [deserialize]
    exact accepts_deserializeName s
  | array xs ih =>
    refine ⟨keeps_throw _, fun variant => ?_, (keeps_throw _ : Accepts _ fun _ _ => False).within
      fun room _ h => h.elim, ?_⟩
    · rw [deserializeContent]
      refine (accepts_visitSeq ih).bind fun fields => ?_
      split
      · exact keeps_throw _
      · split_ifs
        · exact keeps_throw _
        · exact (accepts_build variant fields).mono fun room schema hbuild hfields =>
            hbuild (hfields (Fields.fit_none room))
    · rw [deserializeSchemaList]
      refine (accepts_visitSchemas ih).within fun room schemas h => ⟨fun s hs => (h s hs).1, ?_⟩
      exact Nat.succ_le_succ (levelsList_le.mpr fun s hs => (h s hs).2)
  | object m ih =>
    refine ⟨?_, fun variant => ?_, ?_, (keeps_throw _ : Accepts _ fun _ _ => False).within
      fun room _ h => h.elim⟩
    · rcases m with _ | ⟨⟨name, content⟩, _ | ⟨e, rest⟩⟩
      · exact keeps_throw _
      · exact accepts_entry (ih name content (by simp))
      · exact keeps_throw _
    · rw [deserializeContent]
      refine (accepts_visitMap ih).bind fun fields => ?_
      exact (accepts_build variant fields).mono fun room schema hbuild hfields =>
        hbuild (hfields (Fields.fit_none room))
    · rw [deserializeSchemaProperties]
      refine (accepts_visitProperties ih).within fun room properties h => ?_
      obtain ⟨hk, hfits⟩ := h List.nodup_nil fun k s hs => by cases hs
      exact ⟨hk, fun k s hs => (hfits k s hs).1,
        Nat.succ_le_succ (levelsProperties_le.mpr fun k s hs => (hfits k s hs).2)⟩

end Accepted

section Conversion

theorem ofDtoList_ofSchemaList {schemas : List Schema}
    (h : ∀ s ∈ schemas, ofDto (.ofSchema s) = s) :
    ofDtoList (SchemaDefinitionDto.ofSchemaList schemas) = schemas := by
  induction schemas with
  | nil => rfl
  | cons schema rest ih =>
    rw [SchemaDefinitionDto.ofSchemaList, ofDtoList, h schema (by simp),
      ih fun s hs => h s (by simp [hs])]

theorem ofDto_ofSchema (schema : Schema) : ofDto (.ofSchema schema) = schema := by
  induction schema using Schema.induction with
  | string a b p v => rfl
  | integer a b => rfl
  | number a b => rfl
  | boolean => rfl
  | null => rfl
  | any => rfl
  | array items a b u ih =>
    cases items with
    | none => rfl
    | some schema =>
      rw [SchemaDefinitionDto.ofSchema, SchemaDefinitionDto.ofSchemaItems, ofDto, ofDtoItems,
        ih schema rfl]
  | object properties r a ih =>
    rw [SchemaDefinitionDto.ofSchema, ofDto]
    congr 1
    induction properties with
    | nil => rfl
    | cons e rest hrest =>
      obtain ⟨key, schema⟩ := e
      rw [SchemaDefinitionDto.ofSchemaProperties, ofDtoProperties, ih key schema (by simp),
        hrest fun k s hs => ih k s (by simp [hs])]
  | oneOf schemas ih => rw [SchemaDefinitionDto.ofSchema, ofDto, ofDtoList_ofSchemaList ih]
  | allOf schemas ih => rw [SchemaDefinitionDto.ofSchema, ofDto, ofDtoList_ofSchemaList ih]

end Conversion

end Schema

namespace SchemaDefinitionDto

open Check (exec inTurn inTurn_eq)
open JsonData (maxDeserializeDepth)

/-- A thread has read any documents, of which some may have failed. Its counter is where it was, so
each was answered as by a fresh thread; what was read nests within the limit and has no property
twice. A schema that is sent then comes back with its finite bounds, or is refused as too deep. -/
theorem transfer (values : List SerdeValue) {schema : Schema} (h : schema.Stored) :
    let thread := inTurn deserialize values 0
    thread.2 = 0 ∧ thread.1 = (values.map fun value => (exec (deserialize value) 0).1) ∧
    (∀ dto, .ok dto ∈ thread.1 → (Schema.ofDto dto).Stored ∧
      (Schema.ofDto dto).levels .definitionDto ≤ maxDeserializeDepth) ∧
    (exec (deserialize (serialize (ofSchema schema))) thread.2).1.map Schema.ofDto =
      if schema.levels .definitionDto ≤ maxDeserializeDepth then .ok schema.written
      else .error (Schema.nestingExceeded .definitionDto) := by
  have hsound : ∀ value, Schema.Accepts (deserialize value) fun room dto =>
      Schema.Fits room (Schema.ofDto dto) := fun value =>
    (Schema.sound .definitionDto value).schema.map fun room schema hfits => by
      rwa [Schema.ofDto_ofSchema]
  have hthread := inTurn_eq (fun value => (hsound value 0).1) values
  intro thread
  refine ⟨congrArg Prod.snd hthread, congrArg Prod.fst hthread, fun dto hdto => ?_, ?_⟩
  · rw [show thread.1 = _ from congrArg Prod.fst hthread] at hdto
    obtain ⟨value, -, hvalue⟩ := List.mem_map.mp hdto
    exact (hsound value 0).2 dto hvalue
  · have hread := (@Schema.reads_serialize .definitionDto _ h).map ofSchema
    rw [show thread.2 = 0 from congrArg Prod.snd hthread, deserialize, serialize,
      Schema.ofDto_ofSchema, hread 0, Nat.sub_zero]
    split_ifs
    · exact congrArg Except.ok (Schema.ofDto_ofSchema schema.written)
    · rfl

/-- An object with a list of any values. -/
def listing : Schema :=
  .object [("items", .array (some .any) (some 1) none true)] ["items"] false

/-- Alternatives inside one another. -/
def alternatives : ℕ → Schema
  | 0 => .any
  | n + 1 => .oneOf [alternatives n]

/-- A document that was too deep leaves no trace. -/
theorem transfer_listing :
    let thread := inTurn deserialize [Schema.serialize .definitionDto (alternatives 65)] 0
    thread.2 = 0 ∧
    (exec (deserialize (serialize (ofSchema listing))) thread.2).1.map Schema.ofDto =
      .ok listing := by
  have hstored : listing.Stored := by
    refine .object (by decide) ?_ _ _
    rintro k s hs
    cases List.mem_singleton.mp hs
    exact .array (by rintro _ ⟨⟩; exact .any) (by rintro _ ⟨⟩; decide) (by rintro _ ⟨⟩) _
  obtain ⟨hlevel, -, -, hread⟩ :=
    transfer [Schema.serialize .definitionDto (alternatives 65)] hstored
  exact ⟨hlevel, hread.trans (if_pos (by decide))⟩

end SchemaDefinitionDto

end PJS
