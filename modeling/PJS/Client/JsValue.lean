import PJS.Domain.FrameSerde
import PJS.Lib.FloatRound

/-! Values of the TypeScript client: what `JSON.parse` makes of a text, `undefined`, and the missing
elements of an array. An object lists its own properties. A document arrives as it was sent if its
numbers are ones that JSON and doubles have. -/
namespace PJS

inductive JsScalar where
  | hole
  | undefined
  | null
  | bool (b : Bool)
  | number (f : Float)
  | string (s : String)
deriving DecidableEq

abbrev JsValue := Doc String JsScalar

namespace JsValue

/-- Every number becomes a double. -/
def parseScalar : SerdeScalar → JsScalar
  | .null => .null
  | .bool b => .bool b
  | .posInt n => .number n.toFloat
  | .negInt i => .number (.ofModel (.ofInt64 i))
  | .float f => .number f
  | .string s => .string s

/-- `JSON.parse` of the text of a value. -/
def jsonParse (value : SerdeValue) : JsValue := value.mapScalar parseScalar

/-- The values that count as false. -/
def falsy : JsValue → Bool
  | .scalar .hole => true
  | .scalar .undefined => true
  | .scalar .null => true
  | .scalar (.bool b) => !b
  | .scalar (.number f) => f == 0.0 || f.isNaN
  | .scalar (.string s) => s.isEmpty
  | _ => false

/-- A property, read from an object; nothing here has the property otherwise. -/
def property (value : JsValue) (key : String) : JsValue :=
  match value with
  | .object m => (m.lookup key).getD (.scalar .undefined)
  | _ => .scalar .undefined

@[simp] theorem property_object (m : List (String × JsValue)) (key : String) :
    property (.object m) key = (m.lookup key).getD (.scalar .undefined) := rfl

/-- A document as the client has it. -/
def ofData (data : JsonData) : JsValue := jsonParse data.serialize

theorem ofData_array (xs : List JsonData) : ofData (.array xs) = .array (xs.map ofData) := by
  rw [ofData, JsonData.serialize, Doc.mapScalar_array, jsonParse, Doc.mapScalar_array,
    List.map_map]
  rfl

theorem ofData_object (m : List (String × JsonData)) :
    ofData (.object m) = .object (m.map fun e => (e.1, ofData e.2)) := by
  rw [ofData, JsonData.serialize, Doc.mapScalar_object, jsonParse, Doc.mapScalar_object,
    List.map_map]
  rfl

/-- A patch as the client has it. -/
theorem ofData_toPayload (patch : FramePatch) : ofData patch.toPayload = .object
    [("path", .scalar (.string patch.path.toString)),
      ("operation", .scalar (.string patch.operation.name)), ("value", ofData patch.value)] := by
  rw [FramePatch.toPayload, ofData_object]
  rfl

section Represents

/-- The client's scalar is the one of the source, an integer as the number it is. -/
inductive ScalarRepresents : JsScalar → DataScalar → Prop
  | null : ScalarRepresents .null .null
  | bool (b : Bool) : ScalarRepresents (.bool b) (.bool b)
  | integer {f : Float} {i : Int64} (h : FloatOrder.value f =
      some (((i.toInt : ℚ) : WithTop ℚ) : WithBot (WithTop ℚ))) :
    ScalarRepresents (.number f) (.integer i)
  | float (f : Float) : ScalarRepresents (.number f) (.float f)
  | string (s : String) : ScalarRepresents (.string s) (.string s)

/-- The client's value is the document: the same keys, the same elements, the same scalars. -/
inductive Represents : JsValue → JsonData → Prop
  | scalar {v : JsScalar} {s : DataScalar} (h : ScalarRepresents v s) :
    Represents (.scalar v) (.scalar s)
  | array {xs : List JsValue} {ys : List JsonData} (hlen : xs.length = ys.length)
      (h : ∀ (i : ℕ) (x : JsValue) (y : JsonData), xs[i]? = some x → ys[i]? = some y →
        Represents x y) : Represents (.array xs) (.array ys)
  | object {m : List (String × JsValue)} {n : List (String × JsonData)}
      (hkeys : (m.map Prod.fst).Perm (n.map Prod.fst))
      (h : ∀ (key : String) (v : JsValue) (w : JsonData), m.lookup key = some v →
        n.lookup key = some w → Represents v w) : Represents (.object m) (.object n)

/-- A number that JSON can express and a double can hold: a safe integer of JavaScript, or a finite
float. -/
def Portable : DataScalar → Prop
  | .integer i => i.toInt.natAbs < 2 ^ 53
  | .float f => f.isFinite = true
  | _ => True

/-- An integer is read as the double nearest to it, whatever its sign. -/
theorem parseScalar_integer (i : Int64) :
    parseScalar (JsonData.serializeScalar (.integer i)) = .number (.ofModel (.ofInt64 i)) := by
  rw [JsonData.serializeScalar]
  split_ifs with hi
  · have hcast : (i.toUInt64.toNat : ℤ) = i.toInt := by
      rw [Int64.toNat_toUInt64_of_le hi]
      exact Int.toNat_of_nonneg (Int64.le_iff_toInt_le.mp hi)
    change JsScalar.number (.ofModel (Float.Model.ofInt i.toUInt64.toNat)) = _
    rw [hcast]
    rfl
  · rfl

theorem scalarRepresents_parseScalar {s : DataScalar} (h : Portable s) :
    ScalarRepresents (parseScalar (JsonData.serializeScalar s)) s := by
  cases s with
  | null => exact .null
  | bool b => exact .bool b
  | integer i =>
    rw [parseScalar_integer]
    exact .integer (FloatOrder.value_ofInt64_of_lt h)
  | float f =>
    have hfinite : f.isFinite = true := h
    rw [JsonData.serializeScalar, if_pos hfinite]
    exact .float f
  | string t => exact .string t

/-- A document with such numbers is what the client has. -/
theorem represents_ofData {d : JsonData} (h : d.Over Portable) : Represents (ofData d) d := by
  induction h with
  | scalar hs => exact .scalar (scalarRepresents_parseScalar hs)
  | @array xs _ ih =>
    rw [ofData_array]
    refine .array (List.length_map _) fun i x y hx hy => ?_
    rw [List.getElem?_map, hy] at hx
    cases hx
    exact ih y (List.mem_of_getElem? hy)
  | @object m _ ih =>
    rw [ofData_object]
    refine .object ?_ fun key v w hv hw => ?_
    · rw [List.map_map]
      exact List.Perm.refl _
    · rw [Assoc.lookup_map fun _ => ofData, hw] at hv
      cases hv
      exact ih key w (Assoc.mem_of_lookup hw)

end Represents

end JsValue

end PJS
