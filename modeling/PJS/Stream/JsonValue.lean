import PJS.Lib.Skeleton

/-! The values of the core crate: `serde_json::Value` with its ordered object maps. -/
namespace PJS

/-- `serde_json::Number`: an unsigned integer, a negative integer or a finite float. -/
inductive JsonNumber where
  | posInt (n : UInt64)
  | negInt (i : Int64) (neg : i < 0)
  | float (f : Float) (finite : f.isFinite = true)
deriving DecidableEq

/-- Numbers compare by kind and value. Finite floats compare by their bits, but for the two zeros,
which are equal. -/
def JsonNumber.canon : JsonNumber → JsonNumber
  | .float f finite => if f == 0.0 then .float 0.0 rfl else .float f finite
  | n => n

inductive JsonScalar where
  | null
  | bool (b : Bool)
  | number (n : JsonNumber)
  | string (s : String)
deriving DecidableEq

def JsonScalar.canon : JsonScalar → JsonScalar
  | .number n => .number n.canon
  | s => s

abbrev JsonValue := Doc String JsonScalar

namespace JsonValue

@[match_pattern] abbrev null : JsonValue := .scalar .null
@[match_pattern] abbrev bool (b : Bool) : JsonValue := .scalar (.bool b)
@[match_pattern] abbrev number (n : JsonNumber) : JsonValue := .scalar (.number n)
@[match_pattern] abbrev string (s : String) : JsonValue := .scalar (.string s)

/-- What `==` looks at. -/
def canon (v : JsonValue) : JsonValue := v.mapScalar JsonScalar.canon

/-- `==` on values. -/
abbrev Same (v w : JsonValue) : Prop := v.canon = w.canon

theorem canon_array (xs : List JsonValue) : canon (.array xs) = .array (xs.map canon) :=
  Doc.mapScalar_array _ xs

theorem canon_object (m : List (String × JsonValue)) :
    canon (.object m) = .object (m.map fun e => (e.1, e.2.canon)) :=
  Doc.mapScalar_object _ m

theorem nodes_canon (v : JsonValue) : v.canon.nodes = v.nodes := Doc.nodes_mapScalar _ v

/-- The invariant of the ordered map behind every object, at any depth. -/
abbrev Ordered (v : JsonValue) : Prop := v.Keyed (· < ·)

theorem Ordered.nodup {v : JsonValue} (h : v.Ordered) : v.Keyed (· ≠ ·) :=
  h.mono fun _ _ => ne_of_lt

end JsonValue

/-- A value as the program can hold it. -/
structure JsonDocument where
  value : JsonValue
  ordered : value.Ordered

/-- `Map<String, Value>`, listed in key order. -/
abbrev JsonMap := List (String × JsonValue)

namespace JsonMap

def insert (map : JsonMap) (key : String) (value : JsonValue) : JsonMap :=
  Assoc.insertSorted key value map

/-- `collect::<Map<_, _>>()`. -/
def collect (entries : List (String × JsonValue)) : JsonMap :=
  entries.foldl (fun map e => map.insert e.1 e.2) []

theorem collect_eq {entries : List (String × JsonValue)}
    (h : (entries.map Prod.fst).Pairwise (· < ·)) : collect entries = entries :=
  Assoc.foldl_insertSorted_eq (by simpa using h)

end JsonMap

end PJS
