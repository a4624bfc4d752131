import PJS.Lib.Skeleton

/-! The values of the domain crate. Objects are hash maps: their entries are listed in iteration
order, which is arbitrary. -/
namespace PJS

inductive DataScalar where
  | null
  | bool (b : Bool)
  | integer (i : Int64)
  | float (f : Float)
  | string (s : String)
deriving DecidableEq

abbrev JsonData := Doc String DataScalar

namespace JsonData

@[match_pattern] abbrev null : JsonData := .scalar .null
@[match_pattern] abbrev bool (b : Bool) : JsonData := .scalar (.bool b)
@[match_pattern] abbrev integer (i : Int64) : JsonData := .scalar (.integer i)
@[match_pattern] abbrev float (f : Float) : JsonData := .scalar (.float f)
@[match_pattern] abbrev string (s : String) : JsonData := .scalar (.string s)

/-- The invariant of the hash map behind every object, at any depth. -/
abbrev Distinct (d : JsonData) : Prop := d.Keyed (· ≠ ·)

section Display
-- `Display` of `f64`
variable (showFloat : Float → String)

def showScalar : DataScalar → String
  | .null => "null"
  | .bool b => if b then "true" else "false"
  | .integer i => Int.repr i.toInt
  | .float f => showFloat f
  | .string s => "\"" ++ s ++ "\""

mutual

def toString : JsonData → String
  | .scalar s => showScalar showFloat s
  | .array arr => "[" ++ String.intercalate "," (toStrings arr) ++ "]"
  | .object obj => "\x7b" ++ String.intercalate "," (toStringFields obj) ++ "\x7d"

def toStrings : List JsonData → List String
  | [] => []
  | item :: rest => toString item :: toStrings rest

def toStringFields : List (String × JsonData) → List String
  | [] => []
  | (key, value) :: rest => ("\"" ++ key ++ "\":" ++ toString value) :: toStringFields rest

end

end Display

end JsonData

/-- A value as the program can hold it. -/
structure DataDocument where
  value : JsonData
  distinct : value.Distinct

end PJS
