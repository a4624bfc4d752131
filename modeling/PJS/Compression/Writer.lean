import PJS.Compression.Dictionary

/-! The compact text of a value, as `serde_json::to_string` writes it, and what it measures. How a
number is written is left open. -/
namespace PJS

/-- A character inside a string literal. -/
def escapeChar (c : Char) : List Char :=
  if c = '\x22' ∨ c = '\x5c' then ['\x5c', c]
  else if c = '\x08' then ['\x5c', 'b']
  else if c = '\x09' then ['\x5c', 't']
  else if c = '\x0a' then ['\x5c', 'n']
  else if c = '\x0c' then ['\x5c', 'f']
  else if c = '\x0d' then ['\x5c', 'r']
  else if c.toNat < 32 then
    ['\x5c', 'u', '0', '0', Nat.digitChar (c.toNat / 16), Nat.digitChar (c.toNat % 16)]
  else [c]

def escapeString (s : String) : String := String.ofList (s.toList.flatMap escapeChar)

def quoteString (s : String) : String := "\x22" ++ escapeString s ++ "\x22"

def commaJoin : List String → String
  | [] => ""
  | [s] => s
  | s :: rest => s ++ "," ++ commaJoin rest

section Compact
variable (showNumber : JsonNumber → String)

mutual

def toJson : JsonValue → String
  | .null => "null"
  | .bool b => if b then "true" else "false"
  | .number n => showNumber n
  | .string s => quoteString s
  | .array arr => "[" ++ commaJoin (toJsonItems arr) ++ "]"
  | .object obj => "\x7b" ++ commaJoin (toJsonFields obj) ++ "\x7d"

def toJsonItems : List JsonValue → List String
  | [] => []
  | item :: items => toJson item :: toJsonItems items

def toJsonFields : JsonMap → List String
  | [] => []
  | (key, value) :: fields =>
    (quoteString key ++ ":" ++ toJson value) :: toJsonFields fields

end

end Compact

mutual

/-- The strings of a value, keys apart, in the order in which they are met. -/
def JsonValue.strings : JsonValue → List String
  | .string s => [s]
  | .array arr => itemStrings arr
  | .object obj => fieldStrings obj
  | .scalar _ => []

def JsonValue.itemStrings : List JsonValue → List String
  | [] => []
  | item :: items => item.strings ++ itemStrings items

def JsonValue.fieldStrings : JsonMap → List String
  | [] => []
  | (_, value) :: fields => value.strings ++ fieldStrings fields

end

section Size

/-- No character of the string needs an escape. -/
def Unescaped (s : String) : Prop := ∀ c ∈ s.toList, escapeChar c = [c]

instance (s : String) : Decidable (Unescaped s) :=
  decidable_of_iff ((s.toList.all fun c => decide (escapeChar c = [c])) = true)
    (by simp [Unescaped])

theorem utf8ByteSize_ofList_cons (c : Char) (l : List Char) :
    (String.ofList (c :: l)).utf8ByteSize = c.utf8Size + (String.ofList l).utf8ByteSize := by
  have hlist : String.ofList (c :: l) = String.singleton c ++ String.ofList l := by
    rw [← String.toList_inj, String.toList_append]
    simp
  rw [hlist, String.utf8ByteSize_append, String.utf8ByteSize_singleton]

theorem utf8ByteSize_ofList_append (l l' : List Char) :
    (String.ofList (l ++ l')).utf8ByteSize =
      (String.ofList l).utf8ByteSize + (String.ofList l').utf8ByteSize := by
  rw [String.ofList_append, String.utf8ByteSize_append]

/-- An escape is no shorter than what it stands for. -/
theorem utf8Size_le_escapeChar (c : Char) :
    c.utf8Size ≤ (String.ofList (escapeChar c)).utf8ByteSize := by
  have hself : c.utf8Size ≤ (String.ofList [c]).utf8ByteSize := by
    rw [utf8ByteSize_ofList_cons]
    omega
  unfold escapeChar
  split_ifs with h₁ h₂ h₃ h₄ h₅ h₆ h₇
  · rw [utf8ByteSize_ofList_cons]
    exact hself.trans (Nat.le_add_left _ _)
  · subst h₂; decide
  · subst h₃; decide
  · subst h₄; decide
  · subst h₅; decide
  · subst h₆; decide
  · have hone : c.utf8Size = 1 := by
      have hval : c.val.toNat < 32 := h₇
      exact Char.utf8Size_eq_one_iff.mpr (UInt32.le_iff_toNat_le.mpr (by change _ ≤ 127; omega))
    rw [hone, utf8ByteSize_ofList_cons]
    exact Nat.le_add_right_of_le (by decide)
  · exact hself

theorem size_escapeString (l : List Char) :
    (String.ofList l).utf8ByteSize ≤ (String.ofList (l.flatMap escapeChar)).utf8ByteSize := by
  induction l with
  | nil => exact Nat.zero_le _
  | cons c l ih =>
    rw [List.flatMap_cons, utf8ByteSize_ofList_append, utf8ByteSize_ofList_cons]
    exact Nat.add_le_add (utf8Size_le_escapeChar c) ih

theorem utf8ByteSize_quoteString (s : String) :
    (quoteString s).utf8ByteSize = (escapeString s).utf8ByteSize + 2 := by
  unfold quoteString
  rw [String.utf8ByteSize_append, String.utf8ByteSize_append]
  have hquote : "\x22".utf8ByteSize = 1 := by decide
  omega

theorem utf8ByteSize_le_escapeString (s : String) :
    s.utf8ByteSize ≤ (escapeString s).utf8ByteSize := by
  have h := size_escapeString s.toList
  rwa [String.ofList_toList] at h

theorem escapeString_of_unescaped {s : String} (h : Unescaped s) : escapeString s = s := by
  unfold escapeString
  rw [List.flatMap_congr h]
  simp

theorem size_commaJoin (l : List String) :
    (commaJoin l).utf8ByteSize + min l.length 1 = (l.map fun s => s.utf8ByteSize + 1).sum := by
  induction l with
  | nil => rfl
  | cons s rest ih =>
    cases rest with
    | nil => simp [commaJoin]
    | cons s' rest =>
      have hcomma : ",".utf8ByteSize = 1 := by decide
      rw [commaJoin, List.map_cons, List.sum_cons, ← ih, String.utf8ByteSize_append,
        String.utf8ByteSize_append, hcomma]
      simp only [List.length_cons]
      · omega
      · exact List.cons_ne_nil _ _

end Size

end PJS
