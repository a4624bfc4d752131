import PJS.Lib.Utf8

/-! The grammar of JSON texts over bytes: white space, numbers, string bodies with their escapes,
and values whose strings and keys may be restricted or not. -/
namespace PJS.JsonText

section Bytes

abbrev quote : UInt8 := 0x22
abbrev backslash : UInt8 := 0x5C
abbrev comma : UInt8 := 0x2C
abbrev colon : UInt8 := 0x3A
abbrev openBrace : UInt8 := 0x7B
abbrev closeBrace : UInt8 := 0x7D
abbrev openBracket : UInt8 := 0x5B
abbrev closeBracket : UInt8 := 0x5D

def isWhitespace (b : UInt8) : Bool := b == 0x20 || b == 0x09 || b == 0x0A || b == 0x0D

def isDigit (b : UInt8) : Bool := 0x30 ≤ b && b ≤ 0x39

/-- The value of a hexadecimal digit, of either case. -/
def hexDigit (b : UInt8) : Option ℕ :=
  if 0x30 ≤ b ∧ b ≤ 0x39 then some (b.toNat - 0x30)
  else if 0x41 ≤ b ∧ b ≤ 0x46 then some (b.toNat - 0x41 + 10)
  else if 0x61 ≤ b ∧ b ≤ 0x66 then some (b.toNat - 0x61 + 10)
  else none

/-- The value of four hexadecimal digits. -/
def hex4 (a b c d : UInt8) : Option ℕ := do
  return (((← hexDigit a) * 16 + (← hexDigit b)) * 16 + (← hexDigit c)) * 16 + (← hexDigit d)

/-- The byte that a two-character escape stands for. -/
def simpleEscape (b : UInt8) : Option UInt8 :=
  if b = quote then some quote
  else if b = backslash then some backslash
  else if b = 0x2F then some 0x2F
  else if b = 0x62 then some 0x08
  else if b = 0x66 then some 0x0C
  else if b = 0x6E then some 0x0A
  else if b = 0x72 then some 0x0D
  else if b = 0x74 then some 0x09
  else none

def Blank (bytes : List UInt8) : Prop := ∀ b ∈ bytes, isWhitespace b = true

end Bytes

section Numbers

/-- The parts of a number: sign, integer digits, fraction, exponent. -/
structure Number where
  minus : Bool
  int : List UInt8
  frac : Option (List UInt8)
  exp : Option (UInt8 × Option UInt8 × List UInt8)

/-- At least one digit. -/
def Digits (bytes : List UInt8) : Prop := bytes ≠ [] ∧ ∀ b ∈ bytes, isDigit b = true

namespace Number

def fracBytes : Option (List UInt8) → List UInt8
  | none => []
  | some ds => 0x2E :: ds

def expBytes : Option (UInt8 × Option UInt8 × List UInt8) → List UInt8
  | none => []
  | some (e, sign, ds) => e :: (sign.toList ++ ds)

def bytes (n : Number) : List UInt8 :=
  (if n.minus then [0x2D] else []) ++ (n.int ++ (fracBytes n.frac ++ expBytes n.exp))

/-- No leading zeros, and digits wherever they are announced. -/
structure Valid (n : Number) : Prop where
  int : Digits n.int
  leading : n.int.head? = some 0x30 → n.int = [0x30]
  frac : ∀ ds ∈ n.frac, Digits ds
  exp : ∀ e ∈ n.exp, (e.1 = 0x65 ∨ e.1 = 0x45) ∧ (∀ s ∈ e.2.1, s = 0x2B ∨ s = 0x2D) ∧ Digits e.2.2

/-- The natural number that digits spell. -/
def digitsValue (ds : List UInt8) : ℕ := ds.foldl (fun v b => v * 10 + (b.toNat - 0x30)) 0

def expValue : Option (UInt8 × Option UInt8 × List UInt8) → ℤ
  | none => 0
  | some (_, sign, ds) => if sign = some 0x2D then -(digitsValue ds : ℤ) else digitsValue ds

/-- The rational number that is written. -/
def value (n : Number) : ℚ :=
  let frac := n.frac.getD []
  let magnitude := (digitsValue (n.int ++ frac) : ℚ) * 10 ^ (expValue n.exp - frac.length)
  if n.minus then -magnitude else magnitude

end Number

def IsNumber (text : List UInt8) : Prop := ∃ n : Number, n.Valid ∧ n.bytes = text

end Numbers

section Strings

/-- The body of a string as RFC 8259 has it, up to the validity of its UTF-8. -/
inductive Body : List UInt8 → Prop
  | nil : Body []
  | plain {b : UInt8} {rest : List UInt8} (hb : 0x20 ≤ b) (hq : b ≠ quote) (hs : b ≠ backslash)
      (h : Body rest) : Body (b :: rest)
  | escape {b e : UInt8} {rest : List UInt8} (he : simpleEscape b = some e) (h : Body rest) :
      Body (backslash :: b :: rest)
  | unicode {b₁ b₂ b₃ b₄ : UInt8} {v : ℕ} {rest : List UInt8} (hv : hex4 b₁ b₂ b₃ b₄ = some v)
      (h : Body rest) : Body (backslash :: 0x75 :: b₁ :: b₂ :: b₃ :: b₄ :: rest)

/-- The body spells the text: its characters in UTF-8 or escaped. -/
inductive Spells : List UInt8 → List Char → Prop
  | nil : Spells [] []
  | plain {c : Char} {rest : List UInt8} {cs : List Char} (hc : 0x20 ≤ c.toNat) (hq : c ≠ '"')
      (hs : c ≠ '\\') (h : Spells rest cs) : Spells (String.utf8EncodeChar c ++ rest) (c :: cs)
  | escape {b e : UInt8} {rest : List UInt8} {cs : List Char} (he : simpleEscape b = some e)
      (h : Spells rest cs) : Spells (backslash :: b :: rest) (Char.ofNat e.toNat :: cs)
  | unicode {b₁ b₂ b₃ b₄ : UInt8} {c : Char} {rest : List UInt8} {cs : List Char}
      (hv : hex4 b₁ b₂ b₃ b₄ = some c.toNat) (h : Spells rest cs) :
      Spells (backslash :: 0x75 :: b₁ :: b₂ :: b₃ :: b₄ :: rest) (c :: cs)
  | pair {b₁ b₂ b₃ b₄ c₁ c₂ c₃ c₄ : UInt8} {high low : ℕ} {c : Char} {rest : List UInt8}
      {cs : List Char} (hh : hex4 b₁ b₂ b₃ b₄ = some high) (hl : hex4 c₁ c₂ c₃ c₄ = some low)
      (rh : 0xD800 ≤ high ∧ high ≤ 0xDBFF) (rl : 0xDC00 ≤ low ∧ low ≤ 0xDFFF)
      (hc : c.toNat = 0x10000 + (high - 0xD800) * 0x400 + (low - 0xDC00)) (h : Spells rest cs) :
      Spells (backslash :: 0x75 :: b₁ :: b₂ :: b₃ :: b₄ ::
        backslash :: 0x75 :: c₁ :: c₂ :: c₃ :: c₄ :: rest) (c :: cs)

end Strings

section Values

/-- A piece of text between white space. -/
structure Padded where
  before : List UInt8
  text : List UInt8
  after : List UInt8

namespace Padded

def bytes (p : Padded) : List UInt8 := p.before ++ (p.text ++ p.after)

def Blank (p : Padded) : Prop := JsonText.Blank p.before ∧ JsonText.Blank p.after

end Padded

/-- A member of an object. -/
def memberBytes (m : Padded × Padded) : List UInt8 := m.1.bytes ++ colon :: m.2.bytes

def commaSeparated : List (List UInt8) → List UInt8
  | [] => []
  | [x] => x
  | x :: xs => x ++ comma :: commaSeparated xs

variable (str key : List UInt8 → Prop)

/-- The text of a value, without white space around it, that nests at most so many containers.
`str` says which string bodies may occur, `key` which texts may stand before a colon. -/
inductive Value : ℕ → List UInt8 → Prop
  | true {n : ℕ} : Value n [0x74, 0x72, 0x75, 0x65]
  | false {n : ℕ} : Value n [0x66, 0x61, 0x6C, 0x73, 0x65]
  | null {n : ℕ} : Value n [0x6E, 0x75, 0x6C, 0x6C]
  | number {n : ℕ} {text : List UInt8} (h : IsNumber text) : Value n text
  | string {n : ℕ} {body : List UInt8} (h : str body) : Value n (quote :: (body ++ [quote]))
  | emptyArray {n : ℕ} {ws : List UInt8} (hw : Blank ws) :
      Value (n + 1) (openBracket :: (ws ++ [closeBracket]))
  | array {n : ℕ} {items : List Padded} (hne : items ≠ []) (hw : ∀ i ∈ items, i.Blank)
      (h : ∀ i ∈ items, Value n i.text) :
      Value (n + 1) (openBracket :: (commaSeparated (items.map Padded.bytes) ++ [closeBracket]))
  | emptyObject {n : ℕ} {ws : List UInt8} (hw : Blank ws) :
      Value (n + 1) (openBrace :: (ws ++ [closeBrace]))
  | object {n : ℕ} {members : List (Padded × Padded)} (hne : members ≠ [])
      (hw : ∀ m ∈ members, m.1.Blank ∧ m.2.Blank) (hk : ∀ m ∈ members, key m.1.text)
      (h : ∀ m ∈ members, Value n m.1.text) (hv : ∀ m ∈ members, Value n m.2.text) :
      Value (n + 1) (openBrace :: (commaSeparated (members.map memberBytes) ++ [closeBrace]))

variable {str key} in
/-- A text stays one when the strings and keys are restricted less. -/
theorem Value.mono {str' key' : List UInt8 → Prop} (hstr : ∀ body, str body → str' body)
    (hkey : ∀ text, key text → key' text) {n : ℕ} {text : List UInt8} (h : Value str key n text) :
    Value str' key' n text := by
  induction h with
  | true => exact .true
  | false => exact .false
  | null => exact .null
  | number h => exact .number h
  | string h => exact .string (hstr _ h)
  | emptyArray hw => exact .emptyArray hw
  | array hne hw _ ih => exact .array hne hw ih
  | emptyObject hw => exact .emptyObject hw
  | object hne hw hk _ _ ih ihv =>
    exact .object hne hw (fun m hm => hkey _ (hk m hm)) ih ihv

/-- A string is a text that opens with a quote. -/
def IsString (text : List UInt8) : Prop := text.head? = some quote

end Values

end PJS.JsonText
