import PJS.Lib.Check
import PJS.Lib.JsonText

/-! The zero-copy parser: a cursor over the input bytes. Reading outside the input and slicing
across its end are panics; a loop or recursion that outlasts its budget diverges. Neither is an
error of the parser, and neither ever happens. -/
namespace PJS
open JsonText (quote backslash comma colon openBrace closeBrace openBracket closeBracket
  isWhitespace isDigit hexDigit hex4 simpleEscape)

/-- The variants of `DomainError` the parser raises, with their texts. -/
inductive ParseError where
  | invalidInput (msg : String)
  | securityViolation (msg : String)
deriving DecidableEq

/-- How a call can fail to return a value. -/
inductive Fault where
  | error (e : ParseError)
  | panic
  | diverge
deriving DecidableEq

/-- The part of the security configuration the parser reads. -/
structure JsonLimits where
  maxInputSize : ℕ
  maxDepth : ℕ
deriving DecidableEq

inductive LazyJsonValue where
  | stringBorrowed (bytes : List UInt8)
  | stringOwned (s : List Char)
  | numberSlice (bytes : List UInt8)
  | boolean (b : Bool)
  | null
  | objectSlice (bytes : List UInt8)
  | arraySlice (bytes : List UInt8)
deriving DecidableEq

structure ZeroCopyParser where
  input : List UInt8
  position : ℕ
  depth : ℕ
  limits : JsonLimits
deriving DecidableEq

abbrev Parser (α : Type) := Check ZeroCopyParser Fault α

namespace ZeroCopyParser

def new (limits : JsonLimits) : ZeroCopyParser := ⟨[], 0, 0, limits⟩

section Cursor

def invalidInput {α : Type} (msg : String) : Parser α := throw (.error (.invalidInput msg))

/-- A byte as a character, as `ch as char`. -/
def byteChar (b : UInt8) : String := String.singleton (Char.ofNat b.toNat)

/-- `self.input[self.position]` -/
def current : Parser UInt8 := do
  let s ← get
  match s.input[s.position]? with
  | some b => pure b
  | none => throw .panic

/-- `&self.input[start..self.position]` -/
def sliceFrom (start : ℕ) : Parser (List UInt8) := do
  let s ← get
  if start ≤ s.position ∧ s.position ≤ s.input.length then
    pure ((s.input.take s.position).drop start)
  else throw .panic

def advance (n : ℕ) : Parser Unit := modify fun s => { s with position := s.position + n }

def currentPosition : Parser ℕ := do
  let s ← get
  pure s.position

/-- `self.position >= self.input.len()` -/
def atEnd : Parser Bool := do
  let s ← get
  pure (decide (s.input.length ≤ s.position))

/-- `self.position < self.input.len() && p(self.input[self.position])` -/
def nextIs (p : UInt8 → Bool) : Parser Bool := do
  if ← atEnd then pure false
  else
    let b ← current
    pure (p b)

def ofExcept {α : Type} : Except Fault α → Parser α
  | .ok a => pure a
  | .error e => throw e

/-- More iterations than a loop over the input can make. -/
def budget : Parser ℕ := do
  let s ← get
  pure (s.input.length + 1)

/-- `while self.position < self.input.len() && p(self.input[self.position])` -/
def skipLoop (p : UInt8 → Bool) : ℕ → Parser Unit
  | 0 => throw .diverge
  | fuel + 1 => do
    if ← nextIs p then
      advance 1
      skipLoop p fuel
    else pure ()

def skipWhile (p : UInt8 → Bool) : Parser Unit := do
  let fuel ← budget
  skipLoop p fuel

def skipWhitespace : Parser Unit := skipWhile isWhitespace

def expectChar (ch : UInt8) : Parser Unit := do
  if ← nextIs (· == ch) then advance 1
  else invalidInput ("Expected '" ++ byteChar ch ++ "'")

/-- `self.position + n <= self.input.len() && &self.input[self.position..self.position + n] == text` -/
def startsWith (text : List UInt8) : Parser Bool := do
  let s ← get
  pure (decide (s.position + text.length ≤ s.input.length) &&
    (s.input.drop s.position).take text.length == text)

end Cursor

section Unescape

/-- `input[i]` -/
def byteAt (input : List UInt8) (i : ℕ) : Except Fault UInt8 :=
  match input[i]? with
  | some b => .ok b
  | none => .error .panic

def invalidEscape {α : Type} (msg : String) : Except Fault α := .error (.error (.invalidInput msg))

def parseHex4 (input : List UInt8) (pos : ℕ) : Except Fault ℕ :=
  if pos + 4 ≤ input.length then
    match (input.drop pos).take 4 with
    | [a, b, c, d] =>
      match hex4 a b c d with
      | some v => .ok v
      | none => invalidEscape "Invalid unicode escape"
    | _ => .error .panic
  else invalidEscape "Invalid unicode escape"

/-- `char::from_u32` -/
def charFromU32 (n : ℕ) : Option Char := if h : n.isValidChar then some (Char.ofNatAux n h) else none

/-- The low half of a surrogate pair, from the escape at `i`, and where the escape ends. -/
def lowSurrogate (input : List UInt8) (i : ℕ) : Except Fault (ℕ × ℕ) :=
  if input.length ≤ i + 1 then invalidEscape "Unpaired high surrogate in unicode escape"
  else do
    let b ← byteAt input i
    let c ← byteAt input (i + 1)
    if b ≠ backslash ∨ c ≠ 0x75 then invalidEscape "Unpaired high surrogate in unicode escape"
    else
      let low ← parseHex4 input (i + 2)
      if 0xDC00 ≤ low ∧ low ≤ 0xDFFF then .ok (low, i + 6)
      else invalidEscape "High surrogate not followed by low surrogate"

/-- The code point of the unicode escape at `i`, and where the escape ends. -/
def unicodeEscape (input : List UInt8) (i : ℕ) : Except Fault (ℕ × ℕ) := do
  let high ← parseHex4 input (i + 2)
  if 0xD800 ≤ high ∧ high ≤ 0xDBFF then
    let (low, j) ← lowSurrogate input (i + 6)
    .ok (0x10000 + (high - 0xD800) * 0x400 + (low - 0xDC00), j)
  else if 0xDC00 ≤ high ∧ high ≤ 0xDFFF then
    invalidEscape "Unpaired low surrogate in unicode escape"
  else .ok (high, i + 6)

/-- The loop of `unescape_string`. -/
def unescapeLoop (input : List UInt8) : ℕ → ℕ → List UInt8 → Except Fault (List UInt8)
  | 0, _, _ => .error .diverge
  | fuel + 1, i, result =>
    if i < input.length then do
      let b ← byteAt input i
      if b = backslash ∧ i + 1 < input.length then
        let c ← byteAt input (i + 1)
        if c = 0x75 then
          let (codepoint, i) ← unicodeEscape input i
          match charFromU32 codepoint with
          | some ch => unescapeLoop input fuel i (result ++ String.utf8EncodeChar ch)
          | none => invalidEscape "Invalid unicode codepoint in escape sequence"
        else
          match simpleEscape c with
          | some e => unescapeLoop input fuel (i + 2) (result ++ [e])
          | none => invalidEscape "Invalid escape sequence"
      else unescapeLoop input fuel (i + 1) (result ++ [b])
    else .ok result

/-- `String::from_utf8`: the text these bytes encode. -/
def fromUtf8 (bytes : List UInt8) : Option (List Char) :=
  let text := (Utf8.Decoder.start.run bytes).2
  if Utf8.encode text = bytes then some text else none

-- `Display` of `FromUtf8Error`
variable (utf8Error : List UInt8 → String)

def unescapeString (input : List UInt8) : Except Fault (List Char) := do
  let result ← unescapeLoop input (input.length + 1) 0 []
  match fromUtf8 result with
  | some s => .ok s
  | none => invalidEscape ("Invalid UTF-8: " ++ utf8Error result)

end Unescape

section Values
variable (utf8Error : List UInt8 → String)

def stringLoop (start : ℕ) : ℕ → Parser LazyJsonValue
  | 0 => throw .diverge
  | fuel + 1 => do
    if ← atEnd then invalidInput "Unterminated string"
    else
      let b ← current
      if b = quote then
        let body ← sliceFrom start
        advance 1
        if body.contains backslash then
          let unescaped ← ofExcept (unescapeString utf8Error body)
          pure (.stringOwned unescaped)
        else pure (.stringBorrowed body)
      else if b = backslash then
        advance 2
        stringLoop start fuel
      else
        advance 1
        stringLoop start fuel

def parseString : Parser LazyJsonValue := do
  if ← nextIs (· == quote) then
    let start ← currentPosition
    advance 1
    let fuel ← budget
    stringLoop utf8Error (start + 1) fuel
  else invalidInput "Expected '\"'"

def parseBoolean : Parser LazyJsonValue := do
  if ← startsWith [0x74, 0x72, 0x75, 0x65] then
    advance 4
    pure (.boolean true)
  else if ← startsWith [0x66, 0x61, 0x6C, 0x73, 0x65] then
    advance 5
    pure (.boolean false)
  else invalidInput "Invalid boolean value"

def parseNull : Parser LazyJsonValue := do
  if ← startsWith [0x6E, 0x75, 0x6C, 0x6C] then
    advance 4
    pure .null
  else invalidInput "Invalid null value"

def parseSign : Parser Unit := do
  let b ← current
  if b = 0x2D then advance 1 else pure ()

def parseInteger : Parser Unit := do
  if ← atEnd then invalidInput "Invalid number"
  else
    let b ← current
    if b = 0x30 then advance 1
    else if isDigit b then skipWhile isDigit
    else invalidInput "Invalid number"

/-- Digits that must be there, after a decimal point or in an exponent. -/
def parseDigits (msg : String) : Parser Unit := do
  if ← nextIs isDigit then skipWhile isDigit else invalidInput msg

def parseFraction : Parser Unit := do
  if ← nextIs (· == 0x2E) then
    advance 1
    parseDigits "Invalid number: missing digits after decimal"
  else pure ()

def parseExponent : Parser Unit := do
  if ← nextIs fun b => b == 0x65 || b == 0x45 then
    advance 1
    (do if ← nextIs fun b => b == 0x2B || b == 0x2D then advance 1 else pure () : Parser Unit)
    parseDigits "Invalid number: missing digits in exponent"
  else pure ()

def parseNumber : Parser LazyJsonValue := do
  let start ← currentPosition
  parseSign
  parseInteger
  parseFraction
  parseExponent
  let slice ← sliceFrom start
  pure (.numberSlice slice)

/-- `validate_json_depth(self.depth + 1)` -/
def validateDepth : Parser Unit := do
  let s ← get
  if s.depth + 1 > s.limits.maxDepth then
    throw (.error (.securityViolation ("JSON nesting depth " ++ Nat.repr (s.depth + 1) ++
      " exceeds maximum allowed " ++ Nat.repr s.limits.maxDepth)))
  else pure ()

def setDepth (f : ℕ → ℕ) : Parser Unit := modify fun s => { s with depth := f s.depth }

section Containers
-- `parse_value` for what is nested one level further down
variable (parseNested : Parser LazyJsonValue)

/-- One key and its value. The key is read as any value. -/
def parseMember : Parser Unit := do
  let _key ← parseNested
  skipWhitespace
  expectChar colon
  skipWhitespace
  let _value ← parseNested
  skipWhitespace

def parseElement : Parser Unit := do
  let _element ← parseNested
  skipWhitespace

/-- The loop over the entries of a container that `close` ends. -/
def entriesLoop (entry : Parser Unit) (close : UInt8) : ℕ → Bool → Parser Unit
  | 0, _ => throw .diverge
  | fuel + 1, first => do
    if ← nextIs (· != close) then
      (if first then pure ()
        else do
          expectChar comma
          skipWhitespace : Parser Unit)
      entry
      entriesLoop entry close fuel false
    else pure ()

/-- `parse_object` and `parse_array`, which differ in their delimiters, their entries and the
variant they return. -/
def parseContainer (entry : Parser Unit) (open' close : UInt8)
    (variant : List UInt8 → LazyJsonValue) : Parser LazyJsonValue := do
  validateDepth
  if ← nextIs (· == open') then
    let start ← currentPosition
    advance 1
    setDepth (· + 1)
    skipWhitespace
    if ← nextIs (· == close) then
      advance 1
      setDepth (· - 1)
      let slice ← sliceFrom start
      pure (variant slice)
    else
      let fuel ← budget
      entriesLoop entry close fuel true
      expectChar close
      setDepth (· - 1)
      let slice ← sliceFrom start
      pure (variant slice)
  else invalidInput ("Expected '" ++ byteChar open' ++ "'")

def parseObject : Parser LazyJsonValue :=
  parseContainer (parseMember parseNested) openBrace closeBrace .objectSlice

def parseArray : Parser LazyJsonValue :=
  parseContainer (parseElement parseNested) openBracket closeBracket .arraySlice

def parseValueWith : Parser LazyJsonValue := do
  skipWhitespace
  if ← atEnd then invalidInput "Unexpected end of input"
  else
    let ch ← current
    if ch = quote then parseString utf8Error
    else if ch = openBrace then parseObject parseNested
    else if ch = openBracket then parseArray parseNested
    else if ch = 0x74 ∨ ch = 0x66 then parseBoolean
    else if ch = 0x6E then parseNull
    else if ch = 0x2D ∨ isDigit ch then parseNumber
    else invalidInput ("Unexpected character: " ++ byteChar ch)

end Containers

/-- `parse_value`, with the recursion it has left. -/
def parseValue : ℕ → Parser LazyJsonValue
  | 0 => parseValueWith utf8Error (throw .diverge)
  | levels + 1 => parseValueWith utf8Error (parseValue levels)

/-- `parse_lazy`: the recursion is granted the configured depth and no more. -/
def parseLazy (input : List UInt8) : Parser LazyJsonValue := do
  let s ← get
  if input.length > s.limits.maxInputSize then
    throw (.error (.securityViolation ("Input size " ++ Nat.repr input.length ++
      " exceeds maximum allowed " ++ Nat.repr s.limits.maxInputSize ++ " bytes")))
  else
    set { s with input, position := 0, depth := 0 }
    parseValue utf8Error s.limits.maxDepth

/-- What is left to parse. -/
def remaining (s : ZeroCopyParser) : List UInt8 :=
  if s.position < s.input.length then s.input.drop s.position else []

end Values

end ZeroCopyParser

end PJS
