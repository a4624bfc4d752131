import PJS.Parser.ZeroCopy

/-! The parser as a function on what is left of the input. The cursor tracks it: where the function
returns a value the cursor returns it and has moved over what was consumed, and where it does not
the cursor returns an error. A panic or an exhausted budget is neither. -/
namespace PJS
open JsonText (quote backslash comma colon openBrace closeBrace openBracket closeBracket
  isWhitespace isDigit hexDigit hex4 simpleEscape)

/-- A reader of bytes: a value and what is left, or nothing. -/
abbrev Scan (α : Type) := StateT (List UInt8) Option α

namespace Scan

section Bytes

def fail {α : Type} : Scan α := fun _ => none

def skipWhile (p : UInt8 → Bool) : Scan Unit := fun w => some ((), w.dropWhile p)

def nextIs (p : UInt8 → Bool) : Scan Bool := fun w =>
  match w with
  | b :: _ => some (p b, w)
  | [] => some (false, w)

def atEnd : Scan Bool := fun w => some (w.isEmpty, w)

/-- The next byte, which stays. -/
def current : Scan UInt8 := fun w =>
  match w with
  | b :: _ => some (b, w)
  | [] => none

def take (n : ℕ) : Scan Unit := fun w => if n ≤ w.length then some ((), w.drop n) else none

def startsWith (text : List UInt8) : Scan Bool := fun w => some (w.take text.length == text, w)

end Bytes

section Strings

/-- The bytes up to the closing quote, which is consumed, stepping over escapes. -/
def closeQuote : List UInt8 → Option (List UInt8 × List UInt8)
  | [] => none
  | [b] => if b = quote then some ([], []) else none
  | b :: c :: rest =>
    if b = quote then some ([], c :: rest)
    else if b = backslash then (closeQuote rest).map fun r => (b :: c :: r.1, r.2)
    else (closeQuote (c :: rest)).map fun r => (b :: r.1, r.2)

/-- The low half of a surrogate pair, with the escape it is written in. -/
def lowSurrogate : List UInt8 → Option (ℕ × List UInt8)
  | s :: u :: c₁ :: c₂ :: c₃ :: c₄ :: rest =>
    if s = backslash ∧ u = 0x75 then do
      let low ← hex4 c₁ c₂ c₃ c₄
      if 0xDC00 ≤ low ∧ low ≤ 0xDFFF then some (low, rest) else none
    else none
  | _ => none

/-- The code point of a unicode escape, from its digits on. -/
def unicodeEscape : List UInt8 → Option (ℕ × List UInt8)
  | b₁ :: b₂ :: b₃ :: b₄ :: rest => do
    let high ← hex4 b₁ b₂ b₃ b₄
    if 0xD800 ≤ high ∧ high ≤ 0xDBFF then do
      let (low, rest) ← lowSurrogate rest
      some (0x10000 + (high - 0xD800) * 0x400 + (low - 0xDC00), rest)
    else if 0xDC00 ≤ high ∧ high ≤ 0xDFFF then none
    else some (high, rest)
  | _ => none

/-- One character of a string body: the bytes it stands for, and the rest. -/
def unescapeStep : List UInt8 → Option (List UInt8 × List UInt8)
  | [] => none
  | [b] => some ([b], [])
  | b :: c :: rest =>
    if b = backslash then
      if c = 0x75 then do
        let (codepoint, rest) ← unicodeEscape rest
        let ch ← ZeroCopyParser.charFromU32 codepoint
        some (String.utf8EncodeChar ch, rest)
      else (simpleEscape c).map fun e => ([e], rest)
    else some ([b], c :: rest)

theorem lowSurrogate_cons (c₁ c₂ c₃ c₄ : UInt8) (rest : List UInt8) :
    lowSurrogate (backslash :: 0x75 :: c₁ :: c₂ :: c₃ :: c₄ :: rest) =
      (hex4 c₁ c₂ c₃ c₄).bind fun low =>
        if 0xDC00 ≤ low ∧ low ≤ 0xDFFF then some (low, rest) else none := rfl

theorem lowSurrogate_short {w : List UInt8} (h : w.length < 4) :
    lowSurrogate (backslash :: 0x75 :: w) = none := by
  rcases w with _ | ⟨c₁, _ | ⟨c₂, _ | ⟨c₃, _ | ⟨c₄, w⟩⟩⟩⟩
  · rfl
  · rfl
  · rfl
  · rfl
  · simp only [List.length_cons] at h
    omega

theorem lowSurrogate_other {s u : UInt8} {w : List UInt8} (h : ¬ (s = backslash ∧ u = 0x75)) :
    lowSurrogate (s :: u :: w) = none := by
  unfold lowSurrogate
  split
  · rename_i heq
    cases heq
    rw [if_neg h]
  · rfl

theorem unicodeEscape_cons (b₁ b₂ b₃ b₄ : UInt8) (rest : List UInt8) :
    unicodeEscape (b₁ :: b₂ :: b₃ :: b₄ :: rest) =
      (hex4 b₁ b₂ b₃ b₄).bind fun high =>
        if 0xD800 ≤ high ∧ high ≤ 0xDBFF then
          (lowSurrogate rest).bind fun r =>
            some (0x10000 + (high - 0xD800) * 0x400 + (r.1 - 0xDC00), r.2)
        else if 0xDC00 ≤ high ∧ high ≤ 0xDFFF then none
        else some (high, rest) := rfl

theorem unicodeEscape_short {w : List UInt8} (h : w.length < 4) : unicodeEscape w = none := by
  rcases w with _ | ⟨c₁, _ | ⟨c₂, _ | ⟨c₃, _ | ⟨c₄, w⟩⟩⟩⟩
  · rfl
  · rfl
  · rfl
  · rfl
  · simp only [List.length_cons] at h
    omega

theorem length_lowSurrogate {w rest : List UInt8} {n : ℕ} (h : lowSurrogate w = some (n, rest)) :
    rest.length < w.length := by
  unfold lowSurrogate at h
  split at h
  · split at h
    · simp only [Option.bind_eq_bind, Option.bind_eq_some_iff] at h
      obtain ⟨low, -, h⟩ := h
      split at h
      · simp only [Option.some.injEq, Prod.mk.injEq] at h
        obtain ⟨-, rfl⟩ := h
        simp only [List.length_cons]
        omega
      · cases h
    · cases h
  · cases h

theorem length_unicodeEscape {w rest : List UInt8} {n : ℕ} (h : unicodeEscape w = some (n, rest)) :
    rest.length < w.length := by
  unfold unicodeEscape at h
  split at h
  · simp only [Option.bind_eq_bind, Option.bind_eq_some_iff] at h
    obtain ⟨high, -, h⟩ := h
    split at h
    · simp only [Option.bind_eq_some_iff] at h
      obtain ⟨⟨low, w⟩, hlow, h⟩ := h
      have hlt := length_lowSurrogate hlow
      simp only [Option.some.injEq, Prod.mk.injEq] at h
      obtain ⟨-, rfl⟩ := h
      simp only [List.length_cons]
      omega
    · split at h
      · cases h
      · simp only [Option.some.injEq, Prod.mk.injEq] at h
        obtain ⟨-, rfl⟩ := h
        simp only [List.length_cons]
        omega
  · cases h

theorem length_unescapeStep {w out rest : List UInt8} (h : unescapeStep w = some (out, rest)) :
    rest.length < w.length := by
  unfold unescapeStep at h
  split at h
  · cases h
  · cases h
    exact Nat.zero_lt_one
  · rename_i b c tail
    split at h
    · split at h
      · cases hu : unicodeEscape tail with
        | none => simp [hu] at h
        | some r =>
          have hlt := length_unicodeEscape (w := tail) (n := r.1) hu
          obtain ⟨ch, -, hch⟩ : ∃ ch, ZeroCopyParser.charFromU32 r.1 = some ch ∧
              some (String.utf8EncodeChar ch, r.2) = some (out, rest) := by
            simpa [hu, Option.bind_eq_some_iff] using h
          cases hch
          simp only [List.length_cons]
          omega
      · obtain ⟨e, -, he⟩ := Option.map_eq_some_iff.mp h
        cases he
        simp only [List.length_cons]
        omega
    · cases h
      exact Nat.lt_succ_self _

def unescape (w : List UInt8) : Option (List UInt8) :=
  if w = [] then some []
  else
    match h : unescapeStep w with
    | some r =>
      have : r.2.length < w.length := length_unescapeStep (show unescapeStep w = some (r.1, r.2) from h)
      (unescape r.2).map (r.1 ++ ·)
    | none => none
termination_by w.length

theorem unescapeStep_plain {b : UInt8} (h : b ≠ backslash) (w : List UInt8) :
    unescapeStep (b :: w) = some ([b], w) := by
  cases w with
  | nil => rfl
  | cons c w => exact if_neg h

theorem unescapeStep_unicode (w : List UInt8) :
    unescapeStep (backslash :: 0x75 :: w) = (unicodeEscape w).bind fun r =>
      (ZeroCopyParser.charFromU32 r.1).bind fun ch => some (String.utf8EncodeChar ch, r.2) := rfl

theorem unescapeStep_simple {c : UInt8} (h : c ≠ 0x75) (w : List UInt8) :
    unescapeStep (backslash :: c :: w) = (simpleEscape c).map fun e => ([e], w) :=
  if_neg h

theorem unescape_nil : unescape [] = some [] := by
  rw [unescape, if_pos rfl]

theorem unescape_cons (b : UInt8) (w : List UInt8) :
    unescape (b :: w) = (unescapeStep (b :: w)).bind fun r => (unescape r.2).map (r.1 ++ ·) := by
  rw [unescape, if_neg (List.cons_ne_nil b w)]
  split
  · rename_i h
    simp only [h, Option.bind_some]
  · rename_i h
    simp only [h, Option.bind_none]

def unescapeString (body : List UInt8) : Option (List Char) :=
  (unescape body).bind ZeroCopyParser.fromUtf8

end Strings

section Leaves

/-- What the reader consumes, in place of what it returns. -/
def consumed (g : Scan Unit) : Scan (List UInt8) := fun w =>
  (g w).map fun r => (w.take (w.length - r.2.length), r.2)

def skipWhitespace : Scan Unit := skipWhile isWhitespace

def expect (ch : UInt8) : Scan Unit := do
  if ← nextIs (· == ch) then take 1 else fail

/-- What is returned for the body of a string. -/
def readBody (body : List UInt8) : Option LazyJsonValue :=
  if body.contains backslash then (unescapeString body).map .stringOwned
  else some (.stringBorrowed body)

def string : Scan LazyJsonValue
  | [] => none
  | b :: rest =>
    if b = quote then do
      let (body, rest) ← closeQuote rest
      let v ← readBody body
      some (v, rest)
    else none

def literal (text : List UInt8) (v : LazyJsonValue) : Scan LazyJsonValue := do
  if ← startsWith text then
    take text.length
    pure v
  else fail

def boolean : Scan LazyJsonValue := do
  if ← startsWith [0x74, 0x72, 0x75, 0x65] then
    take 4
    pure (.boolean true)
  else literal [0x66, 0x61, 0x6C, 0x73, 0x65] (.boolean false)

def null : Scan LazyJsonValue := literal [0x6E, 0x75, 0x6C, 0x6C] .null

def sign : Scan Unit := do
  let b ← current
  if b = 0x2D then take 1 else pure ()

def integer : Scan Unit := do
  if ← atEnd then fail
  else
    let b ← current
    if b = 0x30 then take 1
    else if isDigit b then skipWhile isDigit
    else fail

def digits : Scan Unit := do
  if ← nextIs isDigit then skipWhile isDigit else fail

def fraction : Scan Unit := do
  if ← nextIs (· == 0x2E) then
    take 1
    digits
  else pure ()

def exponent : Scan Unit := do
  if ← nextIs fun b => b == 0x65 || b == 0x45 then
    take 1
    (do if ← nextIs fun b => b == 0x2B || b == 0x2D then take 1 else pure () : Scan Unit)
    digits
  else pure ()

def number : Scan LazyJsonValue := do
  let slice ← consumed do
    sign
    integer
    fraction
    exponent
  pure (.numberSlice slice)

end Leaves

section Values

/-- One more entry of a container, if its end is not reached. -/
def entry (item : Scan Unit) (close : UInt8) (first : Bool) : Scan Bool := do
  if ← nextIs (· != close) then
    (if first then pure ()
      else do
        expect comma
        skipWhitespace : Scan Unit)
    item
    pure true
  else pure false

/-- The entries up to the end of a container. An entry that consumes nothing ends in failure. -/
def entries (item : Scan Unit) (close : UInt8) (first : Bool) (w : List UInt8) :
    Option (Unit × List UInt8) :=
  match entry item close first w with
  | some (true, rest) =>
    if rest.length < w.length then entries item close false rest else none
  | some (false, rest) => some ((), rest)
  | none => none
termination_by w.length

def container (item : Scan Unit) (open' close : UInt8) (variant : List UInt8 → LazyJsonValue) :
    Scan LazyJsonValue := do
  let slice ← consumed do
    expect open'
    skipWhitespace
    if ← nextIs (· == close) then take 1
    else
      entries item close true
      expect close
  pure (variant slice)

variable (nested : Scan LazyJsonValue)

def member : Scan Unit := do
  let _key ← nested
  skipWhitespace
  expect colon
  skipWhitespace
  let _value ← nested
  skipWhitespace

def element : Scan Unit := do
  let _element ← nested
  skipWhitespace

def valueWith (object array : Scan LazyJsonValue) : Scan LazyJsonValue := do
  skipWhitespace
  if ← atEnd then fail
  else
    let ch ← current
    if ch = quote then string
    else if ch = openBrace then object
    else if ch = openBracket then array
    else if ch = 0x74 ∨ ch = 0x66 then boolean
    else if ch = 0x6E then null
    else if ch = 0x2D ∨ isDigit ch then number
    else fail

/-- A value that nests at most so many containers. -/
def value : ℕ → Scan LazyJsonValue
  | 0 => valueWith fail fail
  | levels + 1 =>
    valueWith (container (member (value levels)) openBrace closeBrace .objectSlice)
      (container (element (value levels)) openBracket closeBracket .arraySlice)

end Values

end Scan

end PJS
