import PJS.Domain.JsonData
import PJS.Domain.JsonPath

/-! The partial parser over `jiter`. The walker asks the tokenizer for one token after the other;
the tokenizer is a parameter, and so is its state. A walk runs on fuel, and `none` is a walk that
ran out of it or a panic. -/
namespace PJS

/-- The errors of the tokenizer that the walker tells apart. -/
inductive JsonErrorType where
  | eofWhileParsingList
  | eofWhileParsingObject
  | eofWhileParsingString
  | eofWhileParsingValue
  | expectedListCommaOrEnd
  | expectedObjectCommaOrEnd
  | expectedSomeValue
  | invalidNumber
  | recursionLimitExceeded
  | other (msg : String)
deriving DecidableEq

structure JiterError where
  errorType : JsonErrorType
  index : ℕ
deriving DecidableEq

/-- What the next value is, by its first byte. -/
inductive Peek where
  | null
  | true
  | false
  | string
  | number
  | array
  | object
  | unknown
deriving DecidableEq

inductive NumberAny where
  | int (i : Int64)
  | bigInt (b : ℤ)
  | float (f : Float)
deriving DecidableEq

/-- The tokenizer: what each call returns, and its state afterwards. -/
structure Jiter (σ : Type) where
  new : (allowInfNan allowPartialStrings : Bool) → List UInt8 → σ
  peek : σ → Except JiterError Peek × σ
  knownNull : σ → Except JiterError Unit × σ
  knownBool : Peek → σ → Except JiterError Bool × σ
  knownNumber : Peek → σ → Except JiterError NumberAny × σ
  knownStr : σ → Except JiterError String × σ
  knownArray : σ → Except JiterError (Option Peek) × σ
  arrayStep : σ → Except JiterError (Option Peek) × σ
  knownObject : σ → Except JiterError (Option String) × σ
  nextKey : σ → Except JiterError (Option String) × σ
  currentIndex : σ → ℕ
  /-- The text of an error. -/
  errorText : JsonErrorType → String
  /-- `str::parse::<f64>` on the decimal text of a big integer. -/
  parseF64 : String → Float

/-- Configuration of the partial parser. -/
structure JiterConfig where
  maxInputSize : ℕ
  maxDepth : ℕ
  emitStreamingHint : Bool
  allowTrailingStrings : Bool
  allowInfNan : Bool

def JiterConfig.default : JiterConfig := ⟨100 * 1024 * 1024, 64, true, true, false⟩

/-- Non-fatal observations. -/
inductive ParseDiagnostic where
  | duplicateKey (path : JsonPath) (key : String)
  | bigIntLossyConversion (path : JsonPath) (original : String) (converted : Float)

/-- Outcome of one step of the walk. -/
inductive WalkOutcome where
  | complete (value : JsonData) (cursor : ℕ) (diagnostics : List ParseDiagnostic)
  | truncated (partialValue : JsonData) (cursor : ℕ) (diagnostics : List ParseDiagnostic)
  | hard (e : JiterError)

structure StreamingHint where
  stablePaths : List JsonPath
  tentativePaths : List JsonPath

structure PartialParseResult where
  value : JsonData
  consumed : ℕ
  isComplete : Bool
  streamingHint : Option StreamingHint
  diagnostics : List ParseDiagnostic

def PartialParseResult.empty : PartialParseResult := ⟨.null, 0, false, none, []⟩

/-- The variants of the core crate's error that the partial parser raises. -/
inductive PartialParseError where
  | buffer (msg : String)
  | invalidJson (position : ℕ) (message : String)
deriving DecidableEq

/-- The order in which each hash map of a value lists its keys. Every map has its own, so the order
depends on where in the value the map stands. -/
@[ext]
structure MapOrder where
  order : List (Doc.Step String) → List String → List String
  perm : ∀ steps keys, (order steps keys).Perm keys

/-- The orders of the maps below a step. -/
def MapOrder.under (m : MapOrder) (step : Doc.Step String) : MapOrder where
  order steps := m.order (step :: steps)
  perm steps := m.perm (step :: steps)

namespace JiterPartialParser

/-- `u8::is_ascii_whitespace`. -/
def isAsciiWhitespace (b : UInt8) : Bool :=
  b == 0x20 || b == 0x09 || b == 0x0A || b == 0x0C || b == 0x0D

def isPartialTolerated (e : JiterError) : Bool :=
  match e.errorType with
  | .eofWhileParsingList | .eofWhileParsingObject | .eofWhileParsingString
  | .eofWhileParsingValue | .expectedListCommaOrEnd | .expectedObjectCommaOrEnd => true
  | _ => false

def countTrailingWhitespace (input : List UInt8) (start : ℕ) : ℕ :=
  ((input.drop start).takeWhile isAsciiWhitespace).length

section Hint

/-- The path of a field. A key that a path cannot hold falls back to the parent's path. -/
def childPath (path : JsonPath) (key : String) : JsonPath :=
  match path.appendKey key with
  | .ok child => child
  | .error _ => path

mutual

/-- Collect all leaf paths from a value in depth-first order. -/
def collectLeaves : MapOrder → JsonData → JsonPath → List JsonPath
  | m, .object map, path =>
    let fields := collectFields m map path
    (m.order [] (fields.map Prod.fst)).flatMap fun key => (fields.lookup key).getD []
  | m, .array items, path => collectItems m items path 0
  | _, .scalar _, path => [path]

def collectFields : MapOrder → List (String × JsonData) → JsonPath → List (String × List JsonPath)
  | _, [], _ => []
  | m, (key, child) :: rest, path =>
    (key, collectLeaves (m.under (.key key)) child (childPath path key)) ::
      collectFields m rest path

def collectItems : MapOrder → List JsonData → JsonPath → ℕ → List JsonPath
  | _, [], _, _ => []
  | m, child :: rest, path, idx =>
    collectLeaves (m.under (.index idx)) child (path.appendIndex (UInt64.ofNat idx)) ++
      collectItems m rest path (idx + 1)

end

/-- Classify the leaves of a value as stable or tentative. -/
def buildStreamingHint (m : MapOrder) (value : JsonData) (root : JsonPath) (isTruncated : Bool) :
    Option StreamingHint :=
  match value with
  | .scalar _ => none
  | _ =>
    let allPaths := collectLeaves m value root
    if isTruncated && !allPaths.isEmpty then
      some ⟨allPaths.dropLast, allPaths.getLast?.toList⟩
    else some ⟨allPaths, []⟩

end Hint

section Walk

variable {σ : Type} (jiter : Jiter σ) (config : JiterConfig)

/-- A token that could not be read: dropped at the end of the input, fatal elsewhere. -/
def dropped (e : JiterError) (pre : ℕ) : WalkOutcome :=
  if isPartialTolerated e then .truncated .null pre [] else .hard e

def walkString (pre : ℕ) (s : σ) : WalkOutcome × σ :=
  match jiter.knownStr s with
  | (.ok str, s) => (.complete (.string str) (jiter.currentIndex s) [], s)
  | (.error e, s) =>
    if e.errorType = .eofWhileParsingString then (.truncated .null pre [], s) else (.hard e, s)

def walkNumber (peek : Peek) (pre : ℕ) (path : JsonPath) (s : σ) : WalkOutcome × σ :=
  match jiter.knownNumber peek s with
  | (.ok (.int i), s) => (.complete (.integer i) (jiter.currentIndex s) [], s)
  | (.ok (.bigInt b), s) =>
    let original := Int.repr b
    let converted := jiter.parseF64 original
    (.complete (.float converted) (jiter.currentIndex s)
      [.bigIntLossyConversion path original converted], s)
  | (.ok (.float f), s) => (.complete (.float f) (jiter.currentIndex s) [], s)
  | (.error e, s) =>
    if e.errorType = .eofWhileParsingValue then (.truncated .null pre [], s) else (.hard e, s)

/-- The note about a key that is in the map already. -/
def duplicate (path : JsonPath) (key : String) (map : List (String × JsonData)) :
    List ParseDiagnostic :=
  if key ∈ map.map Prod.fst then [.duplicateKey path key] else []

def depthError (s : σ) : WalkOutcome := .hard ⟨.recursionLimitExceeded, jiter.currentIndex s⟩

mutual

/-- The value that was peeked at; `pre` is where it starts. -/
def walkValue : ℕ → Peek → ℕ → ℕ → JsonPath → σ → Option (WalkOutcome × σ)
  | 0, _, _, _, _, _ => none
  | fuel + 1, peek, pre, depth, path, s =>
    match peek with
    | .null =>
      match jiter.knownNull s with
      | (.ok (), s) => some (.complete .null (jiter.currentIndex s) [], s)
      | (.error e, s) => some (dropped e pre, s)
    | .true | .false =>
      match jiter.knownBool peek s with
      | (.ok b, s) => some (.complete (.bool b) (jiter.currentIndex s) [], s)
      | (.error e, s) => some (dropped e pre, s)
    | .string => some (walkString jiter pre s)
    | .number => some (walkNumber jiter peek pre path s)
    | .array => walkArray fuel (depth + 1) path (jiter.currentIndex s) s
    | .object => walkObject fuel (depth + 1) path (jiter.currentIndex s) s
    | .unknown => some (.hard ⟨.expectedSomeValue, pre⟩, s)

/-- Dispatch a pre-peeked value through the walker. -/
def walkWithPeek : ℕ → Peek → ℕ → JsonPath → σ → Option (WalkOutcome × σ)
  | 0, _, _, _, _ => none
  | fuel + 1, peek, depth, path, s =>
    if depth ≥ config.maxDepth then some (depthError jiter s, s)
    else walkValue fuel peek (jiter.currentIndex s) depth path s

def walkArray : ℕ → ℕ → JsonPath → ℕ → σ → Option (WalkOutcome × σ)
  | 0, _, _, _, _ => none
  | fuel + 1, depth, path, preOpen, s =>
    match jiter.knownArray s with
    | (.ok (some peek), s) => arrayLoop fuel peek depth path [] [] s
    | (.ok none, s) => some (.complete (.array []) (jiter.currentIndex s) [], s)
    | (.error e, s) =>
      if isPartialTolerated e then some (.truncated (.array []) preOpen [], s)
      else some (.hard e, s)

/-- The loop over the elements, with those read so far. -/
def arrayLoop : ℕ → Peek → ℕ → JsonPath → List JsonData → List ParseDiagnostic → σ →
    Option (WalkOutcome × σ)
  | 0, _, _, _, _, _, _ => none
  | fuel + 1, peek, depth, path, items, diagnostics, s =>
    match walkWithPeek fuel peek depth (path.appendIndex (UInt64.ofNat items.length)) s with
    | none => none
    | some (.hard e, s) => some (.hard e, s)
    | some (.truncated partialValue cursor ds, s) =>
      some (.truncated (.array (items ++ [partialValue])) cursor (diagnostics ++ ds), s)
    | some (.complete value cursor ds, s) =>
      let items := items ++ [value]
      let diagnostics := diagnostics ++ ds
      match jiter.arrayStep s with
      | (.ok (some peek), s) => arrayLoop fuel peek depth path items diagnostics s
      | (.ok none, s) =>
        some (.complete (.array items) (jiter.currentIndex s) diagnostics, s)
      | (.error e, s) =>
        if isPartialTolerated e then some (.truncated (.array items) cursor diagnostics, s)
        else some (.hard e, s)

def walkObject : ℕ → ℕ → JsonPath → ℕ → σ → Option (WalkOutcome × σ)
  | 0, _, _, _, _ => none
  | fuel + 1, depth, path, preOpen, s =>
    match jiter.knownObject s with
    | (.ok (some key), s) => objectLoop fuel key depth path [] preOpen [] s
    | (.ok none, s) => some (.complete (.object []) (jiter.currentIndex s) [], s)
    | (.error e, s) =>
      if isPartialTolerated e then some (.truncated (.object []) preOpen [], s)
      else some (.hard e, s)

/-- The loop over the entries, with the map so far and the cursor after its last entry. -/
def objectLoop : ℕ → String → ℕ → JsonPath → List (String × JsonData) → ℕ →
    List ParseDiagnostic → σ → Option (WalkOutcome × σ)
  | 0, _, _, _, _, _, _, _ => none
  | fuel + 1, key, depth, path, map, cursorAfter, diagnostics, s =>
    match jiter.peek s with
    | (.error e, s) =>
      if isPartialTolerated e then some (.truncated (.object map) cursorAfter diagnostics, s)
      else some (.hard e, s)
    | (.ok peek, s) =>
      let noted := diagnostics ++ duplicate path key map
      match walkWithPeek fuel peek depth (childPath path key) s with
      | none => none
      | some (.hard e, s) => some (.hard e, s)
      | some (.truncated partialValue cursor ds, s) =>
        some (.truncated (.object (Assoc.insert key partialValue map)) cursor
          (noted ++ ds), s)
      | some (.complete value cursor ds, s) =>
        let map := Assoc.insert key value map
        let diagnostics := noted ++ ds
        match jiter.nextKey s with
        | (.ok (some key), s) => objectLoop fuel key depth path map cursor diagnostics s
        | (.ok none, s) =>
          some (.complete (.object map) (jiter.currentIndex s) diagnostics, s)
        | (.error e, s) =>
          if isPartialTolerated e then some (.truncated (.object map) cursor diagnostics, s)
          else some (.hard e, s)

end

/-- The walk of a document. -/
def walk (fuel : ℕ) (depth : ℕ) (path : JsonPath) (s : σ) : Option (WalkOutcome × σ) :=
  if depth ≥ config.maxDepth then some (depthError jiter s, s)
  else
    let pre := jiter.currentIndex s
    match jiter.peek s with
    | (.error e, s) =>
      if e.errorType = .eofWhileParsingValue then some (.truncated .null pre [], s)
      else some (.hard e, s)
    | (.ok peek, s) => walkValue jiter config fuel peek pre depth path s

/-- The result that the outcome of the walk is turned into. -/
def assemble (m : MapOrder) (input : List UInt8) :
    WalkOutcome → Except PartialParseError PartialParseResult
  | .complete value cursor diagnostics =>
    let consumed := cursor + countTrailingWhitespace input cursor
    let hint :=
      if config.emitStreamingHint then buildStreamingHint m value .root false else none
    .ok ⟨value, consumed, decide (consumed ≥ input.length), hint, diagnostics⟩
  | .truncated partialValue cursor diagnostics =>
    let hint :=
      if config.emitStreamingHint then buildStreamingHint m partialValue .root true else none
    .ok ⟨partialValue, cursor, false, hint, diagnostics⟩
  | .hard e => .error (.invalidJson e.index (jiter.errorText e.errorType))

/-- Parse the largest valid prefix of the input. -/
def parsePartial (m : MapOrder) (fuel : ℕ) (input : List UInt8) :
    Option (Except PartialParseError PartialParseResult) :=
  if input.length > config.maxInputSize then
    some (.error (.buffer
      s!"input length {input.length} exceeds max_input_size {config.maxInputSize}"))
  else if input.all isAsciiWhitespace then some (.ok .empty)
  else
    (walk jiter config fuel 0 .root
      (jiter.new config.allowInfNan config.allowTrailingStrings input)).map fun r =>
    assemble jiter config m input r.1

end Walk

end JiterPartialParser

end PJS
