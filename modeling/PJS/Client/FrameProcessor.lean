import PJS.Client.JsValue
import PJS.Domain.PathText

/-! The client's check of a frame before it processes it. -/
namespace PJS.FrameProcessor

/-- Where the path pattern `^\$(\.[a-zA-Z_][a-zA-Z0-9_]*(\[\d+\])?)*$` stands after some of a path.
At each place a character fits at most one part of the pattern. -/
inductive PathState where
  | start
  | boundary
  | dot
  | identifier
  | bracket
  | digits
  | rejected
deriving DecidableEq

def isIdentifierStart (c : Char) : Bool :=
  ('a' ≤ c && c ≤ 'z') || ('A' ≤ c && c ≤ 'Z') || c = '_'

def isIdentifierRest (c : Char) : Bool := isIdentifierStart c || c.isDigit

def PathState.next : PathState → Char → PathState
  | .start, c => if c = '$' then .boundary else .rejected
  | .boundary, c => if c = '.' then .dot else .rejected
  | .dot, c => if isIdentifierStart c then .identifier else .rejected
  | .identifier, c =>
    if isIdentifierRest c then .identifier
    else if c = '.' then .dot
    else if c = '[' then .bracket
    else .rejected
  | .bracket, c => if c.isDigit then .digits else .rejected
  | .digits, c => if c.isDigit then .digits else if c = ']' then .boundary else .rejected
  | .rejected, _ => .rejected

def PathState.accepts : PathState → Bool
  | .boundary | .identifier => true
  | _ => false

def isValidJsonPath (path : String) : Bool :=
  if path.toList.head? ≠ some '$' then false
  else (path.toList.foldl PathState.next .start).accepts

def frameTypes : List String := ["Skeleton", "Patch", "Complete", "Error"]

def validOperations : List String := ["set", "append", "merge", "delete"]

section Validate
-- the text of a value in a template string
variable (showJs : JsValue → String)

/-- The errors of one patch operation. -/
def validatePatchOperations (patch : JsValue) (index : ℕ) : List String :=
  match patch with
  | .scalar _ => ["Patch operation " ++ Nat.repr index ++ " must be an object"]
  | _ =>
    let path := patch.property "path"
    let operation := patch.property "operation"
    (match path with
      | .scalar (.string s) =>
        if s.isEmpty then ["Patch operation " ++ Nat.repr index ++ " must have a valid path"]
        else if isValidJsonPath s then []
        else ["Patch operation " ++ Nat.repr index ++ " has invalid JSON path: " ++ s]
      | _ => ["Patch operation " ++ Nat.repr index ++ " must have a valid path"]) ++
    (match operation with
      | .scalar (.string s) =>
        if s ∈ validOperations then []
        else ["Patch operation " ++ Nat.repr index ++ " has invalid operation: " ++ s]
      | operation =>
        ["Patch operation " ++ Nat.repr index ++ " has invalid operation: " ++ showJs operation])

/-- The errors of the operations from `index` on. -/
def validateAll : List JsValue → ℕ → List String
  | [], _ => []
  | patch :: rest, index => validatePatchOperations showJs patch index ++ validateAll rest (index + 1)

def priorityErrors (priority : JsValue) : List String :=
  match priority with
  | .scalar (.number f) =>
    if f < 0 ∨ f > 100 then ["Priority must be between 0 and 100"] else []
  | _ => ["Frame missing numeric priority field"]

def payloadErrors (frameType : String) (payload : JsValue) : List String :=
  if frameType = "Skeleton" then
    if payload = .scalar .undefined then ["Skeleton frame must have payload field"] else []
  else if frameType = "Patch" then
    match payload.property "patches" with
    | .array patches =>
      if patches.isEmpty then ["Patch frame must have at least one patch operation"]
      else validateAll showJs patches 0
    | _ => ["Patch frame must have payload.patches array"]
  else []

/-- Validate a frame without mutating state: the errors, if any. -/
def validateFrame (frame : JsValue) : List String :=
  match frame with
  | .scalar _ => ["Frame must be an object"]
  | _ =>
    let frameType := frame.property "frame_type"
    if frameType.falsy then ["Frame missing frame_type field"]
    else match frameType with
    | .scalar (.string name) =>
      if name ∈ frameTypes then
        priorityErrors (frame.property "priority") ++
          payloadErrors showJs name (frame.property "payload")
      else ["Invalid frame type: " ++ name]
    | frameType => ["Invalid frame type: " ++ showJs frameType]

end Validate

section Paths

/-- A key that the pattern can name. -/
def IsIdentifier (key : String) : Prop :=
  match key.toList with
  | [] => False
  | c :: rest => isIdentifierStart c = true ∧ rest.all isIdentifierRest = true

instance (key : String) : Decidable (IsIdentifier key) := by
  unfold IsIdentifier
  split <;> infer_instance

/-- The segments fit the pattern: keys it can name, each followed by at most one index. -/
def Addresses : (afterKey : Bool) → List PathSegment → Prop
  | _, [] => True
  | _, .key key :: rest => IsIdentifier key ∧ Addresses true rest
  | true, .index _ :: rest => Addresses false rest
  | false, .index _ :: _ => False

theorem foldl_rejected (chars : List Char) :
    chars.foldl PathState.next .rejected = .rejected := by
  induction chars with
  | nil => rfl
  | cons c chars ih => exact ih

theorem foldl_identifier {chars : List Char} (h : ∀ c ∈ chars, c ≠ '.' ∧ c ≠ '[') :
    chars.foldl PathState.next .identifier =
      if chars.all isIdentifierRest then .identifier else .rejected := by
  induction chars with
  | nil => rfl
  | cons c chars ih =>
    obtain ⟨hdot, hbracket⟩ := h c (by simp)
    rw [List.foldl_cons, List.all_cons]
    cases hc : isIdentifierRest c with
    | true =>
      rw [PathState.next, hc, if_pos rfl, Bool.true_and]
      exact ih fun c' hc' => h c' (by simp [hc'])
    | false =>
      rw [PathState.next, hc, if_neg Bool.false_ne_true, if_neg hdot, if_neg hbracket,
        foldl_rejected]
      rfl

theorem foldl_key {key : String} (hkey : ValidKey key) {state : PathState}
    (hstate : state = .boundary ∨ state = .identifier) :
    (JsonPath.segmentText (.key key)).foldl PathState.next state =
      if IsIdentifier key then .identifier else .rejected := by
  obtain ⟨hne, hdot, hbracket, -⟩ := hkey
  have hnext : state.next '.' = .dot := by
    rcases hstate with rfl | rfl <;> rfl
  rw [JsonPath.segmentText, List.foldl_cons, hnext]
  cases hchars : key.toList with
  | nil => exact absurd (String.toList_eq_nil_iff.mp hchars) hne
  | cons c rest =>
    have hiff : IsIdentifier key ↔ isIdentifierStart c = true ∧ rest.all isIdentifierRest = true := by
      rw [IsIdentifier, hchars]
    rw [hchars] at hdot hbracket
    rw [if_congr hiff rfl rfl]
    have hrest : ∀ c' ∈ rest, c' ≠ '.' ∧ c' ≠ '[' := by
      refine fun c' hc' => ⟨?_, ?_⟩
      · rintro rfl
        exact hdot (List.mem_cons_of_mem c hc')
      · rintro rfl
        exact hbracket (List.mem_cons_of_mem c hc')
    rw [List.foldl_cons, PathState.next]
    cases hc : isIdentifierStart c with
    | true => simp only [if_true, foldl_identifier hrest, true_and]
    | false =>
      simp only [Bool.false_eq_true, if_false, false_and, foldl_rejected]

theorem foldl_digits {chars : List Char} (h : ∀ c ∈ chars, c.isDigit = true) :
    chars.foldl PathState.next .digits = .digits := by
  induction chars with
  | nil => rfl
  | cons c chars ih =>
    rw [List.foldl_cons, PathState.next, if_pos (h c (by simp))]
    exact ih fun c' hc' => h c' (by simp [hc'])

theorem foldl_index (index : ℕ) :
    (JsonPath.segmentText (.index index)).foldl PathState.next .identifier = .boundary := by
  have hdigits : ∀ c ∈ (Nat.repr index).toList, c.isDigit = true := by
    intro c hc
    rw [Nat.toList_repr] at hc
    exact Nat.isDigit_of_mem_toDigits (by decide) (by decide) hc
  cases hchars : (Nat.repr index).toList with
  | nil =>
    rw [Nat.toList_repr] at hchars
    exact absurd hchars (Nat.toDigits_ne_nil)
  | cons c rest =>
    rw [hchars] at hdigits
    rw [JsonPath.segmentText, hchars]
    change ((c :: rest) ++ [']']).foldl PathState.next .bracket = _
    have hfirst : PathState.bracket.next c = .digits := if_pos (hdigits c (by simp))
    have hall : (c :: rest).foldl PathState.next .bracket = .digits := by
      rw [List.foldl_cons, hfirst, foldl_digits fun c' hc' => hdigits c' (by simp [hc'])]
    rw [List.foldl_append, hall]
    rfl

theorem foldl_segments {segments : List PathSegment} (h : ∀ s ∈ segments, ValidSegment s)
    (afterKey : Bool) :
    ((segments.flatMap JsonPath.segmentText).foldl PathState.next
      (if afterKey then .identifier else .boundary)).accepts = true ↔
      Addresses afterKey segments := by
  induction segments generalizing afterKey with
  | nil => cases afterKey <;> simp [Addresses, PathState.accepts]
  | cons segment segments ih =>
    have hrest := ih fun s hs => h s (by simp [hs])
    have hsegment := h segment (by simp)
    rw [List.flatMap_cons, List.foldl_append]
    cases segment with
    | key key =>
      rw [foldl_key hsegment (by cases afterKey <;> simp), Addresses]
      split_ifs with hkey
      · rw [← hrest true]
        simp [hkey]
      · simp [foldl_rejected, hkey, PathState.accepts]
    | index index =>
      cases afterKey with
      | true =>
        rw [if_pos rfl, foldl_index, Addresses, ← hrest false]
        rfl
      | false =>
        have hrejected : (JsonPath.segmentText (.index index)).foldl PathState.next .boundary =
            .rejected := foldl_rejected _
        rw [if_neg Bool.false_ne_true, hrejected, foldl_rejected]
        simp [Addresses, PathState.accepts]

/-- The client accepts the text of a path iff its segments fit the pattern. -/
theorem isValidJsonPath_toString (path : JsonPath) :
    isValidJsonPath path.toString = true ↔ Addresses false path.segments := by
  rw [isValidJsonPath, path.toList_toString, ← foldl_segments path.valid false]
  simp [PathState.next]

end Paths

end PJS.FrameProcessor
