import PJS.Client.JsValue

/-! The client's reconstruction of a document from a skeleton and patches. A function that changes
a value in place returns what it leaves, and whether it ran to its end or threw. -/
namespace PJS

namespace JsValue

section Properties
-- the text of a number
variable (showNumber : Float → String)

/-- An index of an array, as a property key. -/
def arrayIndex? (key : String) : Option ℕ := do
  let i ← key.toNat?
  if Nat.repr i = key ∧ i < 2 ^ 32 - 1 then some i else none

/-- The length of a string in UTF-16. -/
def utf16Length (s : String) : ℕ := (s.toList.map fun c => if c.val < 0x10000 then 1 else 2).sum

/-- An own property. -/
def own? : JsValue → String → Option JsValue
  | .object m, key => m.lookup key
  | .array xs, key =>
    if key = "length" then some (.scalar (.number (Float.ofNat xs.length)))
    else do
      let x ← xs[← arrayIndex? key]?
      if x = .scalar .hole then none else some x
  | .scalar (.string s), key =>
    if key = "length" then some (.scalar (.number (Float.ofNat (utf16Length s))))
    else do
      -- one UTF-16 unit, whose own properties do not depend on which it is
      if (← arrayIndex? key) < utf16Length s then some (.scalar (.string " ")) else none
  | .scalar _, _ => none

/-- Define a writable, enumerable and configurable property; `none` where it throws. A named
property of an array never shows in a clone. -/
def defineProperty (value : JsValue) : JsValue → String → Option JsValue
  | .object m, key => some (.object (Assoc.insert key value m))
  | .array xs, key =>
    if key = "length" then none
    else match arrayIndex? key with
      | none => some (.array xs)
      | some i => some (.array (if i < xs.length then xs.set i value
          else xs ++ List.replicate (i - xs.length) (.scalar .hole) ++ [value]))
  | .scalar _, _ => none

/-- The value after a change to what one of its properties holds. -/
def writeBack (value : JsValue) (key : String) (child : JsValue) : JsValue :=
  if (value.own? key).isSome then (defineProperty child value key).getD value else value

end Properties

end JsValue

namespace Client

/-- Reconstructs objects from frames. -/
structure JsonReconstructor where
  state : JsValue
  initialized : Bool
  patchesApplied : ℕ

namespace JsonReconstructor

def new : JsonReconstructor := ⟨.scalar .null, false, 0⟩

mutual

def deepClone : JsValue → JsValue
  | .scalar s => .scalar s
  | .array xs => .array (deepCloneItems xs)
  | .object m => .object (deepCloneEntries [] m)

def deepCloneItems : List JsValue → List JsValue
  | [] => []
  | x :: xs => deepClone x :: deepCloneItems xs

/-- The loop over an object's keys, assigning to `cloned`. -/
def deepCloneEntries (cloned : List (String × JsValue)) :
    List (String × JsValue) → List (String × JsValue)
  | [] => cloned
  | (key, value) :: rest => deepCloneEntries (Assoc.insert key (deepClone value) cloned) rest

end

def unsafeKeys : List String := ["__proto__", "constructor", "prototype"]

section Paths
variable (showNumber : Float → String)

/-- Split off the index of a segment `key[index]`; the index as a property key. -/
def parseSegment (segment : String) : String × Option String :=
  let (key, rest) := segment.toList.span fun c => c ≠ '[' && c ≠ ']'
  match rest with
  | '[' :: rest =>
    let (digits, close) := rest.span Char.isDigit
    if key ≠ [] ∧ digits ≠ [] ∧ close = [']'] then
      (String.ofList key, (String.ofList digits).toNat?.map fun n => showNumber (Float.ofNat n))
    else (segment, none)
  | _ => (segment, none)

def pathSegments (path : String) : List String :=
  ((path.toList.drop 2).splitOn '.').map String.ofList

/-- Walk to the parent and the key of a path and edit there. Missing objects on the way are
created; they stay when the walk throws further down. -/
def editAt (edit : JsValue → String → JsValue × Bool) : List String → JsValue → JsValue × Bool
  | [], current => (current, false)
  | [segment], current =>
    let (key, index) := parseSegment showNumber segment
    if key ∈ unsafeKeys then (current, false)
    else match index with
      | none => edit current key
      | some index =>
        let ready := match current.own? key with
          | some (.array _) => some current
          | _ => JsValue.defineProperty (.array []) current key
        match ready with
        | none => (current, false)
        | some current =>
          let (parent, ok) := edit ((current.own? key).getD (.array [])) index
          (current.writeBack key parent, ok)
  | segment :: rest, current =>
    let (key, index) := parseSegment showNumber segment
    if key ∈ unsafeKeys then (current, false)
    else match index with
      | some index =>
        match current.own? key with
        | none => (current, false)
        | some child =>
          let (element, ok) := editAt edit rest ((child.own? index).getD (.scalar .undefined))
          (current.writeBack key (child.writeBack index element), ok)
      | none =>
        let ready := if (current.own? key).isSome then some current
          else JsValue.defineProperty (.object []) current key
        match ready with
        | none => (current, false)
        | some current =>
          let (child, ok) := editAt edit rest ((current.own? key).getD (.object []))
          (current.writeBack key child, ok)

/-- Define the property, or throw. -/
def assign (value parent : JsValue) (key : String) : JsValue × Bool :=
  match JsValue.defineProperty value parent key with
  | some parent => (parent, true)
  | none => (parent, false)

def setPatchValue (state : JsValue) (path : String) (value : JsValue) : JsValue × Bool :=
  editAt showNumber (assign value) (pathSegments path) state

def appendPatchValue (state : JsValue) (path : String) (value : JsValue) : JsValue × Bool :=
  editAt showNumber (fun parent key =>
    let elements := match parent.own? key with
      | some (.array xs) => xs
      | _ => []
    let values := match value with
      | .array vs => vs
      | value => [value]
    assign (.array (elements ++ values)) parent key) (pathSegments path) state

/-- The own properties that a spread copies from what `typeof` calls an object; no arrays. -/
def spread? : JsValue → Option (List (String × JsValue))
  | .object m => some m
  | .scalar .null => some []
  | _ => none

def mergePatchValue (state : JsValue) (path : String) (value : JsValue) : JsValue × Bool :=
  editAt showNumber (fun parent key =>
    let merged := match (parent.own? key).bind spread?, spread? value with
      | some old, some new => .object (new.foldl (fun m e => Assoc.insert e.1 e.2 m) old)
      | _, _ => value
    assign merged parent key) (pathSegments path) state

/-- The white space and line ends of the language. -/
def isWhiteSpace (c : Char) : Bool :=
  (0x9 ≤ c.val && c.val ≤ 0xD) || c.val = 0x20 || c.val = 0xA0 || c.val = 0x1680 ||
    (0x2000 ≤ c.val && c.val ≤ 0x200A) || c.val = 0x2028 || c.val = 0x2029 || c.val = 0x202F ||
    c.val = 0x205F || c.val = 0x3000 || c.val = 0xFEFF

/-- `parseInt` to base ten: white space, a sign and digits; the rest is ignored. -/
def parseInt (text : String) : Option ℤ :=
  let chars := text.toList.dropWhile isWhiteSpace
  let (negative, chars) := match chars with
    | '-' :: chars => (true, chars)
    | '+' :: chars => (false, chars)
    | chars => (false, chars)
  (String.ofList (chars.takeWhile Char.isDigit)).toNat?.map fun n =>
    if negative then -(n : ℤ) else n

def deletePatchValue (state : JsValue) (path : String) : JsValue × Bool :=
  editAt showNumber (fun parent key =>
    match parent with
    | .array xs =>
      match parseInt key with
      | none => (parent, true)
      | some index =>
        if 0 ≤ index ∧ index < xs.length then (.array (xs.eraseIdx index.toNat), true)
        else (parent, true)
    | .object m => (.object (m.filter fun e => e.1 ≠ key), true)
    | .scalar .hole | .scalar .undefined | .scalar .null => (parent, false)
    -- the characters and the length of a string cannot be deleted
    | .scalar _ => (parent, (parent.own? key).isNone)) (pathSegments path) state

end Paths

section Frames
variable (showNumber : Float → String)

/-- Initialize the state from a skeleton frame; the data, or the error. -/
def processSkeleton (reconstructor : JsonReconstructor) (frame : JsValue) :
    Except String JsValue × JsonReconstructor :=
  if reconstructor.initialized then (.error "Reconstructor already initialized", reconstructor)
  else
    let payload := frame.property "payload"
    if payload = .scalar .undefined then
      (.error "Skeleton frame missing payload field", reconstructor)
    else (.ok payload, { reconstructor with state := deepClone payload, initialized := true })

/-- One round of the loop: the state after it, and whether the patch was applied. -/
def applyOne (state patch : JsValue) : JsValue × Bool :=
  match patch.property "path" with
  | .scalar (.string path) =>
    if ['$', '.'].isPrefixOf path.toList then
      let value := patch.property "value"
      match patch.property "operation" with
      | .scalar (.string "set") => setPatchValue showNumber state path value
      | .scalar (.string "append") => appendPatchValue showNumber state path value
      | .scalar (.string "merge") => mergePatchValue showNumber state path value
      | .scalar (.string "delete") => deletePatchValue showNumber state path
      | _ => (state, false)
    else (state, false)
  | _ => (state, false)

/-- The state after all patches, with the numbers of those applied and skipped. -/
def applyAll : List JsValue → JsValue → JsValue × ℕ × ℕ
  | [], state => (state, 0, 0)
  | patch :: rest, state =>
    let (state, ok) := applyOne showNumber state patch
    let (state, applied, skipped) := applyAll rest state
    if ok then (state, applied + 1, skipped) else (state, applied, skipped + 1)

structure PatchOutcome where
  success : Bool
  appliedPatches : ℕ
  skippedPatches : ℕ
  totalPatches : ℕ
  error : Option String
deriving DecidableEq

/-- Apply a patch frame to the current state. -/
def applyPatch (reconstructor : JsonReconstructor) (frame : JsValue) :
    PatchOutcome × JsonReconstructor :=
  let patches := match (frame.property "payload").property "patches" with
    | .array patches => patches
    | _ => []
  let total := patches.length
  if !reconstructor.initialized then
    (⟨false, 0, total, total,
      some "Reconstructor not initialized — call processSkeleton first"⟩, reconstructor)
  else
    let (state, applied, skipped) := applyAll showNumber patches reconstructor.state
    (⟨applied > 0 || skipped == 0, applied, skipped, total, none⟩,
      { reconstructor with state, patchesApplied := reconstructor.patchesApplied + applied })

/-- A deep clone of the current state. -/
def getCurrentState (reconstructor : JsonReconstructor) : JsValue :=
  if reconstructor.state = .scalar .null then .scalar .null else deepClone reconstructor.state

end Frames

end JsonReconstructor

end Client

end PJS
