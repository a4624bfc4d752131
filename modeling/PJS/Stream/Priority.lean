import PJS.Domain.JsonPath
import PJS.Stream.JsonValue
import PJS.Lib.Lists

/-! The priority streamer: skeleton first, then patches in priority order, then completion. -/
namespace PJS

/-- The variants of the core crate's error that modelled operations raise. -/
inductive Error where
  | invalidSession (id : String)
  | other (msg : String)
deriving DecidableEq

/-- Operation a patch performs at its target path. -/
inductive PatchOperation where
  | set (value : JsonValue)
  | append (values : List JsonValue)
  | replace (value : JsonValue)
  | remove
deriving DecidableEq

structure JsonPatch where
  path : JsonPath
  operation : PatchOperation
  priority : Priority
deriving DecidableEq

inductive PriorityStreamFrame where
  | skeleton (data : JsonValue) (priority : Priority) (complete : Bool)
  | patch (patches : List JsonPatch) (priority : Priority)
  | complete (checksum : Option UInt64)
deriving DecidableEq

/-- Stream frame with priority and metadata. -/
structure StreamFrame where
  data : JsonValue
  priority : Priority
  metadata : AssocMap String String
deriving DecidableEq

/-- `chunks` panics at size zero, so the configurations are those with a positive patch size. -/
structure StreamerConfig where
  detectSemantics : Bool
  maxPatchSize : ℕ
  priorityThreshold : Priority
  maxPatchSize_pos : 1 ≤ maxPatchSize

def StreamerConfig.default : StreamerConfig := ⟨true, 100, .low, by decide⟩

/-- Plan for streaming JSON with priority ordering. -/
structure StreamingPlan where
  frames : List PriorityStreamFrame

namespace PriorityStreamer

section Skeletons

mutual

/-- Skeleton structure with null/empty values. -/
def generateSkeleton : JsonValue → JsonValue
  | .object map => .object (generateSkeletonFields [] map)
  | .array _ => .array []
  | .scalar _ => .null

/-- The loop over a map's entries, inserting into `skeleton`. -/
def generateSkeletonFields (skeleton : JsonMap) : List (String × JsonValue) → JsonMap
  | [] => skeleton
  | (key, value) :: rest =>
    generateSkeletonFields
      (skeleton.insert key (match value with
        | .array _ => .array []
        | .object _ => generateSkeleton value
        | .string _ => .null
        | .number _ => .number (.posInt 0)
        | .bool _ => .bool false
        | .null => .null))
      rest

end

mutual

/-- Copy `value`, emptying every array that encodable keys reach. -/
def skeletonizeArrays : JsonValue → JsonValue
  | .object map => .object (JsonMap.collect (skeletonizeFields map))
  | .array _ => .array []
  | other => other

def skeletonizeFields : List (String × JsonValue) → List (String × JsonValue)
  | [] => []
  | (key, v) :: rest =>
    (match JsonPath.root.appendKey key with
      | .ok _ => (key, skeletonizeArrays v)
      | .error _ => (key, v)) :: skeletonizeFields rest

end

end Skeletons

section Priorities

private def contains (key pattern : String) : Bool := pattern.toList <:+: key.toList

/-- Priority for a field based on its name and content. -/
def calculateFieldPriority (_path : JsonPath) (key : String) (value : JsonValue) : Priority :=
  if key ∈ ["id", "uuid", "status", "type", "kind"] then .critical
  else if key ∈ ["name", "title", "label", "email", "username"] then .high
  else if contains key "analytics" || contains key "stats" || contains key "meta" then .low
  else if key ∈ ["reviews", "comments", "logs", "history"] then .background
  else match value with
    | .array arr => if arr.length > 100 then .background else .medium
    | .object obj => if "timestamp" ∈ obj.map Prod.fst then .medium else .medium
    | .string s => if s.utf8ByteSize > 1000 then .low else .medium
    | _ => .medium

/-- Priority for array elements. -/
def calculateArrayPriority (path : JsonPath) (elements : List JsonValue) : Priority :=
  if elements.length > 50 then .background
  else match path.lastKey with
    | some lastKey =>
      if lastKey ∈ ["reviews", "comments", "logs"] then .background
      else if lastKey ∈ ["items", "data", "results"] then .medium
      else .medium
    | none => .medium

end Priorities

def isAppend (patch : JsonPatch) : Bool :=
  match patch.operation with
  | .append _ => true
  | _ => false

/-- The priority of a `Set`: at least the highest `Append` priority anywhere in its subtree. -/
def hoistedPriority (ownPriority : Priority) (childPatches : List JsonPatch) : Priority :=
  match ((childPatches.filter isAppend).map JsonPatch.priority).max? with
  | none => ownPriority
  | some ceiling => max ownPriority ceiling

mutual

/-- The patches of `json` at `currentPath`. Keys a path cannot encode are skipped. -/
def extractPatches (config : StreamerConfig) : JsonValue → JsonPath → List JsonPatch
  | .object map, currentPath => extractFieldPatches config map currentPath
  | .array arr, currentPath =>
    if arr.length > 10 then
      let priority := calculateArrayPriority currentPath arr
      (arr.toChunks config.maxPatchSize).map fun chunk => ⟨currentPath, .append chunk, priority⟩
    else if arr.isEmpty then []
    else [⟨currentPath, .append arr, calculateArrayPriority currentPath arr⟩]
  | .scalar _, _ => []

def extractFieldPatches (config : StreamerConfig) :
    List (String × JsonValue) → JsonPath → List JsonPatch
  | [], _ => []
  | (key, value) :: rest, currentPath =>
    (match currentPath.appendKey key with
      | .error _ => []
      | .ok fieldPath =>
        let ownPriority := calculateFieldPriority fieldPath key value
        let childPatches := extractPatches config value fieldPath
        ⟨fieldPath, .set (skeletonizeArrays value), hoistedPriority ownPriority childPatches⟩ ::
          childPatches) ++
      extractFieldPatches config rest currentPath

end

/-- Frames emitted so far, and the batch under construction. -/
structure Batching where
  frames : List PriorityStreamFrame
  currentPriority : Priority
  currentBatch : List JsonPatch

namespace Batching

def flush (b : Batching) : Batching :=
  { b with frames := b.frames ++ [.patch b.currentBatch b.currentPriority], currentBatch := [] }

/-- One turn of the grouping loop of `analyze`. -/
def step (config : StreamerConfig) (b : Batching) (patch : JsonPatch) : Batching :=
  let b := if patch.priority ≠ b.currentPriority ∧ b.currentBatch ≠ [] then b.flush else b
  let b := { b with
    currentPriority := patch.priority, currentBatch := b.currentBatch ++ [patch] }
  if b.currentBatch.length ≥ config.maxPatchSize then b.flush else b

end Batching

/-- Analyze JSON and create the streaming plan. -/
def analyze (config : StreamerConfig) (json : JsonValue) : Except Error StreamingPlan :=
  let skeleton := generateSkeleton json
  let patches := Lists.sortDesc JsonPatch.priority (extractPatches config json .root)
  let batching := patches.foldl (Batching.step config)
    ⟨[.skeleton skeleton .critical false], .critical, []⟩
  let batching := if batching.currentBatch ≠ [] then batching.flush else batching
  .ok ⟨batching.frames ++ [.complete none]⟩

end PriorityStreamer

end PJS
