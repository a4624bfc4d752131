import PJS.Domain.PriorityHeuristic
import PJS.Lib.Lists

/-! Priorities and prioritized fields of the WebAssembly bindings. -/
namespace PJS.Wasm

/-- Configuration surface of the assigner. -/
structure PriorityConfig where
  criticalFields : List String
  highFields : List String
  lowPatterns : List String
  backgroundPatterns : List String
  largeArrayThreshold : ℕ
  largeStringThreshold : ℕ

namespace PriorityConfig

def default : PriorityConfig :=
  let domain := PriorityHeuristicConfig.default
  { criticalFields := domain.criticalFields
    highFields := domain.highFields
    lowPatterns := domain.lowFields
    backgroundPatterns := domain.backgroundFields
    largeArrayThreshold := domain.largeArrayThreshold
    largeStringThreshold := domain.largeStringThreshold }

/-- Project this configuration onto the heuristic's. -/
def toHeuristic (config : PriorityConfig) : PriorityHeuristicConfig :=
  { PriorityHeuristicConfig.default with
    criticalFields := config.criticalFields
    highFields := config.highFields
    lowFields := config.lowPatterns
    backgroundFields := config.backgroundPatterns
    largeArrayThreshold := config.largeArrayThreshold
    largeStringThreshold := config.largeStringThreshold }

end PriorityConfig

/-- Equality of all fields but the overrides. -/
def heuristicEq (a b : PriorityHeuristicConfig) : Bool :=
  a.criticalFields == b.criticalFields && a.highFields == b.highFields &&
    a.mediumFields == b.mediumFields && a.lowFields == b.lowFields &&
    a.backgroundFields == b.backgroundFields &&
    a.largeArrayThreshold == b.largeArrayThreshold && a.midArrayThreshold == b.midArrayThreshold &&
    a.largeStringThreshold == b.largeStringThreshold &&
    a.smallStringThreshold == b.smallStringThreshold &&
    a.largeObjectThreshold == b.largeObjectThreshold

/-- Priority assignment engine: the configuration and what was derived from it at construction. -/
structure PriorityAssigner where
  config : PriorityConfig
  heuristic : PriorityHeuristicConfig

/-- A field paired with its priority and value. -/
structure PrioritizedField where
  path : JsonPath
  priority : Priority
  value : JsonData
deriving DecidableEq

namespace PriorityAssigner

def withConfig (config : PriorityConfig) : PriorityAssigner := ⟨config, config.toHeuristic⟩

/-- Calculate the priority of a path and value. -/
def calculateFieldPriority (assigner : PriorityAssigner) (path : JsonPath) (value : JsonData) :
    Priority :=
  let derived := assigner.config.toHeuristic
  let cfg := if heuristicEq assigner.heuristic derived then assigner.heuristic else derived
  computePriority cfg path value

variable (assigner : PriorityAssigner) (maxDepth : ℕ)

mutual

/-- The fields of every object down to `maxDepth`, in or out of arrays; array elements themselves
are no fields. -/
def extractFieldsRecursive : JsonData → JsonPath → ℕ → List PrioritizedField
  | .object map, path, depth =>
    if depth ≥ maxDepth then [] else extractEntries map path depth
  | .array arr, path, depth =>
    if depth ≥ maxDepth then [] else extractItems arr path 0 depth
  | .scalar _, _, _ => []

def extractEntries : List (String × JsonData) → JsonPath → ℕ → List PrioritizedField
  | [], _, _ => []
  | (key, value) :: rest, path, depth =>
    (match path.appendKey key with
      | .error _ => []
      | .ok fieldPath =>
        ⟨fieldPath, calculateFieldPriority assigner fieldPath value, value⟩ ::
          extractFieldsRecursive value fieldPath (depth + 1)) ++
      extractEntries rest path depth

def extractItems : List JsonData → JsonPath → ℕ → ℕ → List PrioritizedField
  | [], _, _, _ => []
  | item :: rest, path, index, depth =>
    extractFieldsRecursive item (path.appendIndex (UInt64.ofNat index)) (depth + 1) ++
      extractItems rest path (index + 1) depth

end

/-- Extract every field with its priority using a depth limit. -/
def extractPrioritizedFieldsWithLimit (data : JsonData) : List PrioritizedField :=
  extractFieldsRecursive assigner maxDepth data .root 0

end PriorityAssigner

/-- Group prioritized fields by their priority level. -/
def groupByPriority (fields : List PrioritizedField) : AssocMap Priority (List PrioritizedField) :=
  fields.foldl (fun groups field =>
    groups.insert field.priority ((groups.get? field.priority).getD [] ++ [field])) .empty

/-- Sort priorities from highest to lowest. -/
def sortPriorities (priorities : List Priority) : List Priority := Lists.sortDesc id priorities

section Groups

/-- A group holds the fields of its priority, in the order in which they came. -/
theorem get?_groupByPriority (fields : List PrioritizedField) (priority : Priority) :
    (groupByPriority fields).get? priority =
      if fields.any (·.priority = priority) then some (fields.filter (·.priority = priority))
      else none := by
  induction fields using List.reverseRecOn with
  | nil => rfl
  | append_singleton fields field ih =>
    have hsnoc : groupByPriority (fields ++ [field]) = (groupByPriority fields).insert field.priority
        (((groupByPriority fields).get? field.priority).getD [] ++ [field]) := by
      rw [groupByPriority, List.foldl_append]
      rfl
    rw [hsnoc, AssocMap.get?_insert, List.any_append, List.filter_append]
    by_cases hp : priority = field.priority
    · subst hp
      rw [if_pos rfl, ih]
      have hnone : fields.any (fun f => f.priority = field.priority) = false →
          fields.filter (fun f => f.priority = field.priority) = [] := by
        intro hany
        rw [List.filter_eq_nil_iff]
        intro f hf
        rw [List.any_eq_false] at hany
        exact hany f hf
      cases hany : fields.any fun f => f.priority = field.priority with
      | true => simp
      | false => simp [hnone hany]
    · rw [if_neg hp, ih]
      simp [Ne.symm hp]

end Groups

end PJS.Wasm
