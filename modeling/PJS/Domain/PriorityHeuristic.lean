import PJS.Domain.JsonPath
import PJS.Domain.JsonData

/-! The priority heuristic shared by all transports. -/
namespace PJS

/-- Tunable parameters for the priority heuristic. -/
structure PriorityHeuristicConfig where
  criticalFields : List String
  highFields : List String
  mediumFields : List String
  lowFields : List String
  backgroundFields : List String
  largeArrayThreshold : ℕ
  midArrayThreshold : ℕ
  largeStringThreshold : ℕ
  smallStringThreshold : ℕ
  largeObjectThreshold : ℕ
  overrides : AssocMap String Priority

namespace PriorityHeuristicConfig

def default : PriorityHeuristicConfig where
  criticalFields := ["id", "uuid", "status", "state", "error", "type", "kind"]
  highFields := ["name", "title", "label", "email", "username", "description", "message"]
  mediumFields := ["content", "body", "value", "data"]
  lowFields := ["created_at", "updated_at", "version", "metadata"]
  backgroundFields :=
    ["analytics", "debug", "trace", "logs", "history", "comments", "reviews"]
  largeArrayThreshold := 100
  midArrayThreshold := 10
  largeStringThreshold := 1000
  smallStringThreshold := 50
  largeObjectThreshold := 10
  overrides := .empty

end PriorityHeuristicConfig

def toAsciiLowercase (s : String) : String := String.ofList (s.toList.map Char.toLower)

def eqIgnoreAsciiCase (a b : String) : Bool := toAsciiLowercase a == toAsciiLowercase b

def matchesLower (list : List String) (lowerKey : String) : Bool :=
  list.any fun f => eqIgnoreAsciiCase f lowerKey

/-- The tier a field name belongs to; the first match wins. -/
def fieldTier (config : PriorityHeuristicConfig) (key : String) : Option Priority :=
  let lower := toAsciiLowercase key
  if matchesLower config.criticalFields lower then some .critical
  else if matchesLower config.highFields lower then some .high
  else if matchesLower config.mediumFields lower then some .medium
  else if matchesLower config.lowFields lower then some .low
  else if matchesLower config.backgroundFields lower then some .background
  else none

/-- Overrides and field names, for a path that ends in a key. -/
def keyPriority (config : PriorityHeuristicConfig) (path : JsonPath) : Option Priority :=
  match path.lastSegment with
  | some (.key key) => config.overrides.get? key <|> fieldTier config key
  | _ => none

def depthPriority (path : JsonPath) : Priority :=
  match path.depth with
  | 0 | 1 => Priority.medium.increaseBy 20
  | 2 => Priority.medium.increaseBy 10
  | d => if d > 5 then Priority.medium.decreaseBy 10 else .medium

def shapePriority (config : PriorityHeuristicConfig) (value : JsonData) (priority : Priority) :
    Priority :=
  match value with
  | .string s =>
    if s.utf8ByteSize > config.largeStringThreshold then priority.decreaseBy 20
    else if s.utf8ByteSize < config.smallStringThreshold then priority.increaseBy 5
    else priority
  | .array arr =>
    if arr.length > config.largeArrayThreshold then priority.decreaseBy 40
    else if arr.length > config.midArrayThreshold then priority.decreaseBy 15
    else priority
  | .object obj =>
    if obj.length > config.largeObjectThreshold then priority.decreaseBy 10 else priority
  | _ => priority

/-- Compute the priority for a single path and value. -/
def computePriority (config : PriorityHeuristicConfig) (path : JsonPath) (value : JsonData) :
    Priority :=
  match keyPriority config path with
  | some p => p
  | none => shapePriority config value (depthPriority path)

section Bounds
variable {config : PriorityHeuristicConfig}

theorem fieldTier_le {key : String} {p : Priority} (h : fieldTier config key = some p) :
    p.value ≤ 100 := by
  simp only [fieldTier] at h
  split_ifs at h <;> cases h <;> decide

theorem depthPriority_le (path : JsonPath) : (depthPriority path).value ≤ 70 := by
  unfold depthPriority
  split
  · decide
  · decide
  · decide
  · split_ifs <;> decide

theorem shapePriority_le (value : JsonData) (p : Priority) :
    (shapePriority config value p).value ≤ p.value + 5 := by
  have hpos := p.pos
  have hraised : (p.increaseBy 5).value ≤ p.value + 5 := min_le_left _ _
  have hlowered : ∀ delta, (p.decreaseBy delta).value ≤ p.value + 5 := fun delta =>
    max_le (by omega) (by omega)
  unfold shapePriority
  split
  · split_ifs
    · exact hlowered 20
    · exact hraised
    · exact Nat.le_add_right _ _
  · split_ifs
    · exact hlowered 40
    · exact hlowered 15
    · exact Nat.le_add_right _ _
  · split_ifs
    · exact hlowered 10
    · exact Nat.le_add_right _ _
  · exact Nat.le_add_right _ _

/-- The heuristic itself stays within the first hundred priorities. -/
theorem computePriority_le (h : ∀ key p, config.overrides.get? key = some p → p.value ≤ 100)
    (path : JsonPath) (value : JsonData) : (computePriority config path value).value ≤ 100 := by
  unfold computePriority
  cases hkey : keyPriority config path with
  | none =>
    have hdepth := depthPriority_le path
    have hshape := @shapePriority_le config value (depthPriority path)
    exact hshape.trans (by omega)
  | some p =>
    unfold keyPriority at hkey
    split at hkey
    · rename_i key _
      cases hover : config.overrides.get? key with
      | some q =>
        rw [hover] at hkey
        cases hkey
        exact h key p hover
      | none =>
        rw [hover] at hkey
        exact fieldTier_le hkey
    · cases hkey

end Bounds

end PJS
