import PJS.Compression.Writer

/-! The schema analyzer: how often each string of a value occurs, and which strategy follows from
that and from what was found about numbers and patterns. -/
namespace PJS

/-- The part of the configuration that the analyzer reads besides. -/
structure AnalyzerConfig extends CompressionConfig where
  minNetSavings : ℕ
  deltaThreshold : Float32
  minDeltaPotential : Float32
  minCompressionPotential : Float32
  runLengthThreshold : Float32

def AnalyzerConfig.default : AnalyzerConfig := { CompressionConfig.default with
  minNetSavings := 10
  deltaThreshold := 30.0
  minDeltaPotential := 0.3
  minCompressionPotential := 0.4
  runLengthThreshold := 20.0 }

structure PatternInfo where
  frequency : UInt32
  compressionPotential : Float32

structure NumericStats where
  values : List Float
  deltaPotential : Float32
  baseValue : Float

structure SchemaAnalyzer where
  patterns : AssocMap String PatternInfo
  numericFields : AssocMap String NumericStats
  stringRepetitions : AssocMap String UInt32
  config : AnalyzerConfig

/-- `analyze_string_pattern`, as far as it counts. -/
def countString (repetitions : AssocMap String UInt32) (s : String) : AssocMap String UInt32 :=
  repetitions.insert s ((repetitions.get? s).getD 0 + 1)

/-- The repetition counts that `analyze_recursive` leaves. -/
def stringRepetitions (data : JsonValue) : AssocMap String UInt32 :=
  data.strings.foldl countString .empty

/-- How closely the steps between the sorted values agree; `none` if there are too few. -/
def deltaPotential (stats : NumericStats) : Option Float32 :=
  if stats.values.length ≤ 2 then none
  else
    let values := stats.values.mergeSort fun a b => !(b < a)
    let deltas := List.zipWith (fun a b => b - a) values values.tail
    let sum (l : List Float) : Float := l.foldl (· + ·) 0.0
    let avgDelta := sum deltas / Float.ofNat deltas.length
    let variance := sum (deltas.map fun d => (d - avgDelta) * (d - avgDelta)) /
      Float.ofNat deltas.length
    some (1.0 / (1.0 + variance.toFloat32))

/-- The delta score and the base values of the fields that delta coding suits. -/
def numericDeltas (config : AnalyzerConfig) (numericFields : AssocMap String NumericStats) :
    Float32 × AssocMap String Float :=
  numericFields.entries.foldl (fun found e =>
    match deltaPotential e.2 with
    | none => found
    | some potential =>
      if potential > config.minDeltaPotential then
        (found.1 + potential * Float32.ofNat e.2.values.length, found.2.insert e.1 e.2.baseValue)
      else found) (0.0, .empty)

/-- `n as i64`. -/
def asI64 (n : ℕ) : ℤ := (n : ℤ).bmod (2 ^ 64)

namespace SchemaAnalyzer

/-- Determine optimal compression strategy based on analysis. -/
def determineStrategy (analyzer : SchemaAnalyzer) : DomainResult CompressionStrategy :=
  let (stringDict, dictNetSavings) :=
    buildDictionary analyzer.stringRepetitions analyzer.config.toCompressionConfig
  let stringDictSelected :=
    stringDict.size ≠ 0 ∧ asI64 analyzer.config.minNetSavings ≤ dictNetSavings
  let (deltaScore, deltas) := numericDeltas analyzer.config analyzer.numericFields
  if stringDictSelected then
    if deltaScore ≥ analyzer.config.deltaThreshold then .ok (.hybrid stringDict deltas)
    else .ok (.dictionary stringDict)
  else if deltaScore ≥ analyzer.config.deltaThreshold then .ok (.delta deltas)
  else
    let potentials := analyzer.patterns.values.filter fun p =>
      p.compressionPotential > analyzer.config.minCompressionPotential
    let runLengthScore := (potentials.map fun p =>
      Float32.ofNat p.frequency.toNat * p.compressionPotential).foldl (· + ·) 0.0
    .ok (if runLengthScore ≥ analyzer.config.runLengthThreshold then .runLength else .none)

variable {analyzer : SchemaAnalyzer} {dictionary : AssocMap String UInt16}

/-- A dictionary is selected only when it has entries and is modelled to pay off. -/
theorem dictionary_selected (h : analyzer.determineStrategy = .ok (.dictionary dictionary)) :
    ∃ net, buildDictionary analyzer.stringRepetitions analyzer.config.toCompressionConfig =
        (dictionary, net) ∧
      dictionary.size ≠ 0 ∧ asI64 analyzer.config.minNetSavings ≤ net := by
  unfold determineStrategy at h
  cases hbuild : buildDictionary analyzer.stringRepetitions analyzer.config.toCompressionConfig with
  | mk stringDict net =>
    simp only [hbuild] at h
    split_ifs at h with hselected hdelta hdelta
    all_goals simp only [Except.ok.injEq, CompressionStrategy.dictionary.injEq, reduceCtorEq] at h
    subst h
    exact ⟨net, rfl, hselected⟩

end SchemaAnalyzer

section Counts

/-- The counter of a string: its occurrences, as far as 32 bits go. -/
theorem get?_foldl_countString (l : List String) (repetitions : AssocMap String UInt32)
    (s : String) :
    (l.foldl countString repetitions).get? s =
      if s ∈ l then some ((repetitions.get? s).getD 0 + UInt32.ofNat (l.count s))
      else repetitions.get? s := by
  induction l generalizing repetitions with
  | nil => rfl
  | cons s' l ih =>
    rw [List.foldl_cons, ih]
    unfold countString
    rw [AssocMap.get?_insert]
    by_cases hs : s = s'
    · subst hs
      rw [if_pos rfl, Option.getD_some, List.count_cons_self, if_pos List.mem_cons_self]
      split_ifs with hmem
      · rw [UInt32.ofNat_add, UInt32.add_assoc, UInt32.add_comm 1]
        rfl
      · rw [List.count_eq_zero_of_not_mem hmem]
        rfl
    · rw [if_neg hs, List.count_cons_of_ne (Ne.symm hs)]
      simp only [List.mem_cons, hs, false_or]

theorem get?_stringRepetitions (v : JsonValue) (s : String) :
    (stringRepetitions v).get? s =
      if s ∈ v.strings then some (UInt32.ofNat (v.strings.count s)) else none := by
  unfold stringRepetitions
  rw [get?_foldl_countString]
  split_ifs
  · exact congrArg some (UInt32.zero_add _)
  · rfl

end Counts

end PJS
