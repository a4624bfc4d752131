import PJS.Domain.StreamPatches

/-! The lowest priority that the heuristic assigns without overrides. Every class of field names
and every shape stays at `background` or above, except for one. -/
namespace PJS

/-- An array of more than a hundred elements, more than five keys deep, whose key is in no class
of field names. -/
def Sunk (path : JsonPath) (value : JsonData) : Prop :=
  keyPriority .default path = none ∧ 5 < path.depth ∧
    ∃ xs, value = .array xs ∧ PriorityHeuristicConfig.default.largeArrayThreshold < xs.length

section Floor
variable {path : JsonPath} {value : JsonData}

theorem background_le_iff {p : Priority} : Priority.background ≤ p ↔ 10 ≤ p.value := Iff.rfl

theorem background_le_fieldTier {config : PriorityHeuristicConfig} {key : String} {p : Priority}
    (h : fieldTier config key = some p) : Priority.background ≤ p := by
  simp only [fieldTier] at h
  split_ifs at h <;> cases h <;> decide

theorem background_le_keyPriority {config : PriorityHeuristicConfig} {p : Priority}
    (hoverrides : ∀ key, config.overrides.get? key = none)
    (h : keyPriority config path = some p) : Priority.background ≤ p := by
  unfold keyPriority at h
  split at h
  · rename_i key _
    rw [hoverrides key] at h
    exact background_le_fieldTier h
  · cases h

theorem depthPriority_of_deep (h : 5 < path.depth) : (depthPriority path).value = 40 := by
  unfold depthPriority
  split
  · omega
  · omega
  · omega
  · rw [if_pos h]
    rfl

theorem le_depthPriority_of_not_deep (h : ¬ 5 < path.depth) :
    50 ≤ (depthPriority path).value := by
  unfold depthPriority
  split
  · decide
  · decide
  · decide
  · rw [if_neg h]
    decide

theorem value_decreaseBy (p : Priority) (delta : ℕ) :
    (p.decreaseBy delta).value = max (p.value - delta) 1 := rfl

theorem le_decreaseBy (p : Priority) (delta : ℕ) : p.value - delta ≤ (p.decreaseBy delta).value :=
  le_max_left _ _

/-- Any shape but a large array costs at most twenty. -/
theorem le_shapePriority (p : Priority)
    (h : ∀ xs, value = .array xs → xs.length ≤ 100) :
    p.value - 20 ≤ (shapePriority .default value p).value := by
  have hlowered : ∀ delta ≤ 20, p.value - 20 ≤ (p.decreaseBy delta).value := fun delta hdelta =>
    (by omega : p.value - 20 ≤ p.value - delta).trans (le_decreaseBy p delta)
  have hraised : p.value ≤ (p.increaseBy 5).value := le_min (by omega) p.le_max
  unfold shapePriority
  split
  · split_ifs
    · exact hlowered 20 (by omega)
    · omega
    · omega
  · rename_i xs
    have hsmall : ¬ xs.length > PriorityHeuristicConfig.default.largeArrayThreshold :=
      not_lt.mpr (h xs rfl)
    rw [if_neg hsmall]
    split_ifs
    · exact hlowered 15 (by omega)
    · omega
  · split_ifs
    · exact hlowered 10 (by omega)
    · omega
  · omega

theorem shapePriority_large {xs : List JsonData} (h : 100 < xs.length) (p : Priority) :
    shapePriority .default (.array xs) p = p.decreaseBy 40 := if_pos h

/-- The heuristic stays at `background` or above, except for the sunk arrays. -/
theorem background_le_computePriority_iff :
    Priority.background ≤ computePriority .default path value ↔ ¬ Sunk path value := by
  unfold computePriority
  cases hkey : keyPriority .default path with
  | some p =>
    refine ⟨fun _ h => ?_, 
      fun _ => background_le_keyPriority (fun _ => rfl) hkey⟩
    rw [h.1] at hkey
    cases hkey
  | none =>
    simp only [background_le_iff]
    by_cases hlarge : ∃ xs, value = .array xs ∧ 100 < xs.length
    · obtain ⟨xs, rfl, hlength⟩ := hlarge
      rw [shapePriority_large hlength]
      by_cases hdeep : 5 < path.depth
      · have hvalue := value_decreaseBy (depthPriority path) 40
        rw [depthPriority_of_deep hdeep] at hvalue
        rw [hvalue]
        exact iff_of_false (by decide) fun h => h ⟨hkey, hdeep, xs, rfl, hlength⟩
      · have hdepth := le_depthPriority_of_not_deep hdeep
        have hle := le_decreaseBy (depthPriority path) 40
        exact iff_of_true (by omega) fun h => hdeep h.2.1
    · have hshape : ∀ xs, value = .array xs → xs.length ≤ 100 := fun xs hxs =>
        not_lt.mp fun h => hlarge ⟨xs, hxs, h⟩
      have hle := le_shapePriority (depthPriority path) hshape
      have hdepth : 40 ≤ (depthPriority path).value := by
        by_cases hdeep : 5 < path.depth
        · rw [depthPriority_of_deep hdeep]
        · have hle := le_depthPriority_of_not_deep hdeep
          omega
      exact iff_of_true (by omega) fun h => hlarge h.2.2

end Floor

namespace Stream

variable {stream : Stream}

/-- The value stands at the path, and a patch is made of it. -/
def LeafAt (d : JsonData) (path : JsonPath) (value : JsonData) : Prop :=
  (FramePatch.set path value).setting ∈ d.leaves ValidKey

theorem computePriority_of_no_rules (h : stream.config.priorityRules = .empty) (path : JsonPath)
    (value : JsonData) :
    stream.computePriority path value = PJS.computePriority .default path value := by
  rw [computePriority, h]
  rfl

/-- Without overrides every leaf has at least the priority `background`, and that threshold admits
every patch, exactly for the documents that have no sunk array. -/
theorem background_admits_iff (hrules : stream.config.priorityRules = .empty) (d : JsonData) :
    ((∀ path value, LeafAt d path value → Priority.background ≤ stream.computePriority path value) ↔
      ∀ path value, LeafAt d path value → ¬ Sunk path value) ∧
    ((∀ patch, patch ∈ stream.extractPatches d .minimum →
      patch ∈ stream.extractPatches d .background) ↔
      ∀ path value, LeafAt d path value → ¬ Sunk path value) := by
  have hfloor : ∀ path value, Priority.background ≤ stream.computePriority path value ↔
      ¬ Sunk path value := by
    intro path value
    rw [computePriority_of_no_rules hrules]
    exact background_le_computePriority_iff
  constructor
  · simp only [hfloor]
  · constructor
    · intro hadmits path value hleaf
      rw [← hfloor]
      have hmem : (FramePatch.set path value, stream.computePriority path value) ∈
          stream.extractPatches d .minimum :=
        mem_extractPatches_iff.mpr ⟨hleaf, rfl, rfl, Priority.minimum_le _⟩
      exact (mem_extractPatches_iff.mp (hadmits _ hmem)).2.2.2
    · intro hsunk patch hpatch
      obtain ⟨hleaf, hop, hpriority, -⟩ := mem_extractPatches_iff.mp hpatch
      refine mem_extractPatches_iff.mpr ⟨hleaf, hop, hpriority, ?_⟩
      rw [hpriority, hfloor]
      exact hsunk _ _ hleaf

/-- A hundred and one elements under six keys. -/
def sunkDocument : DataDocument where
  value := .object [("a", .object [("b", .object [("c", .object [("d", .object [("e",
    .object [("f", .array (List.replicate 101 (JsonData.integer 0)))])])])])])]
  distinct := by
    have hfield : ∀ (k : String) (d : JsonData), d.Distinct →
        JsonData.Distinct (.object [(k, d)]) := fun k d h =>
      .object (List.pairwise_singleton _ _) fun k' v hv => by
        rw [List.mem_singleton] at hv
        cases hv
        exact h
    refine hfield _ _ (hfield _ _ (hfield _ _ (hfield _ _ (hfield _ _ (hfield _ _ (.array ?_))))))
    intro x hx
    rw [List.eq_of_mem_replicate hx]
    exact .scalar _

/-- The array has the lowest priority of all, and no patch sets it. -/
theorem not_background_admits :
    (started sunkDocument).config.priorityRules = .empty ∧
    ((started sunkDocument).extractPatches sunkDocument.value .minimum).map
      (fun patch => (patch.1.path.toString, patch.2.value)) = [("$.a.b.c.d.e.f", 1)] ∧
    Priority.background.value = 10 ∧
    (started sunkDocument).extractPatches sunkDocument.value .background = [] := by
  refine ⟨rfl, ?_, rfl, ?_⟩ <;> decide +kernel

theorem background_admits_iff_user :
    (∀ patch, patch ∈ (started userDocument).extractPatches userDocument.value .minimum →
      patch ∈ (started userDocument).extractPatches userDocument.value .background) ↔
    ∀ path value, LeafAt userDocument.value path value → ¬ Sunk path value :=
  (background_admits_iff rfl userDocument.value).2

end Stream

end PJS
