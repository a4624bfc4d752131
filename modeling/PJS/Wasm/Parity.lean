import PJS.Wasm.Reconstruction

/-! The transports agree: restricted to values that are no objects and to paths without an index,
the fields of the WebAssembly bindings are the patches of a stream, with the same priorities. -/
namespace PJS

/-- The paths, values and priorities of a stream's patches. -/
def Stream.triples (patches : List (FramePatch × Priority)) : Set (JsonPath × JsonData × Priority) :=
  {t | ∃ p ∈ patches, t = (p.1.path, p.1.value, p.2)}

/-- The paths and values in patch frames, with the priorities of the frames. -/
def Frame.triples (frames : List Frame) : Set (JsonPath × JsonData × Priority) :=
  {t | ∃ frame ∈ frames, frame.frameType = .patch ∧
    ∃ p ∈ frame.patches, t = (p.path, p.value, frame.priority)}

/-- The value is no object and the path has no index. -/
def AtLeaf (t : JsonPath × JsonData × Priority) : Prop :=
  (∀ m, t.2.1 ≠ .object m) ∧ ∀ i, .index i ∉ t.1.segments

/-- Outside arrays, no key path is longer than `n`. -/
inductive KeysWithin : ℕ → JsonData → Prop
  | scalar {n : ℕ} (s : DataScalar) : KeysWithin n (.scalar s)
  | array {n : ℕ} (xs : List JsonData) : KeysWithin n (.array xs)
  | object {n : ℕ} {m : List (String × JsonData)} (hpos : m ≠ [] → 1 ≤ n)
      (h : ∀ k v, (k, v) ∈ m → KeysWithin (n - 1) v) : KeysWithin n (.object m)

namespace Wasm

theorem toHeuristic_default : PriorityConfig.default.toHeuristic = .default := rfl

/-- Both transports compute priorities by the default heuristic. -/
theorem calculateFieldPriority_default {stream : Stream}
    (hrules : stream.config.priorityRules.entries = []) :
    (PriorityAssigner.withConfig .default).calculateFieldPriority = stream.computePriority := by
  funext path value
  simp only [PriorityAssigner.calculateFieldPriority, PriorityAssigner.withConfig,
    toHeuristic_default, Stream.computePriority, hrules, List.isEmpty_nil, if_true]
  exact congrArg (fun cfg => computePriority cfg path value) (ite_self _)

section Paths
variable {assigner : PriorityAssigner} {maxDepth : ℕ}

open PriorityAssigner

theorem prefix_of_mem_extractFields {d : JsonData} {path : JsonPath} {depth : ℕ}
    {f : PrioritizedField} (hf : f ∈ extractFieldsRecursive assigner maxDepth d path depth) :
    path.segments <+: f.path.segments := by
  induction d using Doc.induction generalizing path depth with
  | scalar s => simp [extractFieldsRecursive] at hf
  | array xs ih =>
    rw [extractFieldsRecursive] at hf
    split_ifs at hf
    · cases hf
    · obtain ⟨i, x, hi, hf⟩ := (mem_extractItems assigner maxDepth).mp hf
      exact (List.prefix_append _ _).trans (ih x (List.mem_of_getElem? hi) hf)
  | object m ih =>
    rw [extractFieldsRecursive] at hf
    split_ifs at hf
    · cases hf
    · obtain ⟨k, v, fieldPath, hkv, hp, hf⟩ := (mem_extractEntries assigner maxDepth).mp hf
      have hseg := JsonPath.segments_of_appendKey hp
      have hfirst : path.segments <+: fieldPath.segments := hseg ▸ List.prefix_append _ _
      rcases hf with rfl | hf
      · exact hfirst
      · exact hfirst.trans (ih k v hkv hf)

/-- Fields inside an array are not plain. -/
theorem not_plain_of_mem_array {xs : List JsonData} {path : JsonPath} {depth : ℕ}
    {f : PrioritizedField} (hf : f ∈ extractFieldsRecursive assigner maxDepth (.array xs) path depth) :
    ∃ i, .index i ∈ f.path.segments := by
  rw [extractFieldsRecursive] at hf
  split_ifs at hf
  · cases hf
  · obtain ⟨i, x, -, hf⟩ := (mem_extractItems assigner maxDepth).mp hf
    have hmem := (prefix_of_mem_extractFields hf).subset
      (List.mem_append_right path.segments (List.mem_singleton_self _))
    exact ⟨_, hmem⟩

end Paths

theorem mem_collectFieldPatches {stream : Stream} {threshold : Priority}
    {m : List (String × JsonData)} {path : JsonPath} {p : FramePatch × Priority} :
    p ∈ stream.collectFieldPatches threshold m path ↔
      ∃ key value childPath, (key, value) ∈ m ∧ path.appendKey key = .ok childPath ∧
        p ∈ stream.collectPatches threshold value childPath := by
  induction m with
  | nil => simp [Stream.collectFieldPatches]
  | cons e m ih =>
    obtain ⟨k, v⟩ := e
    rw [Stream.collectFieldPatches, List.mem_append, ih]
    constructor
    · rintro (hp | ⟨key, value, childPath, hmem, hrest⟩)
      · cases hc : path.appendKey k with
        | error e => simp [hc] at hp
        | ok childPath =>
          simp only [hc] at hp
          exact ⟨k, v, childPath, by simp, hc, hp⟩
      · exact ⟨key, value, childPath, by simp [hmem], hrest⟩
    · rintro ⟨key, value, childPath, hmem, hc, hp⟩
      rcases List.mem_cons.mp hmem with heq | hmem
      · cases heq
        left
        simpa only [hc] using hp
      · exact Or.inr ⟨key, value, childPath, hmem, hc, hp⟩

section Agreement
variable {stream : Stream} {assigner : PriorityAssigner} {maxDepth : ℕ}

open PriorityAssigner

/-- The patches of an object are its plain fields, if its key paths end above the depth limit. -/
theorem mem_collectFieldPatches_iff (hpri : assigner.calculateFieldPriority = stream.computePriority)
    {m : List (String × JsonData)} {depth n : ℕ} (hn : n ≤ maxDepth - depth)
    (hm : KeysWithin n (.object m)) {path : JsonPath} (hpath : ∀ i, .index i ∉ path.segments)
    {t : JsonPath × JsonData × Priority} :
    (∃ p ∈ stream.collectFieldPatches .minimum m path, t = (p.1.path, p.1.value, p.2)) ↔
      AtLeaf t ∧ ∃ f ∈ extractFieldsRecursive assigner maxDepth (.object m) path depth,
        t = (f.path, f.value, f.priority) := by
  generalize hd : (Doc.object m : JsonData) = d at hm
  induction d using Doc.induction generalizing m path depth n with
  | scalar s => cases hd
  | array xs => cases hd
  | object m' ih =>
    obtain rfl : m = m' := by simpa using hd
    cases hm with
    | object hpos hm =>
    have hroom : ∀ {k v}, (k, v) ∈ m → 1 ≤ n := fun hkv => hpos (List.ne_nil_of_mem hkv)
    -- the patches below one field are the plain fields among it and what is below it
    have hfield : ∀ k v childPath, (k, v) ∈ m → path.appendKey k = .ok childPath →
        ((∃ p ∈ stream.collectPatches .minimum v childPath, t = (p.1.path, p.1.value, p.2)) ↔
          AtLeaf t ∧ (t = (childPath, v, assigner.calculateFieldPriority childPath v) ∨
            ∃ f ∈ extractFieldsRecursive assigner maxDepth v childPath (depth + 1),
              t = (f.path, f.value, f.priority))) := by
      intro k v childPath hkv hc
      have hchild : ∀ i, .index i ∉ childPath.segments := by
        intro i hi
        rw [JsonPath.segments_of_appendKey hc] at hi
        rcases List.mem_append.mp hi with hi | hi
        · exact hpath i hi
        · simp at hi
      cases v with
      | scalar s =>
        simp only [Stream.collectPatches, Stream.collectLeaf_minimum, List.mem_singleton,
          exists_eq_left, extractFieldsRecursive, List.not_mem_nil, false_and, exists_false,
          or_false, hpri]
        constructor
        · rintro rfl
          refine ⟨⟨?_, hchild⟩, rfl⟩
          intro mv h
          cases h
        · exact fun h => h.2
      | array xs =>
        simp only [Stream.collectPatches, Stream.collectLeaf_minimum, List.mem_singleton,
          exists_eq_left, hpri]
        constructor
        · rintro rfl
          refine ⟨⟨?_, hchild⟩, Or.inl rfl⟩
          intro mv h
          cases h
        · rintro ⟨hleaf, rfl | ⟨f, hf, rfl⟩⟩
          · rfl
          · obtain ⟨i, hi⟩ := not_plain_of_mem_array hf
            exact absurd hi (hleaf.2 i)
      | object mv =>
        have hone := hroom hkv
        rw [Stream.collectPatches, ih k _ hkv (show n - 1 ≤ maxDepth - (depth + 1) by omega)
          hchild rfl (hm k _ hkv)]
        constructor
        · rintro ⟨hleaf, hf⟩
          exact ⟨hleaf, Or.inr hf⟩
        · rintro ⟨hleaf, rfl | hf⟩
          · exact absurd rfl (hleaf.1 mv)
          · exact ⟨hleaf, hf⟩
    rw [extractFieldsRecursive]
    simp only [mem_collectFieldPatches]
    constructor
    · rintro ⟨p, ⟨k, v, childPath, hkv, hc, hp⟩, ht⟩
      obtain ⟨hleaf, hrest⟩ := (hfield k v childPath hkv hc).mp ⟨p, hp, ht⟩
      have hone := hroom hkv
      rw [if_neg (show ¬ depth ≥ maxDepth by omega)]
      refine ⟨hleaf, ?_⟩
      rcases hrest with rfl | ⟨f, hf, rfl⟩
      · exact ⟨_, (mem_extractEntries assigner maxDepth).mpr
          ⟨k, v, childPath, hkv, hc, Or.inl rfl⟩, rfl⟩
      · exact ⟨f, (mem_extractEntries assigner maxDepth).mpr
          ⟨k, v, childPath, hkv, hc, Or.inr hf⟩, rfl⟩
    · rintro ⟨hleaf, f, hf, ht⟩
      split_ifs at hf
      · cases hf
      · obtain ⟨k, v, childPath, hkv, hc, hf⟩ := (mem_extractEntries assigner maxDepth).mp hf
        have hrest : t = (childPath, v, assigner.calculateFieldPriority childPath v) ∨
            ∃ f ∈ extractFieldsRecursive assigner maxDepth v childPath (depth + 1),
              t = (f.path, f.value, f.priority) := by
          rcases hf with rfl | hf
          · exact Or.inl ht
          · exact Or.inr ⟨f, hf, ht⟩
        obtain ⟨p, hp, ht'⟩ := (hfield k v childPath hkv hc).mpr ⟨hleaf, hrest⟩
        exact ⟨p, ⟨k, v, childPath, hkv, hc, hp⟩, ht'⟩

theorem triples_generateFrames (env : GenerationEnv) (assigner : PriorityAssigner)
    (data : JsonData) (streamId : StreamId) (threshold : Priority) (maxDepth : ℕ) :
    ∃ frames, generateFrames env assigner data streamId threshold maxDepth = .ok frames ∧
      ∀ t, t ∈ Frame.triples frames ↔
        ∃ f ∈ assigner.extractPrioritizedFieldsWithLimit maxDepth data, threshold ≤ f.priority ∧
          t = (f.path, f.value, f.priority) := by
  obtain ⟨frames, sequence, priorities, hrun, hlevels, hpriorities⟩ :=
    generateFrames_eq_ok env assigner data streamId threshold maxDepth
  refine ⟨_, hrun, fun t => ?_⟩
  have hfields := exists_mem_patches_iff hlevels
    (P := fun priority patch => t = (patch.path, patch.value, priority))
  constructor
  · rintro ⟨frame, hframe, htype, hpatch⟩
    simp only [List.cons_append, List.mem_cons, List.mem_append, List.not_mem_nil, or_false]
      at hframe
    rcases hframe with rfl | hframe | rfl
    · cases htype
    · obtain ⟨f, hf, hp, ht⟩ := hfields.mp ⟨frame, hframe, hpatch⟩
      exact ⟨f, hf, ((hpriorities _).mp hp).1, ht⟩
    · cases htype
  · rintro ⟨f, hf, hle, ht⟩
    obtain ⟨frame, hframe, hpatch⟩ :=
      hfields.mpr ⟨f, hf, (hpriorities _).mpr ⟨hle, f, hf, rfl⟩, ht⟩
    exact ⟨frame, by simp [hframe], frameType_of_levels hlevels frame hframe, hpatch⟩

/-- Over HTTP and in the browser the same values go out at the same paths with the same
priorities. -/
theorem triples_eq {stream : Stream} {d : DataDocument} {m : List (String × JsonData)}
    (hm : d.value = .object m) (hstate : stream.state = .streaming)
    (hdata : stream.sourceData = some d) (hrules : stream.config.priorityRules.entries = [])
    (threshold : Priority) (env : GenerationEnv) (streamId : StreamId) {maxDepth : ℕ}
    (hdepth : KeysWithin maxDepth d.value) :
    ∃ patches frames, stream.extractPrioritizedPatches threshold = .ok patches ∧
      generateFrames env (.withConfig .default) d.value streamId threshold maxDepth = .ok frames ∧
      Stream.triples patches = Frame.triples frames ∩ {t | AtLeaf t} := by
  obtain ⟨frames, hrun, htriples⟩ :=
    triples_generateFrames env (.withConfig .default) d.value streamId threshold maxDepth
  refine ⟨_, frames, Stream.extractPrioritizedPatches_eq_ok hstate hdata threshold, hrun, ?_⟩
  rw [hm] at hdepth htriples ⊢
  ext t
  have hiff := mem_collectFieldPatches_iff (calculateFieldPriority_default hrules)
    (le_refl (maxDepth - 0)) hdepth
    (show ∀ i, .index i ∉ JsonPath.root.segments by simp [JsonPath.root]) (t := t)
  rw [Set.mem_inter_iff, htriples, Set.mem_ofPred_eq]
  constructor
  · rintro ⟨p, hp, rfl⟩
    rw [Stream.extractPatches, Lists.mem_sortDesc, Stream.collectPatches_eq_filter,
      List.mem_filter, decide_eq_true_eq, Stream.collectPatches] at hp
    obtain ⟨hleaf, f, hf, ht⟩ := hiff.mp ⟨p, hp.1, rfl⟩
    have hpri : p.2 = f.priority := congrArg (fun t => t.2.2) ht
    exact ⟨⟨f, hf, hpri ▸ hp.2, ht⟩, hleaf⟩
  · rintro ⟨⟨f, hf, hle, rfl⟩, hleaf⟩
    obtain ⟨p, hp, ht⟩ := hiff.mpr ⟨hleaf, f, hf, rfl⟩
    have hpri : f.priority = p.2 := congrArg (fun t => t.2.2) ht
    refine ⟨p, ?_, ht⟩
    rw [Stream.extractPatches, Lists.mem_sortDesc, Stream.collectPatches_eq_filter,
      List.mem_filter, decide_eq_true_eq, Stream.collectPatches]
    exact ⟨hp, hpri ▸ hle⟩

theorem triples_eq_user :
    ∃ patches frames,
      (Stream.started Stream.userDocument).extractPrioritizedPatches .high = .ok patches ∧
      generateFrames (.still .epoch) (.withConfig .default) Stream.userDocument.value ⟨1⟩ .high 2 =
        .ok frames ∧
      Stream.triples patches = Frame.triples frames ∩ {t | AtLeaf t} := by
  refine triples_eq rfl rfl rfl rfl .high _ _ (.object (by simp) ?_)
  simp only [List.mem_cons, Prod.mk.injEq, List.not_mem_nil, or_false]
  rintro k v (⟨rfl, rfl⟩ | ⟨rfl, rfl⟩ | ⟨rfl, rfl⟩)
  · exact .scalar _
  · exact .array _
  · exact .object (by simp) (by simpa using .scalar _)

end Agreement

end Wasm

end PJS
