import PJS.Domain.Stream

/-! What the patches of a stream carry. At the lowest threshold they are the leaves of the source
data, so together with the skeleton they restore everything that paths can address, and lose what
stands under the other keys unless it is blank. -/
namespace PJS

/-- The value of the patch set at its path. -/
def FramePatch.setting (patch : FramePatch) : Doc.Patch String DataScalar :=
  ⟨patch.path.segments, .set patch.value⟩

namespace Stream

section Skeleton

/-- The placeholder of a scalar field. -/
def placeholder : DataScalar → DataScalar
  | .null => .null
  | .bool _ => .bool false
  | .integer _ => .integer 0
  | .float _ => .float 0.0
  | .string _ => .null

/-- A scalar that is its own placeholder. -/
def IsZero (s : DataScalar) : Prop :=
  s = .null ∨ s = .bool false ∨ s = .integer 0 ∨ s = .float 0.0

theorem placeholder_eq_self_iff (s : DataScalar) : placeholder s = s ↔ IsZero s := by
  rcases s with _ | b | i | f | s <;> simp [placeholder, IsZero, eq_comm]

private theorem generateSkeletonFields_eq_foldl {m : List (String × JsonData)}
    (h : ∀ k n, (k, .object n) ∈ m → generateSkeleton (.object n) =
      (Doc.object n).blankOut placeholder) (acc : List (String × JsonData)) :
    generateSkeletonFields acc m =
      (Doc.blankFields placeholder m).foldl (fun a e => Assoc.insert e.1 e.2 a) acc := by
  induction m generalizing acc with
  | nil => rfl
  | cons e m ih =>
    obtain ⟨k, v⟩ := e
    have hstep : generateSkeletonFields acc ((k, v) :: m) =
        generateSkeletonFields (Assoc.insert k (v.blankOut placeholder) acc) m := by
      rcases v with (_ | _ | _ | _ | _) | _ | n
      case object => rw [← h k n (by simp)]; rfl
      all_goals rfl
    rw [hstep, ih fun j n hj => h j n (by simp [hj]), Doc.blankFields, List.foldl_cons]

theorem generateSkeleton_object {m : List (String × JsonData)}
    (hm : JsonData.Distinct (.object m)) :
    generateSkeleton (.object m) = (Doc.object m).blankOut placeholder := by
  generalize hv : (Doc.object m : JsonData) = v at hm ⊢
  induction v using Doc.induction generalizing m with
  | scalar s => cases hv
  | array xs => cases hv
  | object m ih =>
    obtain ⟨hk, hfields⟩ := Doc.keyed_object_iff.mp hm
    rw [generateSkeleton, generateSkeletonFields_eq_foldl fun k n hkn =>
      ih k (.object n) hkn rfl (hfields k _ hkn), Doc.blankOut]
    congr 1
    exact Assoc.foldl_insert_eq (by rwa [List.nil_append, Doc.keys_blankFields])

end Skeleton

section Leaves

theorem collectLeaf_minimum (stream : Stream) (data : JsonData) (path : JsonPath) :
    stream.collectLeaf .minimum data path =
      [(FramePatch.set path data, stream.computePriority path data)] := by
  simp only [collectLeaf, ge_iff_le, Priority.minimum_le, if_true]

/-- At the lowest threshold the walker emits the leaves of the data, at the data's path. -/
theorem collectPatches_minimum (stream : Stream) (d : JsonData) (path : JsonPath) :
    (stream.collectPatches .minimum d path).map (fun p => p.1.setting) =
      (d.leaves ValidKey).map (Doc.Patch.rebase path.segments) := by
  induction d using Doc.induction generalizing path with
  | scalar s =>
    simp [collectPatches, collectLeaf_minimum, FramePatch.setting, FramePatch.set, Doc.leaves,
      Doc.Patch.rebase]
  | array xs =>
    simp [collectPatches, collectLeaf_minimum, FramePatch.setting, FramePatch.set, Doc.leaves,
      Doc.Patch.rebase]
  | object m ih =>
    rw [collectPatches, Doc.leaves]
    induction m with
    | nil => rfl
    | cons e m ihm =>
      obtain ⟨k, v⟩ := e
      rw [collectFieldPatches, Doc.fieldLeaves, List.map_append, List.map_append,
        ihm fun j w hj => ih j w (by simp [hj])]
      congr 1
      by_cases hk : ValidKey k
      · obtain ⟨p, hp, hseg⟩ := path.appendKey_of_valid hk
        rw [if_pos hk, hp, List.map_map]
        simp only
        rw [ih k v (by simp) p, hseg]
        refine List.map_congr_left fun q _ => ?_
        exact (Doc.Patch.rebase_below path.segments k q).symm
      · obtain ⟨e, he⟩ := path.appendKey_of_not_valid hk
        rw [if_neg hk, he]
        rfl

theorem collectLeaf_eq_filter (stream : Stream) (threshold : Priority) (data : JsonData)
    (path : JsonPath) : stream.collectLeaf threshold data path =
      (stream.collectLeaf .minimum data path).filter fun p => threshold ≤ p.2 := by
  rw [collectLeaf_minimum, List.filter_singleton, Bool.cond_decide]
  rfl

/-- A threshold drops the patches below it and changes nothing else. -/
theorem collectPatches_eq_filter (stream : Stream) (threshold : Priority) (d : JsonData)
    (path : JsonPath) : stream.collectPatches threshold d path =
      (stream.collectPatches .minimum d path).filter fun p => threshold ≤ p.2 := by
  induction d using Doc.induction generalizing path with
  | scalar s =>
    rw [collectPatches, collectPatches]
    exact stream.collectLeaf_eq_filter threshold (.scalar s) path
  | array xs =>
    rw [collectPatches, collectPatches]
    exact stream.collectLeaf_eq_filter threshold (.array xs) path
  | object m ih =>
    rw [collectPatches, collectPatches]
    induction m with
    | nil => rfl
    | cons e m ihm =>
      obtain ⟨k, v⟩ := e
      rw [collectFieldPatches, collectFieldPatches, List.filter_append,
        ihm fun j w hj => ih j w (by simp [hj])]
      congr 1
      cases path.appendKey k with
      | error e => rfl
      | ok p => exact ih k v (by simp) p

/-- The paths of the extracted patches are distinct. -/
theorem nodup_extractPatches (stream : Stream) (d : DataDocument) (threshold : Priority) :
    ((stream.extractPatches d.value threshold).map fun p => p.1.path).Nodup := by
  have hleaves := @Doc.leaves_pairwise _ _ ValidKey _ _ d.distinct
  have hall : ((stream.collectPatches .minimum d.value .root).map fun p => p.1.path).Nodup := by
    have hcollect := stream.collectPatches_minimum d.value .root
    rw [show JsonPath.root.segments = [] from rfl, Doc.Patch.map_rebase_nil] at hcollect
    rw [← hcollect, List.pairwise_map] at hleaves
    refine List.pairwise_map.mpr (hleaves.imp fun {a b} hab he => hab.1 ?_)
    rw [FramePatch.setting, FramePatch.setting, he]
  have hperm := (Lists.sortDesc_perm Prod.snd (stream.collectPatches threshold d.value .root)).map
    fun p => p.1.path
  refine hperm.nodup_iff.mpr (hall.sublist ?_)
  rw [stream.collectPatches_eq_filter threshold]
  exact List.filter_sublist.map _

/-- The extracted patches are the leaves, in priority order. -/
theorem extractPatches_minimum_perm (stream : Stream) (d : JsonData) :
    ((stream.extractPatches d .minimum).map fun p => p.1.setting).Perm (d.leaves ValidKey) := by
  have hperm := (Lists.sortDesc_perm Prod.snd (stream.collectPatches .minimum d .root)).map
    fun p => p.1.setting
  rw [collectPatches_minimum] at hperm
  rwa [show JsonPath.root.segments = [] from rfl, Doc.Patch.map_rebase_nil] at hperm

theorem computePriority_of_mem_collectPatches {stream : Stream} {threshold : Priority} {d : JsonData}
    {path : JsonPath} {p : FramePatch × Priority} (h : p ∈ stream.collectPatches threshold d path) :
    p.1.operation = .set ∧ p.2 = stream.computePriority p.1.path p.1.value := by
  have hleaf : ∀ {data : JsonData} {path : JsonPath}, p ∈ stream.collectLeaf threshold data path →
      p.1.operation = .set ∧ p.2 = stream.computePriority p.1.path p.1.value := by
    intro data path hp
    simp only [collectLeaf] at hp
    split_ifs at hp
    · rw [List.mem_singleton] at hp
      rw [hp]
      exact ⟨rfl, rfl⟩
    · cases hp
  induction d using Doc.induction generalizing path with
  | scalar s =>
    rw [collectPatches] at h
    exact hleaf h
  | array xs =>
    rw [collectPatches] at h
    exact hleaf h
  | object m ih =>
    rw [collectPatches] at h
    induction m with
    | nil => cases h
    | cons e m ihm =>
      obtain ⟨k, v⟩ := e
      rw [collectFieldPatches] at h
      rcases List.mem_append.mp h with h | h
      · cases hc : path.appendKey k with
        | error e =>
          rw [hc] at h
          cases h
        | ok childPath =>
          rw [hc] at h
          exact ih k v (by simp) h
      · exact ihm (fun j w hj => ih j w (by simp [hj])) h

/-- The extracted patches set the leaves of the data whose priorities reach the threshold. -/
theorem mem_extractPatches_iff {stream : Stream} {d : JsonData} {threshold : Priority}
    {p : FramePatch × Priority} :
    p ∈ stream.extractPatches d threshold ↔ p.1.setting ∈ d.leaves ValidKey ∧
      p.1.operation = .set ∧ p.2 = stream.computePriority p.1.path p.1.value ∧ threshold ≤ p.2 := by
  rw [extractPatches, Lists.mem_sortDesc, collectPatches_eq_filter, List.mem_filter,
    decide_eq_true_eq, ← (extractPatches_minimum_perm stream d).mem_iff, extractPatches]
  constructor
  · rintro ⟨hp, hle⟩
    obtain ⟨hop, hpri⟩ := computePriority_of_mem_collectPatches hp
    exact ⟨List.mem_map.mpr ⟨p, by rwa [Lists.mem_sortDesc], rfl⟩, hop, hpri, hle⟩
  · rintro ⟨hleaf, hop, hpri, hle⟩
    obtain ⟨q, hq, hsetting⟩ := List.mem_map.mp hleaf
    rw [Lists.mem_sortDesc] at hq
    obtain ⟨hop', hpri'⟩ := computePriority_of_mem_collectPatches hq
    have hpath : q.1.path = p.1.path := JsonPath.ext (congrArg Doc.Patch.path hsetting)
    have hvalue : q.1.value = p.1.value := by
      have hedit := congrArg Doc.Patch.edit hsetting
      simpa [FramePatch.setting] using hedit
    obtain ⟨⟨path, operation, value⟩, priority⟩ := p
    obtain ⟨⟨path', operation', value'⟩, priority'⟩ := q
    simp only at hop hpri hop' hpri' hpath hvalue
    subst hop hpri hop' hpri' hpath hvalue
    exact ⟨hq, hle⟩

/-- Chunking loses no patch and keeps their order. -/
theorem flatMap_chunkPatchesForCommit (patches : List (FramePatch × Priority)) {maxFrames : ℕ}
    (h : 1 ≤ maxFrames) :
    (chunkPatchesForCommit patches maxFrames).flatMap Prod.snd = patches.map Prod.fst := by
  unfold chunkPatchesForCommit
  split_ifs with hempty
  · rcases hempty with hempty | hzero
    · rw [List.isEmpty_iff.mp hempty]
      rfl
    · omega
  · rw [List.flatMap_map, List.flatMap_def, ← List.map_flatten, Lists.flatten_toChunks]

/-- Setting the patches in the skeleton in any order fills it. -/
theorem runAll_settings (d : DataDocument) {ps : List (Doc.Patch String DataScalar)}
    (hps : ps.Perm (d.value.leaves ValidKey)) :
    Doc.runAll ps (generateSkeleton d.value) = some (d.value.filled ValidKey placeholder) := by
  refine Doc.runAll_leaves d.distinct hps fun m hm => ?_
  have hd := d.distinct
  rw [hm] at hd ⊢
  exact generateSkeleton_object hd

theorem extractPrioritizedPatches_eq_ok {stream : Stream} {d : DataDocument}
    (hstate : stream.state = .streaming) (hdata : stream.sourceData = some d)
    (threshold : Priority) :
    stream.extractPrioritizedPatches threshold =
      .ok (stream.extractPatches d.value threshold) := by
  simp [extractPrioritizedPatches, hstate, hdata]

/-- When paths can address every key outside arrays, the patches do not overlap and restore the
source data, however they are ordered and grouped into frames. -/
theorem extractPrioritizedPatches_restores {stream : Stream} {d : DataDocument}
    (hstate : stream.state = .streaming) (hdata : stream.sourceData = some d)
    (hkeys : d.value.Addressable fun key => ∃ path, JsonPath.root.appendKey key = .ok path) :
    ∃ patches, stream.extractPrioritizedPatches .minimum = .ok patches ∧
      patches.Pairwise (fun a b => a.1.path ≠ b.1.path ∧ a.1.path.isPrefixOf b.1.path = false ∧
        b.1.path.isPrefixOf a.1.path = false) ∧
      ∀ ordered : List (FramePatch × Priority), ordered.Perm patches →
      ∀ maxFrames, 1 ≤ maxFrames → ∀ arrived : List FramePatch,
        arrived.Perm ((chunkPatchesForCommit ordered maxFrames).flatMap Prod.snd) →
        Doc.runAll (arrived.map FramePatch.setting) (generateSkeleton d.value) = some d.value := by
  have hleaves := extractPatches_minimum_perm stream d.value
  refine ⟨_, extractPrioritizedPatches_eq_ok hstate hdata .minimum, ?_, ?_⟩
  · have hpair := (hleaves.pairwise_iff fun hab => hab.symm).mpr (Doc.leaves_pairwise d.distinct)
    rw [List.pairwise_map] at hpair
    refine hpair.imp fun {a b} hab => ⟨fun he => hab.1 ?_, JsonPath.isPrefixOf_eq_false hab.1,
      JsonPath.isPrefixOf_eq_false hab.2⟩
    rw [FramePatch.setting, FramePatch.setting, he]
  · intro ordered hord maxFrames hmax arrived harr
    rw [flatMap_chunkPatchesForCommit ordered hmax] at harr
    have hperm := (harr.trans (hord.map Prod.fst)).map FramePatch.setting
    rw [List.map_map] at hperm
    rw [runAll_settings d (hperm.trans hleaves), Option.some.injEq]
    simp only [JsonPath.exists_appendKey_eq_ok_iff] at hkeys
    exact (Doc.filled_eq_self_iff placeholder_eq_self_iff).mpr (hkeys.blankBelow IsZero)

/-- A stream over `d` that has started. -/
def started (d : DataDocument) : Stream :=
  let env : Env := ⟨fun _ => .epoch, ⟨1⟩, fun _ => ""⟩
  ((Stream.new env ⟨0⟩ d .default).startStreaming env).2

def userDocument : DataDocument where
  value := .object [("id", JsonData.integer 7), ("tags", .array [JsonData.string "x"]),
    ("user", .object [("name", JsonData.string "y")])]
  distinct := by
    refine .object (by decide) ?_
    simp only [List.mem_cons, Prod.mk.injEq, List.not_mem_nil, or_false]
    rintro k v (⟨rfl, rfl⟩ | ⟨rfl, rfl⟩ | ⟨rfl, rfl⟩)
    · exact .scalar _
    · exact .array (by simpa using .scalar _)
    · exact .object (by decide) (by simpa using .scalar _)

theorem extractPrioritizedPatches_restores_user :
    ∃ patches, (started userDocument).extractPrioritizedPatches .minimum = .ok patches ∧
      patches.Pairwise (fun a b => a.1.path ≠ b.1.path ∧ a.1.path.isPrefixOf b.1.path = false ∧
        b.1.path.isPrefixOf a.1.path = false) ∧
      ∀ ordered : List (FramePatch × Priority), ordered.Perm patches →
      ∀ maxFrames, 1 ≤ maxFrames → ∀ arrived : List FramePatch,
        arrived.Perm ((chunkPatchesForCommit ordered maxFrames).flatMap Prod.snd) →
        Doc.runAll (arrived.map FramePatch.setting) (generateSkeleton userDocument.value) =
          some userDocument.value := by
  refine extractPrioritizedPatches_restores rfl rfl ?_
  simp only [JsonPath.exists_appendKey_eq_ok_iff]
  refine .object (by decide) ?_
  simp only [List.mem_cons, Prod.mk.injEq, List.not_mem_nil, or_false]
  rintro k v (⟨rfl, rfl⟩ | ⟨rfl, rfl⟩ | ⟨rfl, rfl⟩)
  · exact .scalar _
  · exact .array _
  · exact .object (by decide) (by simpa using .scalar _)

/-- Under a key that no path can encode only blank values survive. -/
theorem extractPrioritizedPatches_restores_iff {stream : Stream} {d : DataDocument}
    (hstate : stream.state = .streaming) (hdata : stream.sourceData = some d) :
    (∀ patches, stream.extractPrioritizedPatches .minimum = .ok patches →
      Doc.runAll (patches.map fun p => p.1.setting) (generateSkeleton d.value) = some d.value) ↔
    d.value.BlankBelow (fun key => ∃ path, JsonPath.root.appendKey key = .ok path) IsZero := by
  have hrun := runAll_settings d (extractPatches_minimum_perm stream d.value)
  simp only [JsonPath.exists_appendKey_eq_ok_iff]
  rw [← Doc.filled_eq_self_iff placeholder_eq_self_iff, extractPrioritizedPatches_eq_ok hstate hdata]
  constructor
  · intro h
    have hd := h _ rfl
    rw [hrun, Option.some.injEq] at hd
    exact hd
  · rintro h patches ⟨⟩
    rw [hrun, h]

def dottedDocument : DataDocument where
  value := .object [("a.b", JsonData.string "x")]
  distinct := .object (by decide) (by simpa using .scalar _)

theorem extractPrioritizedPatches_restores_iff_dotted :
    (∀ patches, (started dottedDocument).extractPrioritizedPatches .minimum = .ok patches →
      Doc.runAll (patches.map fun p => p.1.setting) (generateSkeleton dottedDocument.value) =
        some dottedDocument.value) ↔
    dottedDocument.value.BlankBelow (fun key => ∃ path, JsonPath.root.appendKey key = .ok path)
      IsZero :=
  extractPrioritizedPatches_restores_iff rfl rfl

/-- The string under the dotted key is in no frame. -/
theorem extractPrioritizedPatches_loses_dotted :
    (∃ e, JsonPath.root.appendKey "a.b" = .error e) ∧
    ∃ patches, (started dottedDocument).extractPrioritizedPatches .minimum = .ok patches ∧
      Doc.runAll (patches.map fun p => p.1.setting) (generateSkeleton dottedDocument.value) ≠
        some dottedDocument.value :=
  ⟨⟨_, rfl⟩, _, rfl, by decide⟩

end Leaves

end Stream

end PJS
