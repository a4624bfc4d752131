import PJS.Stream.Reconstruction

/-! What a streaming plan contains: the skeleton has the document's keys, and its patches, in plan
order, are a schedule for the parts of the document. The schedule survives the priority sort
because a `Set` is hoisted to the priority of the appends below it. -/
namespace PJS

/-- The document edit a patch performs; `Remove` is none and `analyze` never emits it. -/
def JsonPatch.edit? (patch : JsonPatch) : Option (Doc.Patch String JsonScalar) :=
  match patch.operation with
  | .set value => some ⟨patch.path.segments, .set value⟩
  | .append values => some ⟨patch.path.segments, .append values⟩
  | .replace value => some ⟨patch.path.segments, .set value⟩
  | .remove => none

theorem JsonPatch.path_of_edit? {patch : JsonPatch} {e : Doc.Patch String JsonScalar}
    (h : patch.edit? = some e) : e.path = patch.path.segments := by
  unfold JsonPatch.edit? at h
  split at h
  all_goals cases h
  all_goals rfl

namespace PriorityStreamer

section Skeleton

/-- The placeholder of a scalar field. -/
def placeholder : JsonScalar → JsonScalar
  | .string _ => .null
  | .number _ => .number (.posInt 0)
  | .bool _ => .bool false
  | .null => .null

private theorem generateSkeletonFields_eq_foldl {m : JsonMap}
    (h : ∀ k n, (k, .object n) ∈ m → generateSkeleton (.object n) =
      (Doc.object n).blankOut placeholder) (acc : JsonMap) :
    generateSkeletonFields acc m =
      (Doc.blankFields placeholder m).foldl (fun a e => a.insert e.1 e.2) acc := by
  induction m generalizing acc with
  | nil => rfl
  | cons e m ih =>
    obtain ⟨k, v⟩ := e
    have hstep : generateSkeletonFields acc ((k, v) :: m) =
        generateSkeletonFields (acc.insert k (v.blankOut placeholder)) m := by
      rcases v with (_ | _ | _ | _) | _ | n
      case object => rw [← h k n (by simp)]; rfl
      all_goals rfl
    rw [hstep, ih fun j n hj => h j n (by simp [hj]), Doc.blankFields, List.foldl_cons]

/-- The skeleton of an object is the object blanked out. -/
theorem generateSkeleton_object {m : JsonMap} (hm : JsonValue.Ordered (.object m)) :
    generateSkeleton (.object m) = (Doc.object m).blankOut placeholder := by
  generalize hv : (Doc.object m : JsonValue) = v at hm ⊢
  induction v using Doc.induction generalizing m with
  | scalar s => cases hv
  | array xs => cases hv
  | object m ih =>
    obtain ⟨hk, hfields⟩ := Doc.keyed_object_iff.mp hm
    rw [generateSkeleton, generateSkeletonFields_eq_foldl fun k n hkn =>
      ih k (.object n) hkn rfl (hfields k _ hkn), Doc.blankOut]
    congr 1
    exact JsonMap.collect_eq (by rwa [Doc.keys_blankFields])

theorem skeletonizeArrays_eq {v : JsonValue} (hv : v.Ordered) :
    skeletonizeArrays v = v.emptyArrays ValidKey := by
  have hlist : ∀ m : JsonMap,
      (∀ k v, (k, v) ∈ m → skeletonizeArrays v = v.emptyArrays ValidKey) →
      skeletonizeFields m = Doc.emptyFields ValidKey m := by
    intro m
    induction m with
    | nil => exact fun _ => rfl
    | cons e m ih =>
      intro h
      obtain ⟨k, v⟩ := e
      rw [skeletonizeFields, Doc.emptyFields, ih fun j w hj => h j w (by simp [hj])]
      by_cases hk : ValidKey k
      · obtain ⟨p, hp, -⟩ := JsonPath.root.appendKey_of_valid hk
        rw [hp, if_pos hk, h k v (by simp)]
      · obtain ⟨e, he⟩ := JsonPath.root.appendKey_of_not_valid hk
        rw [he, if_neg hk]
  induction v using Doc.induction with
  | scalar s => rfl
  | array xs => rfl
  | object m ih =>
    obtain ⟨hk, hfields⟩ := Doc.keyed_object_iff.mp hv
    have hm := hlist m fun k v hkv => ih k v hkv (hfields k v hkv)
    rw [skeletonizeArrays, Doc.emptyArrays, hm, JsonMap.collect_eq]
    rwa [Doc.keys_emptyFields]

end Skeleton

variable (config : StreamerConfig)

section Extraction

/-- How `extractPatches` cuts an array. -/
def chunk (arr : List JsonValue) : List (List JsonValue) :=
  if arr.length > 10 then arr.toChunks config.maxPatchSize
  else if arr.isEmpty then []
  else [arr]

theorem flatten_chunk (arr : List JsonValue) : (chunk config arr).flatten = arr := by
  unfold chunk
  split_ifs with h he
  · exact Lists.flatten_toChunks _ arr
  · rw [List.isEmpty_iff.mp he, List.flatten_nil]
  · simp

theorem extractPatches_array (arr : List JsonValue) (path : JsonPath) :
    extractPatches config (.array arr) path =
      (chunk config arr).map fun c => ⟨path, .append c, calculateArrayPriority path arr⟩ := by
  unfold extractPatches chunk
  split_ifs <;> rfl

/-- The patches of a value are its parts, at the value's path. -/
theorem filterMap_edit?_extractPatches {v : JsonValue} (hv : v.Ordered) (path : JsonPath) :
    (extractPatches config v path).filterMap JsonPatch.edit? =
      (v.parts ValidKey (chunk config)).map (Doc.Patch.rebase path.segments) := by
  induction v using Doc.induction generalizing path with
  | scalar s => rfl
  | array xs =>
    rw [extractPatches_array, Doc.parts, List.filterMap_map, List.map_map, ← List.filterMap_eq_map]
    refine List.filterMap_congr fun c _ => ?_
    simp [JsonPatch.edit?, Doc.Patch.rebase]
  | object m ih =>
    obtain ⟨-, hfields⟩ := Doc.keyed_object_iff.mp hv
    rw [extractPatches, Doc.parts]
    clear hv
    induction m with
    | nil => rfl
    | cons e m ihm =>
      obtain ⟨k, v⟩ := e
      have hrest := ihm (fun j w hj => ih j w (by simp [hj]))
        fun j w hj => hfields j w (by simp [hj])
      rw [extractFieldPatches, Doc.fieldParts, List.filterMap_append, List.map_append, hrest]
      congr 1
      by_cases hk : ValidKey k
      · obtain ⟨p, hp, hseg⟩ := path.appendKey_of_valid hk
        have hchild := ih k v (by simp) (hfields k v (by simp)) p
        rw [if_pos hk, hp]
        simp only [List.map_cons, List.map_map]
        rw [List.filterMap_cons, hchild, skeletonizeArrays_eq (hfields k v (by simp)), hseg]
        simp only [JsonPatch.edit?, hseg]
        congr 1
        refine List.map_congr_left fun q _ => ?_
        exact (Doc.Patch.rebase_below path.segments k q).symm
      · obtain ⟨e, he⟩ := path.appendKey_of_not_valid hk
        rw [if_neg hk, he]
        rfl

theorem filterMap_edit?_extractPatches_root {v : JsonValue} (hv : v.Ordered) :
    (extractPatches config v .root).filterMap JsonPatch.edit? =
      v.parts ValidKey (chunk config) := by
  rw [filterMap_edit?_extractPatches config hv]
  exact Doc.Patch.map_rebase_nil _

theorem mem_extractFieldPatches {m : JsonMap} {path : JsonPath} {p : JsonPatch} :
    p ∈ extractFieldPatches config m path ↔ ∃ k v fieldPath, (k, v) ∈ m ∧
      path.appendKey k = .ok fieldPath ∧
      (p = ⟨fieldPath, .set (skeletonizeArrays v),
          hoistedPriority (calculateFieldPriority fieldPath k v)
            (extractPatches config v fieldPath)⟩ ∨
        p ∈ extractPatches config v fieldPath) := by
  induction m with
  | nil => simp [extractFieldPatches]
  | cons e m ih =>
    obtain ⟨k, v⟩ := e
    rw [extractFieldPatches, List.mem_append, ih]
    constructor
    · rintro (hp | ⟨j, w, q, hj, hq, hp⟩)
      · split at hp
        · simp at hp
        · rename_i q hq
          exact ⟨k, v, q, by simp, hq, List.mem_cons.mp hp⟩
      · exact ⟨j, w, q, by simp [hj], hq, hp⟩
    · rintro ⟨j, w, q, hj, hq, hp⟩
      rcases List.mem_cons.mp hj with heq | hj
      · cases heq
        left
        rw [hq]
        exact List.mem_cons.mpr hp
      · exact Or.inr ⟨j, w, q, hj, hq, hp⟩

/-- Every patch is at or below the path it was extracted from, through keys only. -/
theorem exists_keys_of_mem_extractPatches {v : JsonValue} {path : JsonPath} {p : JsonPatch}
    (hp : p ∈ extractPatches config v path) :
    ∃ ks : List String, p.path.segments = path.segments ++ ks.map .key := by
  induction v using Doc.induction generalizing path with
  | scalar s => simp [extractPatches] at hp
  | array xs =>
    rw [extractPatches_array] at hp
    obtain ⟨c, -, rfl⟩ := List.mem_map.mp hp
    exact ⟨[], by simp⟩
  | object m ih =>
    obtain ⟨k, v, q, hkv, hq, hp⟩ := (mem_extractFieldPatches config).mp hp
    have hseg := JsonPath.segments_of_appendKey hq
    rcases hp with rfl | hp
    · exact ⟨[k], hseg⟩
    · obtain ⟨ks, hks⟩ := ih k v hkv hp
      exact ⟨k :: ks, by rw [hks, hseg, List.append_assoc]; rfl⟩

theorem priority_le_hoistedPriority {own : Priority} {ps : List JsonPatch} {a : JsonPatch}
    (ha : a ∈ ps) (happ : isAppend a = true) : a.priority ≤ hoistedPriority own ps := by
  have hmem : a.priority ∈ (ps.filter isAppend).map JsonPatch.priority :=
    List.mem_map_of_mem (List.mem_filter.mpr ⟨ha, happ⟩)
  unfold hoistedPriority
  split
  · rename_i hnone
    rw [List.max?_eq_none_iff.mp hnone] at hmem
    cases hmem
  · rename_i ceiling hceil
    exact le_max_of_le_right ((List.max?_eq_some_iff.mp hceil).2 _ hmem)

/-- No patch outranks another that it would overwrite: whatever addresses an append's array or
an ancestor of it has at least the append's priority. -/
theorem priority_le_of_prefix {v : JsonValue} (hv : v.Keyed (· ≠ ·)) {path : JsonPath}
    {a b : JsonPatch} (ha : a ∈ extractPatches config v path)
    (hb : b ∈ extractPatches config v path) (happ : isAppend a = true)
    (hpre : b.path.segments <+: a.path.segments) : a.priority ≤ b.priority := by
  induction v using Doc.induction generalizing path with
  | scalar s => simp [extractPatches] at ha
  | array xs =>
    rw [extractPatches_array] at ha hb
    obtain ⟨c, -, rfl⟩ := List.mem_map.mp ha
    obtain ⟨d, -, rfl⟩ := List.mem_map.mp hb
    exact le_rfl
  | object m ih =>
    obtain ⟨hn, hfields⟩ := Doc.keyed_object_iff.mp hv
    obtain ⟨k, x, p, hkx, hp, ha⟩ := (mem_extractFieldPatches config).mp ha
    obtain ⟨j, y, q, hjy, hq, hb⟩ := (mem_extractFieldPatches config).mp hb
    have ha : a ∈ extractPatches config x p := by
      rcases ha with rfl | ha
      · cases happ
      · exact ha
    -- both patches lie below one field, because the keys of the object differ
    have hsame : k = j := by
      obtain ⟨ks, hks⟩ := exists_keys_of_mem_extractPatches config ha
      have hqb : q.segments <+: b.path.segments := by
        rcases hb with rfl | hb
        · exact List.prefix_rfl
        · obtain ⟨js, hjs⟩ := exists_keys_of_mem_extractPatches config hb
          exact ⟨_, hjs.symm⟩
      have hqa := hqb.trans hpre
      rw [hks, JsonPath.segments_of_appendKey hp, JsonPath.segments_of_appendKey hq,
        List.append_assoc, List.prefix_append_right_inj, List.singleton_append,
        List.cons_prefix_cons] at hqa
      exact (Doc.Step.key.inj hqa.1).symm
    subst hsame
    have hpq : p = q := Except.ok.inj (hp.symm.trans hq)
    have hxy : x = y := Option.some.inj
      ((Assoc.lookup_of_mem hn hkx).symm.trans (Assoc.lookup_of_mem hn hjy))
    subst hpq hxy
    rcases hb with rfl | hb
    · exact priority_le_hoistedPriority ha happ
    · exact ih k x hkx (hfields k x hkx) ha hb

/-- The patches of a document in the order of the plan. -/
def plannedPatches (v : JsonValue) : List JsonPatch :=
  Lists.sortDesc JsonPatch.priority (extractPatches config v .root)

theorem exists_keys_of_mem_plannedPatches {v : JsonValue} {p : JsonPatch}
    (hp : p ∈ plannedPatches config v) : ∃ ks : List String, p.path.segments = ks.map .key :=
  exists_keys_of_mem_extractPatches config (Lists.mem_sortDesc.mp hp)

theorem isAppend_of_edit? {p : JsonPatch} {e : Doc.Patch String JsonScalar}
    (he : p.edit? = some e) : isAppend p = true ↔ ∃ c, e.edit = .append c := by
  unfold JsonPatch.edit? at he
  unfold isAppend
  split at he
  all_goals cases he
  all_goals rename_i h
  all_goals simp [h]

theorem appended_plannedPatches {v : JsonValue} (hv : v.Ordered) (path : List PathSegment) :
    Doc.appended path ((plannedPatches config v).filterMap JsonPatch.edit?) =
      Doc.appended path ((extractPatches config v .root).filterMap JsonPatch.edit?) := by
  -- the appends at one path share one priority, so the sort keeps their order
  let here (p : JsonPatch) : Bool := isAppend p && p.path.segments == path
  have hsorted : ((extractPatches config v .root).filter here).Pairwise
      fun a b => b.priority ≤ a.priority := by
    refine List.pairwise_of_forall_mem_list fun a ha b hb => ?_
    simp only [List.mem_filter, here, Bool.and_eq_true, beq_iff_eq] at ha hb
    exact priority_le_of_prefix config hv.nodup hb.1 ha.1 hb.2.1 (by rw [ha.2.2, hb.2.2])
  have hhere : ∀ ps : List JsonPatch, Doc.appended path (ps.filterMap JsonPatch.edit?) =
      Doc.appended path ((ps.filter here).filterMap JsonPatch.edit?) := by
    intro ps
    unfold Doc.appended
    rw [List.filterMap_filterMap, List.filterMap_filterMap, List.filterMap_filter]
    refine List.filterMap_congr fun p _ => ?_
    cases he : p.edit? with
    | none => simp
    | some e =>
      by_cases hp : here p = true
      · rw [if_pos hp]
      · rw [if_neg hp]
        simp only [here, Bool.and_eq_true, beq_iff_eq, not_and, isAppend_of_edit? he,
          ← JsonPatch.path_of_edit? he] at hp
        obtain ⟨q, _ | c⟩ := e
        · rfl
        · simpa using hp ⟨c, rfl⟩
  rw [hhere, hhere (extractPatches config v .root), plannedPatches, Lists.filter_sortDesc hsorted]

/-- The patches of a plan are an arrival order for the parts of the document. -/
theorem schedule_plannedPatches {v : JsonValue} (hv : v.Ordered) :
    Doc.Schedule ValidKey (chunk config) v
      ((plannedPatches config v).filterMap JsonPatch.edit?) := by
  refine ⟨fun e he => ?_, fun path => ?_, ?_⟩
  · obtain ⟨p, hp, hpe⟩ := List.mem_filterMap.mp he
    right
    rw [← filterMap_edit?_extractPatches_root config hv]
    exact List.mem_filterMap.mpr ⟨p, Lists.mem_sortDesc.mp hp, hpe⟩
  · rw [appended_plannedPatches config hv, filterMap_edit?_extractPatches_root config hv]
  · rw [List.pairwise_filterMap]
    refine Lists.pairwise_sortDesc_of_pairwise ?_ fun b hb a ha hR => ?_
    · rw [← List.pairwise_filterMap, filterMap_edit?_extractPatches_root config hv]
      exact Doc.parts_no_wipe hv.nodup
    · push Not at hR
      obtain ⟨ea, hea, eb, heb, happ, -, hpre⟩ := hR
      rw [JsonPatch.path_of_edit? hea, JsonPatch.path_of_edit? heb] at hpre
      exact priority_le_of_prefix config hv.nodup ha hb ((isAppend_of_edit? hea).mpr happ) hpre

end Extraction

section Batches

/-- The frame of one batch. -/
def patchFrame (batch : List JsonPatch × Priority) : PriorityStreamFrame :=
  .patch batch.1 batch.2

/-- What the grouping loop has emitted after the patches `done`: a skeleton frame, then frames
that hold `done` in order up to the batch under construction. -/
def Batching.Emitted (skeleton : PriorityStreamFrame) (done : List JsonPatch) (b : Batching) :
    Prop :=
  ∃ batches : List (List JsonPatch × Priority), b.frames = skeleton :: batches.map patchFrame ∧
    (batches.map Prod.fst).flatten ++ b.currentBatch = done

namespace Batching

variable {skeleton : PriorityStreamFrame} {done : List JsonPatch} {b : Batching}

theorem Emitted.flush (h : b.Emitted skeleton done) : b.flush.Emitted skeleton done := by
  obtain ⟨batches, hf, hd⟩ := h
  refine ⟨batches ++ [(b.currentBatch, b.currentPriority)], ?_, ?_⟩
  · simp [Batching.flush, hf, patchFrame]
  · simpa [Batching.flush] using hd

theorem Emitted.push (h : b.Emitted skeleton done) (p : JsonPatch) (prio : Priority) :
    Emitted skeleton (done ++ [p]) ⟨b.frames, prio, b.currentBatch ++ [p]⟩ := by
  obtain ⟨batches, hf, hd⟩ := h
  exact ⟨batches, hf, by rw [← hd, List.append_assoc]⟩

theorem Emitted.ite {b' : Batching} (c : Prop) [Decidable c] (h : b.Emitted skeleton done)
    (h' : b'.Emitted skeleton done) : (if c then b else b').Emitted skeleton done := by
  split_ifs
  · exact h
  · exact h'

theorem Emitted.step (h : b.Emitted skeleton done) (p : JsonPatch) :
    (b.step config p).Emitted skeleton (done ++ [p]) := by
  have hpush := (Emitted.ite (p.priority ≠ b.currentPriority ∧ b.currentBatch ≠ [])
    h.flush h).push p p.priority
  exact Emitted.ite _ hpush.flush hpush

theorem Emitted.foldl (h : b.Emitted skeleton done) (ps : List JsonPatch) :
    (ps.foldl (Batching.step config) b).Emitted skeleton (done ++ ps) := by
  induction ps generalizing b done with
  | nil => simpa using h
  | cons p ps ih =>
    rw [List.foldl_cons, List.append_cons]
    exact ih (h.step config p)

end Batching

/-- A plan is the skeleton, the planned patches in order cut into frames, and the completion. -/
theorem analyze_eq (v : JsonValue) : ∃ batches : List (List JsonPatch × Priority),
    (batches.map Prod.fst).flatten = plannedPatches config v ∧
      analyze config v = .ok ⟨.skeleton (generateSkeleton v) .critical false ::
        batches.map patchFrame ++ [.complete none]⟩ := by
  have hinit : Batching.Emitted (.skeleton (generateSkeleton v) .critical false) []
      ⟨[.skeleton (generateSkeleton v) .critical false], .critical, []⟩ := ⟨[], rfl, rfl⟩
  have hloop := Batching.Emitted.foldl config hinit (plannedPatches config v)
  rw [List.nil_append] at hloop
  unfold analyze
  simp only
  rw [← plannedPatches]
  split_ifs with hempty
  · obtain ⟨batches, hf, hd⟩ := hloop.flush
    refine ⟨batches, by simpa [Batching.flush] using hd, ?_⟩
    rw [hf]
  · obtain ⟨batches, hf, hd⟩ := hloop
    rw [not_not.mp hempty, List.append_nil] at hd
    exact ⟨batches, hd, by rw [hf]⟩

end Batches

end PriorityStreamer

end PJS
