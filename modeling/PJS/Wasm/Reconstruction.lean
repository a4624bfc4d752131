import PJS.Wasm.FrameGeneration
import PJS.Domain.StreamPatches

/-! What the frames of the WebAssembly bindings add up to. Every patch puts a value that the
document has at its path, and every root field that a path can address is put whole; so these
fields come out right in whatever order the patches arrive, and the rest stays as in the skeleton. -/
namespace PJS

/-- A value as a transport that counts array elements in a `usize` can hold it. -/
structure IndexedDocument extends DataDocument where
  sized : value.Sized (2 ^ 64)

namespace Wasm

section Fields
variable (assigner : PriorityAssigner) (maxDepth : ℕ)

open PriorityAssigner

theorem mem_extractEntries {m : List (String × JsonData)} {path : JsonPath} {depth : ℕ}
    {f : PrioritizedField} :
    f ∈ extractEntries assigner maxDepth m path depth ↔
      ∃ key value fieldPath, (key, value) ∈ m ∧ path.appendKey key = .ok fieldPath ∧
        (f = ⟨fieldPath, assigner.calculateFieldPriority fieldPath value, value⟩ ∨
          f ∈ extractFieldsRecursive assigner maxDepth value fieldPath (depth + 1)) := by
  induction m with
  | nil => simp [extractEntries]
  | cons e m ih =>
    obtain ⟨k, v⟩ := e
    rw [extractEntries, List.mem_append, ih]
    constructor
    · rintro (hf | ⟨key, value, fieldPath, hmem, hrest⟩)
      · cases hp : path.appendKey k with
        | error e => simp [hp] at hf
        | ok fieldPath =>
          simp only [hp, List.mem_cons] at hf
          exact ⟨k, v, fieldPath, by simp, hp, hf⟩
      · exact ⟨key, value, fieldPath, by simp [hmem], hrest⟩
    · rintro ⟨key, value, fieldPath, hmem, hp, hf⟩
      rcases List.mem_cons.mp hmem with heq | hmem
      · cases heq
        left
        simpa only [hp, List.mem_cons] using hf
      · exact Or.inr ⟨key, value, fieldPath, hmem, hp, hf⟩

theorem mem_extractItems {xs : List JsonData} {path : JsonPath} {index depth : ℕ}
    {f : PrioritizedField} :
    f ∈ extractItems assigner maxDepth xs path index depth ↔
      ∃ i x, xs[i]? = some x ∧ f ∈ extractFieldsRecursive assigner maxDepth x
        (path.appendIndex (UInt64.ofNat (index + i))) (depth + 1) := by
  induction xs generalizing index with
  | nil => simp [extractItems]
  | cons x xs ih =>
    rw [extractItems, List.mem_append, ih]
    constructor
    · rintro (hf | ⟨i, y, hi, hf⟩)
      · exact ⟨0, x, rfl, hf⟩
      · exact ⟨i + 1, y, by simpa using hi, by rwa [Nat.add_right_comm] at hf⟩
    · rintro ⟨i, y, hi, hf⟩
      cases i with
      | zero =>
        cases hi
        exact Or.inl hf
      | succ i =>
        refine Or.inr ⟨i, y, by simpa using hi, ?_⟩
        rwa [Nat.add_right_comm]

/-- The extracted fields are the fields above the depth limit, at their paths and priorities. -/
theorem mem_extractFields_iff {d : JsonData} (hs : d.Sized (2 ^ 64)) {path : JsonPath} {depth : ℕ}
    {f : PrioritizedField} :
    f ∈ extractFieldsRecursive assigner maxDepth d path depth ↔
      f.priority = assigner.calculateFieldPriority f.path f.value ∧
        ∃ q, f.path.segments = path.segments ++ q ∧
          Doc.FieldAt ValidKey (maxDepth - depth) d q f.value := by
  induction d using Doc.induction generalizing path depth with
  | scalar s =>
    rw [extractFieldsRecursive]
    refine iff_of_false (by simp) ?_
    rintro ⟨_, _, _, h⟩
    exact Doc.not_fieldAt_scalar h
  | array xs ih =>
    cases hs with
    | array hlen hs =>
    have hindex : ∀ {i x}, xs[i]? = some x → (UInt64.ofNat i).toNat = i := fun hi =>
      UInt64.toNat_ofNat_of_lt ((List.getElem?_eq_some_iff.mp hi).1.trans_le hlen)
    rw [extractFieldsRecursive]
    split_ifs with hdepth
    · rw [Nat.sub_eq_zero_of_le hdepth]
      refine iff_of_false (by simp) ?_
      rintro ⟨_, _, _, h⟩
      exact Doc.not_fieldAt_zero h
    · obtain ⟨n, hn⟩ : ∃ n, maxDepth - depth = n + 1 := ⟨maxDepth - depth - 1, by omega⟩
      have hn' : maxDepth - (depth + 1) = n := by omega
      rw [mem_extractItems, hn]
      constructor
      · rintro ⟨i, x, hi, hf⟩
        rw [ih x (List.mem_of_getElem? hi) (hs x (List.mem_of_getElem? hi)), hn'] at hf
        obtain ⟨hpri, q, hseg, hq⟩ := hf
        refine ⟨hpri, .index i :: q, ?_, .array hi hq⟩
        rw [hseg, Nat.zero_add]
        simp [JsonPath.appendIndex, hindex hi]
      · rintro ⟨hpri, q, hseg, hq⟩
        cases hq with
        | @array _ _ i x _ q hi hq =>
        refine ⟨i, x, hi, ?_⟩
        rw [ih x (List.mem_of_getElem? hi) (hs x (List.mem_of_getElem? hi)), hn']
        refine ⟨hpri, q, ?_, hq⟩
        rw [hseg, Nat.zero_add]
        simp [JsonPath.appendIndex, hindex hi]
  | object m ih =>
    cases hs with
    | object hs =>
    rw [extractFieldsRecursive]
    split_ifs with hdepth
    · rw [Nat.sub_eq_zero_of_le hdepth]
      refine iff_of_false (by simp) ?_
      rintro ⟨_, _, _, h⟩
      exact Doc.not_fieldAt_zero h
    · obtain ⟨n, hn⟩ : ∃ n, maxDepth - depth = n + 1 := ⟨maxDepth - depth - 1, by omega⟩
      have hn' : maxDepth - (depth + 1) = n := by omega
      rw [mem_extractEntries, hn]
      constructor
      · rintro ⟨k, v, fieldPath, hkv, hp, hf⟩
        have hk : ValidKey k := JsonPath.exists_appendKey_eq_ok_iff.mp ⟨_, hp⟩
        have hseg := JsonPath.segments_of_appendKey hp
        rcases hf with rfl | hf
        · exact ⟨rfl, [.key k], hseg, .field hkv hk⟩
        · rw [ih k v hkv (hs k v hkv), hn'] at hf
          obtain ⟨hpri, q, hq, hfield⟩ := hf
          refine ⟨hpri, .key k :: q, ?_, .object hkv hk hfield⟩
          rw [hq, hseg, List.append_assoc]
          rfl
      · rintro ⟨hpri, q, hseg, hq⟩
        cases hq with
        | @field _ _ k v hkv hk =>
          obtain ⟨fieldPath, hp, hfieldPath⟩ := path.appendKey_of_valid hk
          refine ⟨k, _, fieldPath, hkv, hp, Or.inl ?_⟩
          have hpath : f.path = fieldPath := JsonPath.ext (hseg.trans hfieldPath.symm)
          rw [← hpath, ← hpri]
        | @object _ _ k v _ q hkv hk hq =>
          obtain ⟨fieldPath, hp, hfieldPath⟩ := path.appendKey_of_valid hk
          refine ⟨k, v, fieldPath, hkv, hp, Or.inr ?_⟩
          rw [ih k v hkv (hs k v hkv), hn']
          refine ⟨hpri, q, ?_, hq⟩
          rw [hseg, hfieldPath, List.append_assoc]
          rfl

end Fields

section Skeleton

/-- What the skeleton of an object has for a field at `depth`. -/
def skeletonField (maxDepth : ℕ) (v : JsonData) (depth : ℕ) : JsonData :=
  match v with
  | .object _ => buildSkeleton maxDepth v depth
  | .array _ => .array []
  | .scalar s => .scalar (Stream.placeholder s)

theorem buildSkeletonEntries_eq_map (maxDepth : ℕ) {m : List (String × JsonData)}
    (hn : (m.map Prod.fst).Nodup) (depth : ℕ) :
    buildSkeletonEntries maxDepth [] m depth =
      m.map fun e => (e.1, skeletonField maxDepth e.2 (depth + 1)) := by
  have hfold : ∀ acc, buildSkeletonEntries maxDepth acc m depth =
      (m.map fun e => (e.1, skeletonField maxDepth e.2 (depth + 1))).foldl
        (fun a e => Assoc.insert e.1 e.2 a) acc := by
    clear hn
    induction m with
    | nil => exact fun acc => rfl
    | cons e m ih =>
      intro acc
      obtain ⟨k, v⟩ := e
      rw [List.map_cons, List.foldl_cons, ← ih]
      rcases v with (_ | _ | _ | _ | _) | _ | _ <;> rfl
  rw [hfold, Assoc.foldl_insert_eq (by simpa [Function.comp_def] using hn), List.nil_append]

/-- Blank, with objects nested at most `n` deep. -/
inductive BlankTo : ℕ → JsonData → Prop
  | scalar {n : ℕ} {s : DataScalar} (h : Stream.IsZero s) : BlankTo n (.scalar s)
  | array {n : ℕ} : BlankTo n (.array [])
  | object {n : ℕ} {m : List (String × JsonData)} (h : ∀ k v, (k, v) ∈ m → BlankTo n v) :
    BlankTo (n + 1) (.object m)

theorem blankTo_scalar_iff {n : ℕ} {s : DataScalar} :
    BlankTo n (.scalar s) ↔ Stream.IsZero s :=
  ⟨fun h => by cases h; assumption, .scalar⟩

theorem blankTo_array_iff {n : ℕ} {xs : List JsonData} : BlankTo n (.array xs) ↔ xs = [] := by
  constructor
  · intro h
    cases h
    rfl
  · rintro rfl
    exact .array

theorem not_blankTo_zero {m : List (String × JsonData)} : ¬ BlankTo 0 (.object m) := by
  intro h
  cases h

theorem blankTo_succ_iff {n : ℕ} {m : List (String × JsonData)} :
    BlankTo (n + 1) (.object m) ↔ ∀ k v, (k, v) ∈ m → BlankTo n v :=
  ⟨fun h => by cases h; assumption, .object⟩

/-- The values that survive in the skeleton are the blank ones above the depth limit. -/
theorem skeletonField_eq_self_iff {maxDepth : ℕ} {v : JsonData} (hv : v.Distinct) (depth : ℕ) :
    skeletonField maxDepth v depth = v ↔ BlankTo (maxDepth - depth) v := by
  induction v using Doc.induction generalizing depth with
  | scalar s =>
    rw [skeletonField, Doc.scalar.injEq, Stream.placeholder_eq_self_iff, blankTo_scalar_iff]
  | array xs =>
    rw [skeletonField, Doc.array.injEq, blankTo_array_iff]
    exact eq_comm
  | object m ih =>
    obtain ⟨hn, hfields⟩ := Doc.keyed_object_iff.mp hv
    rw [skeletonField, buildSkeleton]
    split_ifs with hdepth
    · rw [show maxDepth - depth = 0 by omega]
      exact iff_of_false (by simp) not_blankTo_zero
    · rw [show maxDepth - depth = maxDepth - (depth + 1) + 1 by omega, blankTo_succ_iff,
        Doc.object.injEq, buildSkeletonEntries_eq_map maxDepth hn, Lists.map_eq_self_iff]
      constructor
      · intro h k v hkv
        refine (ih k v hkv (hfields k v hkv) (depth + 1)).mp ?_
        exact congrArg Prod.snd (h (k, v) hkv)
      · intro h e he
        rw [(ih e.1 e.2 he (hfields e.1 e.2 he) (depth + 1)).mpr (h e.1 e.2 he)]

end Skeleton

section Rebuild
variable {env : GenerationEnv} {assigner : PriorityAssigner} {streamId : StreamId}

theorem mem_puts_of_levels {fields : List PrioritizedField} {priorities : List Priority}
    {frames : List Frame} (h : Levels fields streamId priorities frames)
    {p : List PathSegment × JsonData} : p ∈ Frame.puts frames ↔
      ∃ f ∈ fields, f.priority ∈ priorities ∧ p = (f.path.segments, f.value) := by
  have hpatches : ∀ patch, patch ∈ frames.flatMap Frame.patches ↔
      ∃ f ∈ fields, f.priority ∈ priorities ∧ FramePatch.set f.path f.value = patch := by
    intro patch
    rw [← exists_mem_patches_iff h (P := fun _ p => p = patch), List.mem_flatMap]
    simp
  simp only [Frame.puts, List.mem_map, List.mem_filter, hpatches, decide_eq_true_eq]
  constructor
  · rintro ⟨patch, ⟨⟨f, hf, hp, rfl⟩, -⟩, rfl⟩
    exact ⟨f, hf, hp, rfl⟩
  · rintro ⟨f, hf, hp, rfl⟩
    exact ⟨FramePatch.set f.path f.value, ⟨⟨f, hf, hp, rfl⟩, rfl⟩, rfl⟩

/-- At the lowest threshold the frames put every extracted field on the skeleton. -/
theorem rebuild_generateFrames (env : GenerationEnv) (assigner : PriorityAssigner)
    (data : JsonData) (streamId : StreamId) (maxDepth : ℕ) :
    ∃ frames ps, generateFrames env assigner data streamId .minimum maxDepth = .ok frames ∧
      Frame.rebuild frames = some (Doc.putAll (buildSkeleton maxDepth data 0) ps) ∧
      ∀ p, p ∈ ps ↔ ∃ f ∈ assigner.extractPrioritizedFieldsWithLimit maxDepth data,
        p = (f.path.segments, f.value) := by
  obtain ⟨frames, sequence, priorities, hrun, hlevels, hpriorities⟩ :=
    generateFrames_eq_ok env assigner data streamId .minimum maxDepth
  refine ⟨_, Frame.puts (frames ++ [Frame.complete streamId sequence none (env.utc sequence)]),
    hrun, rfl, fun p => ?_⟩
  have hcomplete : Frame.puts (frames ++ [Frame.complete streamId sequence none
      (env.utc sequence)]) = Frame.puts frames := by
    simp [Frame.puts, Frame.patches, Frame.complete]
  rw [hcomplete, mem_puts_of_levels hlevels]
  constructor
  · rintro ⟨f, hf, -, rfl⟩
    exact ⟨f, hf, rfl⟩
  · rintro ⟨f, hf, rfl⟩
    exact ⟨f, hf, (hpriorities _).mpr ⟨Priority.minimum_le _, f, hf, rfl⟩, rfl⟩

/-- An object comes out with its addressable root fields, and the others as in the skeleton. -/
theorem rebuild_object (d : IndexedDocument) {m : List (String × JsonData)}
    (hm : d.value = .object m) (env : GenerationEnv) (assigner : PriorityAssigner)
    (streamId : StreamId) {maxDepth : ℕ} (hdepth : 1 ≤ maxDepth) :
    ∃ frames, generateFrames env assigner d.value streamId .minimum maxDepth = .ok frames ∧
      Frame.rebuild frames = some (.object (m.map fun e =>
        (e.1, if ValidKey e.1 then e.2 else skeletonField maxDepth e.2 1))) := by
  obtain ⟨frames, ps, hrun, hrebuild, hps⟩ :=
    rebuild_generateFrames env assigner d.value streamId maxDepth
  refine ⟨frames, hrun, ?_⟩
  have hdistinct := d.distinct
  have hsized := d.sized
  rw [hm] at hdistinct hsized hrebuild hps
  obtain ⟨hn, -⟩ := Doc.keyed_object_iff.mp hdistinct
  have hroom : ¬ 0 ≥ maxDepth := by omega
  have hfields : assigner.extractPrioritizedFieldsWithLimit maxDepth (.object m) =
      assigner.extractEntries maxDepth m .root 0 := by
    rw [PriorityAssigner.extractPrioritizedFieldsWithLimit, PriorityAssigner.extractFieldsRecursive,
      if_neg hroom]
  have hskeleton : buildSkeleton maxDepth (.object m) 0 =
      .object (m.map fun e => (e.1, skeletonField maxDepth e.2 1)) := by
    rw [buildSkeleton, if_neg hroom, buildSkeletonEntries_eq_map maxDepth hn]
  have hkeys : (m.map fun e => (e.1, skeletonField maxDepth e.2 1)).map Prod.fst =
      m.map Prod.fst := by
    simp [Function.comp_def]
  -- every put value belongs to a field under a valid key
  have hmem : ∀ p ∈ ps, ∃ k q v, p.1 = .key k :: q ∧ ValidKey k ∧ m.lookup k = some v ∧
      Doc.get? q v = some p.2 := by
    intro p hp
    obtain ⟨f, hf, rfl⟩ := (hps p).mp hp
    obtain ⟨-, q, hseg, hfield⟩ := (mem_extractFields_iff assigner maxDepth hsized).mp hf
    have hseg : f.path.segments = q := hseg
    have hget := hfield.get?_eq hdistinct
    match q, hfield.ne_nil with
    | .index i :: q, _ => cases hget
    | .key k :: q, _ =>
      obtain ⟨v, hv, hget⟩ := Option.bind_eq_some_iff.mp hget
      exact ⟨k, q, v, hseg, f.path.valid (.key k) (by simp [hseg]), hv, hget⟩
  have hput := @Doc.putAll_object _ _ _ _ _ hkeys hn ValidKey _ ps
    (fun p hp => by
      obtain ⟨k, q, v, hpath, -, hk, hget⟩ := hmem p hp
      exact ⟨k, q, v, hpath, hk, hget⟩)
    (fun k hk hvalid => by
      obtain ⟨v, hv⟩ := Assoc.exists_lookup hk
      obtain ⟨path, hpath, hseg⟩ := JsonPath.root.appendKey_of_valid hvalid
      refine ⟨(path.segments, v), (hps _).mpr ?_, hseg⟩
      rw [hfields]
      exact ⟨_, (mem_extractEntries assigner maxDepth).mpr
        ⟨k, v, path, Assoc.mem_of_lookup hv, hpath, Or.inl rfl⟩, rfl⟩)
    (fun p hp k hk => by
      obtain ⟨j, q, -, hpath, hvalid, -⟩ := hmem p hp
      rw [hpath, List.head?_cons, Option.some.injEq, Doc.Step.key.injEq] at hk
      rwa [← hk])
  rw [hrebuild, hskeleton, hput]
  congr 2
  refine List.map_congr_left fun e he => ?_
  rw [Assoc.lookup_map fun _ v => skeletonField maxDepth v 1, Assoc.lookup_of_mem hn he]
  rfl

/-- Objects whose root keys paths can address are rebuilt. -/
theorem generateFrames_rebuild (d : IndexedDocument) {m : List (String × JsonData)}
    (hm : d.value = .object m)
    (hkeys : ∀ k ∈ m.map Prod.fst, ∃ path, JsonPath.root.appendKey k = .ok path)
    (env : GenerationEnv) (assigner : PriorityAssigner) (streamId : StreamId) {maxDepth : ℕ}
    (hdepth : 1 ≤ maxDepth) :
    ∃ frames, generateFrames env assigner d.value streamId .minimum maxDepth = .ok frames ∧
      Frame.rebuild frames = some d.value := by
  obtain ⟨frames, hrun, hrebuild⟩ := rebuild_object d hm env assigner streamId hdepth
  refine ⟨frames, hrun, ?_⟩
  have hmap : (m.map fun e =>
      (e.1, if ValidKey e.1 then e.2 else skeletonField maxDepth e.2 1)) = m := by
    refine Lists.map_eq_self_iff.mpr fun e he => ?_
    have hvalid : ValidKey e.1 :=
      JsonPath.exists_appendKey_eq_ok_iff.mp (hkeys e.1 (List.mem_map_of_mem he))
    rw [if_pos hvalid]
  rw [hrebuild, hmap, hm]

/-- A clock that stands still, and a map that lists its keys in its own order. -/
def GenerationEnv.still (t : DateTime) : GenerationEnv := ⟨fun _ => t, id, fun _ => .refl _⟩

def userDocument : IndexedDocument where
  toDataDocument := Stream.userDocument
  sized := by
    refine .object fun k v h => ?_
    simp only [List.mem_cons, Prod.mk.injEq, List.not_mem_nil, or_false] at h
    obtain ⟨-, rfl⟩ | ⟨-, rfl⟩ | ⟨-, rfl⟩ := h
    · exact .scalar _
    · exact .array (by decide) (by simpa using .scalar _)
    · exact .object (by simpa using .scalar _)

theorem generateFrames_rebuild_user :
    ∃ frames, generateFrames (.still .epoch) (.withConfig .default) userDocument.value ⟨1⟩ .minimum
        64 = .ok frames ∧ Frame.rebuild frames = some userDocument.value :=
  generateFrames_rebuild userDocument rfl (by
    simp only [JsonPath.exists_appendKey_eq_ok_iff]
    decide) _ _ _ (by decide)

/-- Nothing can be put into the empty array that stands for an array root. -/
theorem rebuild_array (d : IndexedDocument) {xs : List JsonData} (hx : d.value = .array xs)
    (env : GenerationEnv) (assigner : PriorityAssigner) (streamId : StreamId) {maxDepth : ℕ}
    (hdepth : 1 ≤ maxDepth) :
    ∃ frames, generateFrames env assigner d.value streamId .minimum maxDepth = .ok frames ∧
      Frame.rebuild frames = some (.array []) := by
  obtain ⟨frames, ps, hrun, hrebuild, hps⟩ :=
    rebuild_generateFrames env assigner d.value streamId maxDepth
  refine ⟨frames, hrun, ?_⟩
  have hdistinct := d.distinct
  have hsized := d.sized
  rw [hx] at hdistinct hsized hrebuild hps
  have hroom : ¬ 0 ≥ maxDepth := by omega
  have hstart : buildSkeleton maxDepth (.array xs) 0 = .array [] := by
    rw [buildSkeleton, if_neg hroom]
  have hskip : ∀ p ∈ ps, Doc.put p.2 p.1 (.array []) = none := by
    intro p hp
    obtain ⟨f, hf, rfl⟩ := (hps p).mp hp
    obtain ⟨-, q, hseg, hfield⟩ := (mem_extractFields_iff assigner maxDepth hsized).mp hf
    have hseg : f.path.segments = q := hseg
    have hget := hfield.get?_eq hdistinct
    match q, hfield.ne_nil with
    | .key k :: q, _ => cases hget
    | .index i :: q, _ =>
      rw [hseg]
      rfl
  have hstay : ∀ qs : List (List PathSegment × JsonData), (∀ p ∈ qs, p ∈ ps) →
      Doc.putAll (.array []) qs = .array [] := by
    intro qs
    induction qs with
    | nil => exact fun _ => rfl
    | cons p qs ih =>
      intro hsub
      rw [Doc.putAll, List.foldl_cons, hskip p (hsub p (by simp)), Option.getD_none]
      exact ih fun q hq => hsub q (by simp [hq])
  rw [hrebuild, hstart, hstay ps fun _ hp => hp]

theorem rebuild_scalar (s : DataScalar) (env : GenerationEnv) (assigner : PriorityAssigner)
    (streamId : StreamId) (maxDepth : ℕ) :
    ∃ frames, generateFrames env assigner (.scalar s) streamId .minimum maxDepth = .ok frames ∧
      Frame.rebuild frames = some .null := by
  obtain ⟨frames, ps, hrun, hrebuild, hps⟩ :=
    rebuild_generateFrames env assigner (.scalar s) streamId maxDepth
  refine ⟨frames, hrun, ?_⟩
  have hnone : ps = [] := by
    rw [List.eq_nil_iff_forall_not_mem]
    intro p hp
    obtain ⟨f, hf, -⟩ := (hps p).mp hp
    simp [PriorityAssigner.extractPrioritizedFieldsWithLimit,
      PriorityAssigner.extractFieldsRecursive] at hf
  rw [hrebuild, hnone, buildSkeleton]
  rfl

/-- What the frames keep of a document without a patch for all of it: the skeleton has to have
every value that no patch carries. -/
def Kept (maxDepth : ℕ) : JsonData → Prop
  | .scalar s => s = .null
  | .array xs => xs = []
  | .object m => ∀ k v, (k, v) ∈ m → (∃ e, JsonPath.root.appendKey k = .error e) →
    BlankTo (maxDepth - 1) v

/-- The frames add up to the document exactly if the skeleton has what no patch carries. -/
theorem generateFrames_rebuild_iff (d : IndexedDocument) (env : GenerationEnv)
    (assigner : PriorityAssigner) (streamId : StreamId) {maxDepth : ℕ} (hdepth : 1 ≤ maxDepth) :
    (∃ frames, generateFrames env assigner d.value streamId .minimum maxDepth = .ok frames ∧
      Frame.rebuild frames = some d.value) ↔ Kept maxDepth d.value := by
  have hiff : ∀ {r : JsonData}, (∃ frames,
      generateFrames env assigner d.value streamId .minimum maxDepth = .ok frames ∧
        Frame.rebuild frames = some r) →
      ((∃ frames, generateFrames env assigner d.value streamId .minimum maxDepth = .ok frames ∧
        Frame.rebuild frames = some d.value) ↔ r = d.value) := by
    rintro r ⟨frames, hrun, hr⟩
    constructor
    · rintro ⟨frames', hrun', hd⟩
      rw [hrun, Except.ok.injEq] at hrun'
      rw [← hrun', hr, Option.some.injEq] at hd
      exact hd
    · rintro rfl
      exact ⟨frames, hrun, hr⟩
  cases hv : d.value with
  | scalar s =>
    rw [← hv, hiff (hv ▸ rebuild_scalar s env assigner streamId maxDepth), hv, Kept]
    simp [eq_comm]
  | array xs =>
    rw [← hv, hiff (rebuild_array d hv env assigner streamId hdepth), hv, Kept]
    simp [eq_comm]
  | object m =>
    have hdistinct := d.distinct
    rw [hv] at hdistinct
    obtain ⟨-, hfields⟩ := Doc.keyed_object_iff.mp hdistinct
    rw [← hv, hiff (rebuild_object d hv env assigner streamId hdepth), hv, Kept,
      Doc.object.injEq, Lists.map_eq_self_iff]
    simp only [JsonPath.exists_appendKey_eq_error_iff]
    constructor
    · intro h k v hkv hinvalid
      rw [← skeletonField_eq_self_iff (hfields k v hkv)]
      simpa [hinvalid] using congrArg Prod.snd (h (k, v) hkv)
    · intro h e he
      split_ifs with hvalid
      · rfl
      · rw [(skeletonField_eq_self_iff (hfields e.1 e.2 he) 1).mpr (h e.1 e.2 he hvalid)]

/-- The document `[7]`. -/
def arrayDocument : IndexedDocument where
  value := .array [JsonData.integer 7]
  distinct := .array (by simpa using .scalar _)
  sized := .array (by decide) (by simpa using .scalar _)

theorem generateFrames_rebuild_iff_array :
    (∃ frames, generateFrames (.still .epoch) (.withConfig .default) arrayDocument.value ⟨1⟩
        .minimum 64 = .ok frames ∧ Frame.rebuild frames = some arrayDocument.value) ↔
      Kept 64 arrayDocument.value :=
  generateFrames_rebuild_iff arrayDocument _ _ _ (by decide)

/-- No frame has the elements of an array root. -/
theorem generateFrames_loses_array :
    ∃ frames, generateFrames (.still .epoch) (.withConfig .default) arrayDocument.value ⟨1⟩
        .minimum 64 = .ok frames ∧ Frame.rebuild frames ≠ some arrayDocument.value := by
  obtain ⟨frames, hrun, hrebuild⟩ := rebuild_array arrayDocument rfl (.still .epoch)
    (.withConfig .default) ⟨1⟩ (show 1 ≤ 64 by decide)
  refine ⟨frames, hrun, ?_⟩
  rw [hrebuild]
  decide

end Rebuild

end Wasm

end PJS
