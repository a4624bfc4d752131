import PJS.Stream.Extraction

/-! Replaying a plan. The reconstructor performs the edits of the patches, so a plan rebuilds
every part of the document that a path can address from the root. What the root skeleton alone
carries is rebuilt only where the placeholder is the value. -/
namespace PJS

namespace JsonReconstructor

section Edits

/-- A walk that edits a document does the same under the reconstructor's path rules. -/
theorem getMutAtPath_of_modify? {p q : List PathSegment} {f : JsonValue → Option JsonValue}
    {update : JsonValue → Except Error JsonValue} {s s' : JsonValue}
    (h : Doc.modify? (p ++ q) f s = some s')
    (hu : ∀ x x', Doc.modify? q f x = some x' → update x = .ok x') :
    getMutAtPath p update s = .ok s' := by
  induction p generalizing s s' with
  | nil => exact hu s s' h
  | cons seg p ih =>
    match seg, s, h with
    | .key k, .object m, h =>
      simp only [List.cons_append, Doc.modify?, Option.bind_eq_bind, Option.bind_eq_some_iff] at h
      obtain ⟨c, hc, c', hc', he⟩ := h
      cases he
      simp only [getMutAtPath, hc, ih hc']
      rfl
    | .index i, .array xs, h =>
      simp only [List.cons_append, Doc.modify?, Option.bind_eq_bind, Option.bind_eq_some_iff] at h
      obtain ⟨c, hc, c', hc', he⟩ := h
      cases he
      simp only [getMutAtPath, hc, ih hc']
      rfl

theorem setAtPath_of_modify? {path : JsonPath} {ks : List String} {v s s' : JsonValue}
    (hks : path.segments = ks.map .key)
    (h : Doc.modify? path.segments (fun _ => some v) s = some s') :
    setAtPath path v s = .ok s' := by
  rcases List.eq_nil_or_concat ks with rfl | ⟨ks, k, rfl⟩
  · rw [hks] at h
    cases h
    simp [setAtPath, hks]
    rfl
  · have hseg : path.segments = ks.map .key ++ [.key k] := by rw [hks]; simp
    have hlast : path.lastKey = some k := by simp [JsonPath.lastKey, hseg]
    have hdrop : path.segments.dropLast = ks.map .key := by simp [hseg]
    have hne : path.segments.isEmpty = false := by simp [hseg]
    rw [hseg] at h
    simp only [setAtPath, hne, hlast, getParentMut, hdrop, Bool.false_eq_true, if_false]
    refine getMutAtPath_of_modify? h fun x x' hx => ?_
    -- the last step finds an object that has the key
    cases x with
    | scalar s => cases hx
    | array xs => cases hx
    | object m =>
      simp only [Doc.modify?, Option.bind_eq_bind, Option.bind_eq_some_iff] at hx
      obtain ⟨c, hc, c', hc', he⟩ := hx
      cases he
      cases hc'
      have hmem : k ∈ m.map Prod.fst := List.mem_map_of_mem (f := Prod.fst) (Assoc.mem_of_lookup hc)
      simp only [JsonMap.insert, Assoc.insertSorted, if_pos hmem]
      rfl

theorem appendAtPath_of_modify? {path : JsonPath} {vs : List JsonValue} {s s' : JsonValue}
    (h : Doc.modify? path.segments (Doc.Edit.append vs).run s = some s') :
    appendAtPath path vs s = .ok s' := by
  rw [← List.append_nil path.segments] at h
  refine getMutAtPath_of_modify? h fun x x' hx => ?_
  cases x with
  | scalar s => cases hx
  | array xs =>
    cases hx
    rfl
  | object m => cases hx

/-- The reconstructor performs the edit of a patch wherever the edit is possible. -/
theorem applyPatch_of_run {p : JsonPatch} {e : Doc.Patch String JsonScalar} {ks : List String}
    {s s' : JsonValue} (he : p.edit? = some e) (hks : p.path.segments = ks.map .key)
    (h : e.run s = some s') : applyPatch p s = .ok s' := by
  obtain ⟨path, operation, priority⟩ := p
  cases operation with
  | set value =>
    cases he
    exact setAtPath_of_modify? hks h
  | append values =>
    cases he
    exact appendAtPath_of_modify? h
  | replace value =>
    cases he
    exact setAtPath_of_modify? hks h
  | remove => cases he

end Edits

section Frames

/-- Patches whose edits are known and whose paths are made of keys. -/
def Addressed (ps : List JsonPatch) : Prop :=
  ∀ p ∈ ps, (∃ e, p.edit? = some e) ∧ ∃ ks : List String, p.path.segments = ks.map .key

theorem applyPatches_of_runAll {ps : List JsonPatch} (hps : Addressed ps)
    (r : JsonReconstructor) {s : JsonValue} (paths : List JsonPath)
    (h : Doc.runAll (ps.filterMap JsonPatch.edit?) r.currentState = some s) :
    ∃ r', applyPatches r paths ps = (.ok (paths ++ ps.map JsonPatch.path), r') ∧
      r'.currentState = s := by
  induction ps generalizing r paths with
  | nil =>
    cases h
    exact ⟨r, by simp [applyPatches], rfl⟩
  | cons p ps ih =>
    obtain ⟨⟨e, he⟩, ks, hks⟩ := hps p (by simp)
    rw [List.filterMap_cons_some he, Doc.runAll_cons, Option.bind_eq_some_iff] at h
    obtain ⟨t, ht, h⟩ := h
    rw [applyPatches, applyPatch_of_run he hks ht]
    obtain ⟨r', hr', hs⟩ := ih (fun q hq => hps q (by simp [hq]))
      { r with
        currentState := t
        stats := { r.stats with patchesApplied := r.stats.patchesApplied + 1 } }
      (paths ++ [p.path]) h
    exact ⟨r', by simpa using hr', hs⟩

/-- A patch frame applies its patches to the current state. -/
theorem processFrame_patch {ps : List JsonPatch} (hps : Addressed ps) (r : JsonReconstructor)
    {s : JsonValue} (priority : Priority)
    (h : Doc.runAll (ps.filterMap JsonPatch.edit?) r.currentState = some s) :
    ∃ result r', r.processFrame (.patch ps priority) = (.ok result, r') ∧ r'.currentState = s := by
  obtain ⟨r', hr', hs⟩ := applyPatches_of_runAll hps
    { r with stats := { r.stats with
        framesProcessed := r.stats.framesProcessed + 1
        patchFrames := r.stats.patchFrames + 1 } } [] h
  refine ⟨.patchesApplied ps.length priority (ps.map JsonPatch.path), r', ?_, hs⟩
  rw [processFrame]
  simp only [hr']
  simp

/-- Patch frames apply their patches in frame order. -/
theorem processQueue_patchFrames {batches : List (List JsonPatch × Priority)}
    (hps : Addressed (batches.map Prod.fst).flatten) (r : JsonReconstructor) {s : JsonValue}
    (results : List ProcessResult) (queue : List PriorityStreamFrame)
    (h : Doc.runAll ((batches.map Prod.fst).flatten.filterMap JsonPatch.edit?) r.currentState =
      some s) :
    ∃ (results' : List ProcessResult) (r' : JsonReconstructor), r'.currentState = s ∧
      r.processQueue results (batches.map PriorityStreamer.patchFrame ++ queue) =
        r'.processQueue results' queue := by
  induction batches generalizing r results with
  | nil =>
    cases h
    exact ⟨results, r, rfl, rfl⟩
  | cons b batches ih =>
    rw [List.map_cons, List.flatten_cons] at hps
    rw [List.map_cons, List.flatten_cons, List.filterMap_append, Doc.runAll_append,
      Option.bind_eq_some_iff] at h
    obtain ⟨t, ht, h⟩ := h
    obtain ⟨result, r', hr', rfl⟩ := processFrame_patch
      (fun p hp => hps p (List.mem_append_left _ hp))
      { r with frameQueue := batches.map PriorityStreamer.patchFrame ++ queue } b.2 ht
    rw [List.map_cons, List.cons_append, processQueue, PriorityStreamer.patchFrame, hr']
    exact ih (fun p hp => hps p (List.mem_append_right _ hp)) r' (results ++ [result]) h

theorem foldl_addFrame (frames : List PriorityStreamFrame) (r : JsonReconstructor) :
    frames.foldl addFrame r = { r with frameQueue := r.frameQueue ++ frames } := by
  induction frames generalizing r with
  | nil => simp
  | cons f frames ih => simp [ih, addFrame]

/-- Replaying a skeleton, patch frames and a completion performs the edits on the skeleton. -/
theorem replay_of_runAll {batches : List (List JsonPatch × Priority)}
    (hps : Addressed (batches.map Prod.fst).flatten) {skeleton s : JsonValue} {priority : Priority}
    (h : Doc.runAll ((batches.map Prod.fst).flatten.filterMap JsonPatch.edit?) skeleton = some s) :
    ∃ results r, replay ⟨.skeleton skeleton priority false ::
        batches.map PriorityStreamer.patchFrame ++ [.complete none]⟩ = (.ok results, r) ∧
      r.currentState = s ∧ r.isComplete = true := by
  obtain ⟨results, r, hs, hq⟩ := processQueue_patchFrames hps
    ⟨skeleton, batches.map PriorityStreamer.patchFrame ++ [.complete none], false, ⟨1, 0, 1, 0⟩⟩
    [ProcessResult.skeletonApplied] [.complete none] h
  have hreplay : replay ⟨.skeleton skeleton priority false ::
      batches.map PriorityStreamer.patchFrame ++ [.complete none]⟩ =
        r.processQueue results [.complete none] := by
    rw [← hq, replay, foldl_addFrame]
    rfl
  rw [hreplay]
  exact ⟨_, _, rfl, hs, rfl⟩

end Frames

end JsonReconstructor

namespace PriorityStreamer
open JsonReconstructor

variable (config : StreamerConfig)

/-- What replaying the plan of a document ends in: a root scalar becomes null, and below a root
key that no path can express the skeleton's placeholder remains. -/
def rebuilt : JsonValue → JsonValue
  | .scalar _ => .null
  | .array arr => .array arr
  | .object map => .object (map.map fun e =>
    (e.1, if ValidKey e.1 then e.2 else e.2.blankOut placeholder))

theorem edit?_isSome_of_mem_extractPatches {v : JsonValue} {path : JsonPath} {p : JsonPatch}
    (hp : p ∈ extractPatches config v path) : ∃ e, p.edit? = some e := by
  induction v using Doc.induction generalizing path with
  | scalar s => simp [extractPatches] at hp
  | array xs =>
    rw [extractPatches_array] at hp
    obtain ⟨c, -, rfl⟩ := List.mem_map.mp hp
    exact ⟨_, rfl⟩
  | object m ih =>
    obtain ⟨k, v, q, hkv, -, hp⟩ := (mem_extractFieldPatches config).mp hp
    rcases hp with rfl | hp
    · exact ⟨_, rfl⟩
    · exact ih k v hkv hp

theorem addressed_plannedPatches (v : JsonValue) : Addressed (plannedPatches config v) :=
  fun _ hp => ⟨edit?_isSome_of_mem_extractPatches config (Lists.mem_sortDesc.mp hp),
    exists_keys_of_mem_plannedPatches config hp⟩

/-- The planned edits turn the skeleton into the rebuilt document. -/
theorem runAll_plannedPatches {v : JsonValue} (hv : v.Ordered) :
    Doc.runAll ((plannedPatches config v).filterMap JsonPatch.edit?) (generateSkeleton v) =
      some (rebuilt v) := by
  have hsched := schedule_plannedPatches config hv
  have hmem : ∀ e, e ∈ (plannedPatches config v).filterMap JsonPatch.edit? ↔
      e ∈ v.parts ValidKey (chunk config) := by
    intro e
    rw [← filterMap_edit?_extractPatches_root config hv]
    simp [plannedPatches]
  cases v with
  | scalar s =>
    have hnil : (plannedPatches config (.scalar s)).filterMap JsonPatch.edit? = [] :=
      List.eq_nil_iff_forall_not_mem.mpr fun e he => by simpa [Doc.parts] using (hmem e).mp he
    rw [hnil]
    rfl
  | array xs =>
    -- the root array is empty in the skeleton and only grows
    have happ : ∀ e ∈ (plannedPatches config (.array xs)).filterMap JsonPatch.edit?,
        ∃ c, e = ⟨[], .append c⟩ := by
      intro e he
      obtain ⟨c, -, rfl⟩ := List.mem_map.mp ((hmem e).mp he)
      exact ⟨c, rfl⟩
    rw [generateSkeleton, Doc.runAll_append_only [] happ, hsched.chunks, Doc.appended_parts_array,
      flatten_chunk]
    rfl
  | object m =>
    obtain ⟨hk, -⟩ := Doc.keyed_object_iff.mp hv
    rw [generateSkeleton_object hv, Doc.blankOut, hsched.runAll_fields (flatten_chunk config)
      hv.nodup (fun e he => (hmem e).mp he) (fun e he => (hmem e).mpr he) (Doc.shape_blankOut _),
      rebuilt]
    congr 2
    refine List.map_congr_left fun e he => ?_
    rw [Doc.lookup_blankFields, Assoc.lookup_of_mem (hk.imp ne_of_lt) he, Option.map_some,
      Option.getD_some]

/-- Every plan replays to the end, and what it rebuilds does not depend on the configuration. -/
theorem replay_analyze (v : JsonDocument) : ∃ plan results r, analyze config v.value = .ok plan ∧
    replay plan = (.ok results, r) ∧ r.currentState = rebuilt v.value ∧ r.isComplete = true := by
  obtain ⟨batches, hb, hplan⟩ := analyze_eq config v.value
  have haddr := addressed_plannedPatches config v.value
  have hrun := runAll_plannedPatches config v.ordered
  rw [← hb] at haddr hrun
  obtain ⟨results, r, hr, hs, hc⟩ := replay_of_runAll haddr hrun
  exact ⟨_, results, r, hplan, hr, hs, hc⟩

/-- An object or array whose root keys paths can express comes back as it was. -/
theorem replay_analyze_eq (v : JsonDocument)
    (hroot : (∃ arr, v.value = .array arr) ∨ ∃ map, v.value = .object map ∧
      ∀ key ∈ map.map Prod.fst, ∃ path, JsonPath.root.appendKey key = .ok path) :
    ∃ plan results r, analyze config v.value = .ok plan ∧ replay plan = (.ok results, r) ∧
      r.currentState = v.value ∧ r.isComplete = true := by
  obtain ⟨plan, results, r, hplan, hr, hs, hc⟩ := replay_analyze config v
  refine ⟨plan, results, r, hplan, hr, ?_, hc⟩
  rw [hs]
  rcases hroot with ⟨arr, harr⟩ | ⟨map, hmap, hkeys⟩
  · rw [harr, rebuilt]
  · rw [hmap, rebuilt, Doc.object.injEq, Lists.map_eq_self_iff]
    intro e he
    have hkey := JsonPath.exists_appendKey_eq_ok_iff.mp (hkeys e.1 (List.mem_map_of_mem he))
    rw [if_pos hkey]

/-- A nested array below a path-breaking key, beside one that is streamed in chunks. -/
def nested : JsonDocument where
  value := .object [("id", JsonValue.number (.posInt 7)),
    ("meta", .object [("a.b", .array [JsonValue.string "x"]),
      ("logs", .array [JsonValue.null, JsonValue.bool true])])]
  ordered := by
    refine .object (by decide) ?_
    simp only [List.mem_cons, Prod.mk.injEq, List.not_mem_nil, or_false]
    rintro k v (⟨rfl, rfl⟩ | ⟨rfl, rfl⟩)
    · exact .scalar _
    · refine .object (by decide) ?_
      simp only [List.mem_cons, Prod.mk.injEq, List.not_mem_nil, or_false]
      rintro k v (⟨rfl, rfl⟩ | ⟨rfl, rfl⟩)
      · exact .array (by simpa using .scalar _)
      · exact .array (by simpa using ⟨.scalar _, .scalar _⟩)

theorem replay_analyze_eq_nested : ∃ plan results r,
    analyze .default nested.value = .ok plan ∧ replay plan = (.ok results, r) ∧
      r.currentState = nested.value ∧ r.isComplete = true :=
  replay_analyze_eq .default nested (Or.inr ⟨_, rfl, by
    intro key hkey
    rw [JsonPath.exists_appendKey_eq_ok_iff]
    revert key
    decide⟩)

/-- A scalar that is its own placeholder: null, false or the integer zero. -/
def IsZero (s : JsonScalar) : Prop :=
  s = .null ∨ s = .bool false ∨ s = .number (.posInt 0)

theorem placeholder_eq_self_iff (s : JsonScalar) : placeholder s = s ↔ IsZero s := by
  rcases s with _ | b | n | s <;> simp [placeholder, IsZero, eq_comm]

/-- Outside that case nothing is lost exactly when the root is null, or is an object with only
blank values under the keys that no path can express. -/
theorem replay_analyze_eq_iff (v : JsonDocument)
    (hroot : (∃ s, v.value = .scalar s) ∨ ∃ map, v.value = .object map ∧
      ∃ key ∈ map.map Prod.fst, ∃ e, JsonPath.root.appendKey key = .error e) :
    (∀ plan, analyze config v.value = .ok plan →
      ∃ results r, replay plan = (.ok results, r) ∧ r.currentState = v.value) ↔
    v.value = .null ∨ ∃ map, v.value = .object map ∧ ∀ key value, (key, value) ∈ map →
      (∃ e, JsonPath.root.appendKey key = .error e) → value.Blank IsZero := by
  obtain ⟨plan, results, r, hplan, hr, hs, -⟩ := replay_analyze config v
  have hrebuilt : (∀ plan, analyze config v.value = .ok plan →
      ∃ results r, replay plan = (.ok results, r) ∧ r.currentState = v.value) ↔
      rebuilt v.value = v.value := by
    rw [← hs]
    constructor
    · intro h
      obtain ⟨results', r', hr', hs'⟩ := h plan hplan
      cases hr.symm.trans hr'
      exact hs'
    · intro h plan' hplan'
      cases hplan.symm.trans hplan'
      exact ⟨results, r, hr, h⟩
  rw [hrebuilt]
  rcases hroot with ⟨s, hv⟩ | ⟨map, hv, -⟩
  · simp [hv, rebuilt, eq_comm]
  · rw [hv, rebuilt, Doc.object.injEq, Lists.map_eq_self_iff]
    constructor
    · intro h
      refine Or.inr ⟨map, rfl, fun key value hkv hrej => ?_⟩
      rw [JsonPath.exists_appendKey_eq_error_iff] at hrej
      refine (Doc.blankOut_eq_self_iff placeholder_eq_self_iff).mp ?_
      simpa [hrej] using h (key, value) hkv
    · rintro (h | ⟨map', h, hblank⟩) e he
      · cases h
      · cases h
        by_cases hkey : ValidKey e.1
        · rw [if_pos hkey]
        · have hblank := hblank e.1 e.2 he (JsonPath.exists_appendKey_eq_error_iff.mpr hkey)
          rw [if_neg hkey, (Doc.blankOut_eq_self_iff placeholder_eq_self_iff).mpr hblank]

def dotted : JsonDocument where
  value := .object [("a.b", JsonValue.string "x")]
  ordered := .object (by decide) (by simpa using .scalar _)

theorem replay_analyze_eq_iff_dotted :
    (∀ plan, analyze .default dotted.value = .ok plan →
      ∃ results r, replay plan = (.ok results, r) ∧ r.currentState = dotted.value) ↔
    dotted.value = .null ∨ ∃ map, dotted.value = .object map ∧ ∀ key value, (key, value) ∈ map →
      (∃ e, JsonPath.root.appendKey key = .error e) → value.Blank IsZero :=
  replay_analyze_eq_iff .default dotted
    (Or.inr ⟨_, rfl, "a.b", by decide, JsonPath.exists_appendKey_eq_error_iff.mpr (by decide)⟩)

/-- Both kinds of loss: the string under the dotted key, and a string at the root. -/
theorem replay_analyze_ne :
    ((∃ e, JsonPath.root.appendKey "a.b" = .error e) ∧ ∃ plan results r,
      analyze .default dotted.value = .ok plan ∧ replay plan = (.ok results, r) ∧
        r.currentState ≠ dotted.value) ∧
    ∃ plan results r, analyze .default (JsonValue.string "x") = .ok plan ∧
      replay plan = (.ok results, r) ∧ r.currentState ≠ JsonValue.string "x" :=
  ⟨⟨⟨_, rfl⟩, _, _, _, rfl, rfl, by decide⟩, _, _, _, rfl, rfl, by decide⟩

end PriorityStreamer

end PJS
