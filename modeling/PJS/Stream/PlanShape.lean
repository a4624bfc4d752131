import PJS.Stream.Extraction

/-! The shape of a plan: its patch frames are full of patches of one priority, in falling order,
and together they are the extracted patches, sorted. Nothing is left out, whatever the threshold. -/
namespace PJS.PriorityStreamer

variable (config : StreamerConfig)

section Batches

/-- A batch that a frame may hold: not empty, not too long, and of one priority. -/
def Filled (batch : List JsonPatch × Priority) : Prop :=
  (1 ≤ batch.1.length ∧ batch.1.length ≤ config.maxPatchSize) ∧
    ∀ patch ∈ batch.1, patch.priority = batch.2

/-- What the grouping loop keeps: the frames emitted are filled, and the batch under construction
has room for a patch and one priority. -/
structure Batching.Filling (b : Batching) : Prop where
  frames : ∀ batch, patchFrame batch ∈ b.frames → Filled config batch
  room : b.currentBatch.length < config.maxPatchSize
  uniform : ∀ patch ∈ b.currentBatch, patch.priority = b.currentPriority

namespace Batching

variable {config} {b : Batching}

theorem frames_flush (hf : ∀ batch, patchFrame batch ∈ b.frames → Filled config batch)
    (hc : Filled config (b.currentBatch, b.currentPriority)) :
    ∀ batch, patchFrame batch ∈ b.flush.frames → Filled config batch := by
  intro batch hb
  rcases List.mem_append.mp hb with hb | hb
  · exact hf batch hb
  · obtain ⟨ps, prio⟩ := batch
    cases List.mem_singleton.mp hb
    exact hc

theorem Filling.filled (h : b.Filling config) (hne : b.currentBatch ≠ []) :
    Filled config (b.currentBatch, b.currentPriority) :=
  ⟨⟨List.length_pos_of_ne_nil hne, h.room.le⟩, h.uniform⟩

theorem Filling.flush (h : b.Filling config) (hne : b.currentBatch ≠ []) :
    b.flush.Filling config := by
  constructor
  · exact frames_flush h.frames (h.filled hne)
  · exact config.maxPatchSize_pos
  · intro patch hp
    cases hp

/-- A patch of the priority of the batch, or any patch where the batch is empty. -/
theorem Filling.push (h : b.Filling config) {patch : JsonPatch}
    (hp : patch.priority = b.currentPriority ∨ b.currentBatch = []) :
    let b' : Batching := ⟨b.frames, patch.priority, b.currentBatch ++ [patch]⟩
    (if b'.currentBatch.length ≥ config.maxPatchSize then b'.flush else b').Filling config := by
  intro b'
  have huniform : ∀ q ∈ b'.currentBatch, q.priority = b'.currentPriority := by
    intro q hq
    rcases List.mem_append.mp hq with hq | hq
    · rcases hp with hp | hp
      · exact (h.uniform q hq).trans hp.symm
      · rw [hp] at hq
        cases hq
    · rw [List.mem_singleton.mp hq]
  have hlen : b'.currentBatch.length = b.currentBatch.length + 1 := List.length_append
  have hroom := h.room
  split_ifs with hfull
  · constructor
    · have hsize : 1 ≤ b'.currentBatch.length ∧ b'.currentBatch.length ≤ config.maxPatchSize := by
        omega
      exact frames_flush (b := b') h.frames ⟨hsize, huniform⟩
    · exact config.maxPatchSize_pos
    · intro q hq
      cases hq
  · exact ⟨h.frames, by omega, huniform⟩

theorem Filling.step (h : b.Filling config) (patch : JsonPatch) :
    (b.step config patch).Filling config := by
  unfold Batching.step
  by_cases hflush : patch.priority ≠ b.currentPriority ∧ b.currentBatch ≠ []
  · rw [if_pos hflush]
    exact (h.flush hflush.2).push (.inr rfl)
  · rw [if_neg hflush]
    refine h.push ?_
    by_cases hprio : patch.priority = b.currentPriority
    · exact .inl hprio
    · exact .inr (not_not.mp fun hne => hflush ⟨hprio, hne⟩)

theorem Filling.foldl (h : b.Filling config) (ps : List JsonPatch) :
    (ps.foldl (Batching.step config) b).Filling config := by
  induction ps generalizing b with
  | nil => exact h
  | cons p ps ih => exact ih (h.step p)

end Batching

/-- Every patch frame of a plan is filled. -/
theorem filled_of_mem {v : JsonValue} {plan : StreamingPlan} (h : analyze config v = .ok plan)
    {batch : List JsonPatch × Priority} (hb : patchFrame batch ∈ plan.frames) :
    Filled config batch := by
  have hinit : Batching.Filling config
      ⟨[.skeleton (generateSkeleton v) .critical false], .critical, []⟩ := by
    constructor
    · intro batch hmem
      cases List.mem_singleton.mp hmem
    · exact config.maxPatchSize_pos
    · intro patch hp
      cases hp
  have hloop := hinit.foldl (plannedPatches config v)
  unfold analyze at h
  cases h
  rcases List.mem_append.mp hb with hb | hb
  · split_ifs at hb with hempty
    · exact (hloop.flush hempty).frames batch hb
    · exact hloop.frames batch hb
  · cases List.mem_singleton.mp hb

/-- Filled batches of sorted patches have falling priorities. -/
theorem pairwise_priorities {batches : List (List JsonPatch × Priority)}
    (hf : ∀ b ∈ batches, Filled config b)
    (hs : (batches.map Prod.fst).flatten.Pairwise fun p q => q.priority ≤ p.priority) :
    (batches.map Prod.snd).Pairwise fun p q => q ≤ p := by
  have hacross := (List.pairwise_flatten.mp hs).2
  rw [List.pairwise_map] at hacross ⊢
  refine hacross.imp_of_mem fun {a b} ha hb hab => ?_
  obtain ⟨p, hp⟩ := List.exists_mem_of_length_pos (hf a ha).1.1
  obtain ⟨q, hq⟩ := List.exists_mem_of_length_pos (hf b hb).1.1
  have hle := hab p hp q hq
  rwa [(hf a ha).2 p hp, (hf b hb).2 q hq] at hle

/-- A plan is a skeleton, filled patch frames of falling priority, and a completion, and the patches
of its frames are the extracted ones in a stable sort. -/
theorem analyze_plan (v : JsonValue) : ∃ batches : List (List JsonPatch × Priority),
    analyze config v = .ok ⟨.skeleton (generateSkeleton v) .critical false ::
      batches.map patchFrame ++ [.complete none]⟩ ∧
    (∀ batch ∈ batches, (1 ≤ batch.1.length ∧ batch.1.length ≤ config.maxPatchSize) ∧
      ∀ patch ∈ batch.1, patch.priority = batch.2) ∧
    (batches.map Prod.snd).Pairwise (fun p q => q ≤ p) ∧
    Lists.StableSortDesc JsonPatch.priority (extractPatches config v .root)
      (batches.map Prod.fst).flatten := by
  obtain ⟨batches, hflat, hplan⟩ := analyze_eq config v
  have hsort : Lists.StableSortDesc JsonPatch.priority (extractPatches config v .root)
      (batches.map Prod.fst).flatten := by
    rw [hflat]
    exact Lists.stableSortDesc_sortDesc _ _
  have hfilled : ∀ batch ∈ batches, Filled config batch := by
    intro batch hb
    refine filled_of_mem config hplan ?_
    exact List.mem_append_left _ (List.mem_cons_of_mem _ (List.mem_map_of_mem hb))
  exact ⟨batches, hplan, hfilled, pairwise_priorities config hfilled hsort.sorted, hsort⟩

end Batches

section Threshold

/-- Keys that a path can encode lead from the value `v` at `p` to the value `w` at `q`. -/
inductive Reaches : JsonValue → JsonPath → JsonValue → JsonPath → Prop
  | here (v : JsonValue) (p : JsonPath) : Reaches v p v p
  | field {m : JsonMap} {p q r : JsonPath} {k : String} {w x : JsonValue} (hk : (k, w) ∈ m)
      (hq : p.appendKey k = .ok q) (h : Reaches w q x r) : Reaches (.object m) p x r

/-- Some array that is not empty, and that is reached from `v`, has at least this priority. -/
def ReachesArray (v : JsonValue) (p : JsonPath) (threshold : Priority) : Prop :=
  ∃ xs q, Reaches v p (.array xs) q ∧ xs ≠ [] ∧ threshold ≤ calculateArrayPriority q xs

/-- Every array reached that is not empty has at least this priority, and every field reached has
it too or reaches such an array. -/
structure AllRated (v : JsonValue) (p : JsonPath) (threshold : Priority) : Prop where
  arrays : ∀ xs q, Reaches v p (.array xs) q → xs ≠ [] → threshold ≤ calculateArrayPriority q xs
  fields : ∀ m q k w r, Reaches v p (.object m) q → (k, w) ∈ m → q.appendKey k = .ok r →
    threshold ≤ calculateFieldPriority r k w ∨ ReachesArray w r threshold

variable {config} {threshold : Priority}

variable (config) in
theorem exists_mem_chunk {arr : List JsonValue} (h : arr ≠ []) : ∃ c, c ∈ chunk config arr := by
  apply List.exists_mem_of_ne_nil
  intro hnil
  have hflat := flatten_chunk config arr
  rw [hnil, List.flatten_nil] at hflat
  exact h hflat.symm

theorem reachesArray_object_iff {m : JsonMap} {p : JsonPath} :
    ReachesArray (.object m) p threshold ↔
      ∃ k w q, (k, w) ∈ m ∧ p.appendKey k = .ok q ∧ ReachesArray w q threshold := by
  constructor
  · rintro ⟨xs, r, hr, hne, hle⟩
    cases hr with
    | field hk hq h => exact ⟨_, _, _, hk, hq, xs, r, h, hne, hle⟩
  · rintro ⟨k, w, q, hk, hq, xs, r, h, hne, hle⟩
    exact ⟨xs, r, .field hk hq h, hne, hle⟩

/-- The appends of a value come from the arrays reached. -/
theorem exists_append_iff {v : JsonValue} {p : JsonPath} :
    (∃ a ∈ extractPatches config v p, isAppend a = true ∧ threshold ≤ a.priority) ↔
      ReachesArray v p threshold := by
  induction v using Doc.induction generalizing p with
  | scalar s =>
    constructor
    · rintro ⟨a, ha, -, -⟩
      cases ha
    · rintro ⟨xs, q, h, -, -⟩
      cases h
  | array arr =>
    rw [extractPatches_array]
    constructor
    · rintro ⟨a, ha, -, hle⟩
      obtain ⟨c, hc, rfl⟩ := List.mem_map.mp ha
      refine ⟨arr, p, .here _ _, ?_, hle⟩
      rintro rfl
      cases hc
    · rintro ⟨xs, q, h, hne, hle⟩
      cases h
      obtain ⟨c, hc⟩ := exists_mem_chunk config hne
      exact ⟨_, List.mem_map_of_mem hc, rfl, hle⟩
  | object m ih =>
    rw [reachesArray_object_iff]
    constructor
    · rintro ⟨a, ha, happ, hle⟩
      obtain ⟨k, w, q, hk, hq, rfl | ha⟩ := (mem_extractFieldPatches config).mp ha
      · cases happ
      · exact ⟨k, w, q, hk, hq, (ih k w hk).mp ⟨a, ha, happ, hle⟩⟩
    · rintro ⟨k, w, q, hk, hq, h⟩
      obtain ⟨a, ha, happ, hle⟩ := (ih k w hk).mpr h
      exact ⟨a, (mem_extractFieldPatches config).mpr ⟨k, w, q, hk, hq, .inr ha⟩, happ, hle⟩

theorem le_hoistedPriority_iff {own : Priority} {ps : List JsonPatch} :
    threshold ≤ hoistedPriority own ps ↔
      threshold ≤ own ∨ ∃ a ∈ ps, isAppend a = true ∧ threshold ≤ a.priority := by
  have hmem : ∀ prio, prio ∈ (ps.filter isAppend).map JsonPatch.priority ↔
      ∃ a ∈ ps, isAppend a = true ∧ a.priority = prio := by
    intro prio
    simp only [List.mem_map, List.mem_filter, and_assoc]
  unfold hoistedPriority
  split
  · rename_i hnone
    rw [List.max?_eq_none_iff] at hnone
    constructor
    · exact .inl
    · rintro (h | ⟨a, ha, happ, -⟩)
      · exact h
      · have hin := (hmem a.priority).mpr ⟨a, ha, happ, rfl⟩
        rw [hnone] at hin
        cases hin
  · rename_i ceiling hceil
    obtain ⟨hin, hmax⟩ := List.max?_eq_some_iff.mp hceil
    rw [le_max_iff]
    refine or_congr_right ?_
    constructor
    · intro h
      obtain ⟨a, ha, happ, rfl⟩ := (hmem ceiling).mp hin
      exact ⟨a, ha, happ, h⟩
    · rintro ⟨a, ha, happ, hle⟩
      exact le_trans hle (hmax _ ((hmem _).mpr ⟨a, ha, happ, rfl⟩))

theorem allRated_object_iff {m : JsonMap} {p : JsonPath} :
    AllRated (.object m) p threshold ↔ ∀ k w q, (k, w) ∈ m → p.appendKey k = .ok q →
      (threshold ≤ calculateFieldPriority q k w ∨ ReachesArray w q threshold) ∧
        AllRated w q threshold := by
  constructor
  · intro h k w q hk hq
    refine ⟨h.fields m p k w q (.here _ _) hk hq, ?_, ?_⟩
    · intro xs r hr
      exact h.arrays xs r (.field hk hq hr)
    · intro m' q' k' w' r' hr
      exact h.fields m' q' k' w' r' (.field hk hq hr)
  · intro h
    constructor
    · intro xs r hr
      cases hr with
      | field hk hq hr => exact (h _ _ _ hk hq).2.arrays xs r hr
    · intro m' q' k' w' r' hr hk' hq'
      cases hr with
      | here => exact (h k' w' r' hk' hq').1
      | field hk hq hr => exact (h _ _ _ hk hq).2.fields m' q' k' w' r' hr hk' hq'

theorem all_extracted_iff {v : JsonValue} {p : JsonPath} :
    (∀ a ∈ extractPatches config v p, threshold ≤ a.priority) ↔ AllRated v p threshold := by
  induction v using Doc.induction generalizing p with
  | scalar s =>
    constructor
    · intro _
      constructor
      · intro xs q h
        cases h
      · intro m q k w r h
        cases h
    · intro _ a ha
      cases ha
  | array arr =>
    rw [extractPatches_array]
    constructor
    · intro h
      constructor
      · intro xs q hq hne
        cases hq
        obtain ⟨c, hc⟩ := exists_mem_chunk config hne
        exact h _ (List.mem_map_of_mem hc)
      · intro m q k w r hq
        cases hq
    · intro h a ha
      obtain ⟨c, hc, rfl⟩ := List.mem_map.mp ha
      refine h.arrays arr p (.here _ _) ?_
      rintro rfl
      cases hc
  | object m ih =>
    rw [allRated_object_iff]
    constructor
    · intro h k w q hk hq
      refine ⟨?_, (ih k w hk).mp ?_⟩
      · have hset := h _ ((mem_extractFieldPatches config).mpr ⟨k, w, q, hk, hq, .inl rfl⟩)
        rwa [le_hoistedPriority_iff, exists_append_iff] at hset
      · intro a ha
        exact h a ((mem_extractFieldPatches config).mpr ⟨k, w, q, hk, hq, .inr ha⟩)
    · intro h a ha
      obtain ⟨k, w, q, hk, hq, rfl | ha⟩ := (mem_extractFieldPatches config).mp ha
      · rw [le_hoistedPriority_iff, exists_append_iff]
        exact (h k w q hk hq).1
      · exact (ih k w hk).mpr (h k w q hk hq).2 a ha

/-- No patch of the plan is below the threshold. -/
def KeepsThreshold (config : StreamerConfig) (v : JsonValue) : Prop :=
  ∀ plan, analyze config v = .ok plan → ∀ patches priority,
    PriorityStreamFrame.patch patches priority ∈ plan.frames →
      ∀ patch ∈ patches, config.priorityThreshold ≤ patch.priority

/-- The threshold is kept exactly where nothing is rated below it. -/
theorem keepsThreshold_iff (config : StreamerConfig) (v : JsonValue) :
    KeepsThreshold config v ↔ AllRated v .root config.priorityThreshold := by
  refine Iff.trans ?_ (@all_extracted_iff config config.priorityThreshold v .root)
  obtain ⟨batches, hflat, hplan⟩ := analyze_eq config v
  have hmem : ∀ a, a ∈ extractPatches config v .root ↔ ∃ b ∈ batches, a ∈ b.1 := by
    intro a
    have hsort : a ∈ plannedPatches config v ↔ a ∈ extractPatches config v .root :=
      Lists.mem_sortDesc
    rw [← hsort, ← hflat]
    simp only [List.mem_flatten, List.mem_map]
    constructor
    · rintro ⟨_, ⟨b, hb, rfl⟩, ha⟩
      exact ⟨b, hb, ha⟩
    · rintro ⟨b, hb, ha⟩
      exact ⟨_, ⟨b, hb, rfl⟩, ha⟩
  constructor
  · intro h a ha
    obtain ⟨b, hb, hab⟩ := (hmem a).mp ha
    refine h _ hplan b.1 b.2 ?_ a hab
    exact List.mem_append_left _ (List.mem_cons_of_mem _ (List.mem_map_of_mem hb))
  · intro h plan hp patches priority hframe a ha
    cases hplan.symm.trans hp
    rcases List.mem_append.mp hframe with hframe | hframe
    · rcases List.mem_cons.mp hframe with hframe | hframe
      · cases hframe
      · obtain ⟨b, hb, hbe⟩ := List.mem_map.mp hframe
        cases hbe
        exact h a ((hmem a).mpr ⟨b, hb, ha⟩)
    · cases List.mem_singleton.mp hframe

/-- The default threshold does not keep out a background field. -/
theorem history_not_dropped : ¬ ∀ (config : StreamerConfig) (v : JsonValue),
    KeepsThreshold config v := by
  intro h
  have hk := h .default (.object [("history", JsonValue.null)]) _ rfl
    [⟨⟨[.key "history"], by simp [ValidSegment, ValidKey]⟩, .set JsonValue.null, .background⟩]
    .background (by decide +kernel) _ List.mem_cons_self
  exact absurd hk (by decide)

end Threshold

end PJS.PriorityStreamer
