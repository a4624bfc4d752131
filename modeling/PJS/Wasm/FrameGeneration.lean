import PJS.Wasm.PriorityAssignment
import PJS.Domain.FrameReading

/-! Frame generation of the WebAssembly bindings: a skeleton, one patch frame per priority and a
completion frame. -/
namespace PJS.Wasm

/-- What one call reads from outside: the clock, reading by reading, and the order in which the
map of groups lists its keys. -/
structure GenerationEnv where
  utc : ℕ → DateTime
  order : List Priority → List Priority
  order_perm : ∀ priorities, (order priorities).Perm priorities

/-- The text of a failed patch frame, with the `Debug` form of the error. -/
def patchFailure (e : DomainError) : String :=
  "Failed to create patch frame: " ++ match e with
    | .invalidStateTransition msg => s!"InvalidStateTransition({msg.quote})"
    | .invalidStreamState msg => s!"InvalidStreamState({msg.quote})"
    | .invalidSessionState msg => s!"InvalidSessionState({msg.quote})"
    | .invalidFrame msg => s!"InvalidFrame({msg.quote})"
    | .invalidPriority msg => s!"InvalidPriority({msg.quote})"
    | .invalidPath msg => s!"InvalidPath({msg.quote})"
    | .streamNotFound msg => s!"StreamNotFound({msg.quote})"
    | .sessionNotFound msg => s!"SessionNotFound({msg.quote})"
    | .tooManyStreams msg => s!"TooManyStreams({msg.quote})"
    | .compressionError msg => s!"CompressionError({msg.quote})"
    | .invalidInput msg => s!"InvalidInput({msg.quote})"

mutual

/-- Skeleton of the data, with null for objects at `maxDepth` and deeper. -/
def buildSkeleton (maxDepth : ℕ) : JsonData → ℕ → JsonData
  | .object map, depth =>
    if depth ≥ maxDepth then .null else .object (buildSkeletonEntries maxDepth [] map depth)
  | .array _, depth => if depth ≥ maxDepth then .null else .array []
  | .scalar _, _ => .null

/-- The loop over a map's entries, inserting into `skeletonMap`. -/
def buildSkeletonEntries (maxDepth : ℕ) (skeletonMap : List (String × JsonData)) :
    List (String × JsonData) → ℕ → List (String × JsonData)
  | [], _ => skeletonMap
  | (k, v) :: rest, depth =>
    buildSkeletonEntries maxDepth
      (Assoc.insert k (match v with
        | .object _ => buildSkeleton maxDepth v (depth + 1)
        | .array _ => .array []
        | .string _ => .null
        | .integer _ => .integer 0
        | .float _ => .float 0.0
        | .bool _ => .bool false
        | .null => .null) skeletonMap)
      rest depth

end

/-- The patch frames of the priorities from `minPriority` on, numbered from `sequence`. -/
def patchFrames (utc : ℕ → DateTime) (grouped : AssocMap Priority (List PrioritizedField))
    (streamId : StreamId) (minPriority : Priority) :
    List Priority → ℕ → Except String (List Frame × ℕ)
  | [], sequence => .ok ([], sequence)
  | priority :: rest, sequence =>
    if priority < minPriority then patchFrames utc grouped streamId minPriority rest sequence
    else
      match grouped.get? priority with
      | none => patchFrames utc grouped streamId minPriority rest sequence
      | some fields =>
        let patches := fields.map fun field => FramePatch.set field.path field.value
        if patches.isEmpty then patchFrames utc grouped streamId minPriority rest sequence
        else
          match Frame.patch streamId sequence priority patches (utc sequence) with
          | .error e => .error (patchFailure e)
          | .ok frame => do
            let (frames, sequence) ←
              patchFrames utc grouped streamId minPriority rest (sequence + 1)
            return (frame :: frames, sequence)

/-- Generate priority-ordered frames for `data`. -/
def generateFrames (env : GenerationEnv) (priorityAssigner : PriorityAssigner) (data : JsonData)
    (streamId : StreamId) (minPriority : Priority) (maxDepth : ℕ) : Except String (List Frame) := do
  let skeleton := Frame.skeleton streamId 0 (buildSkeleton maxDepth data 0) (env.utc 0)
  let prioritizedFields := priorityAssigner.extractPrioritizedFieldsWithLimit maxDepth data
  let grouped := groupByPriority prioritizedFields
  let priorities := sortPriorities (env.order grouped.keys)
  let (frames, sequence) ← patchFrames env.utc grouped streamId minPriority priorities 1
  return skeleton :: frames ++ [Frame.complete streamId sequence none (env.utc sequence)]

section Frames
variable {env : GenerationEnv} {assigner : PriorityAssigner} {streamId : StreamId}

/-- One frame for each listed priority from the threshold on, with the fields of that priority. -/
def Levels (fields : List PrioritizedField) (streamId : StreamId) :
    List Priority → List Frame → Prop :=
  List.Forall₂ fun priority frame => frame.frameType = .patch ∧ frame.streamId = streamId ∧
    frame.priority = priority ∧ frame.patches =
      (fields.filter (·.priority = priority)).map fun f => FramePatch.set f.path f.value

/-- The frames carry the fields of the listed priorities, each at its priority. -/
theorem exists_mem_patches_iff {fields : List PrioritizedField} {priorities : List Priority}
    {frames : List Frame} (h : Levels fields streamId priorities frames)
    {P : Priority → FramePatch → Prop} :
    (∃ frame ∈ frames, ∃ patch ∈ frame.patches, P frame.priority patch) ↔
      ∃ f ∈ fields, f.priority ∈ priorities ∧ P f.priority (FramePatch.set f.path f.value) := by
  induction h with
  | nil => simp
  | @cons priority frame rest frames hframe _ ih =>
    obtain ⟨-, -, hpriority, hpatches⟩ := hframe
    rw [List.exists_mem_cons_iff, ih, hpriority, hpatches]
    simp only [List.mem_map, List.mem_filter, decide_eq_true_eq, List.mem_cons]
    constructor
    · rintro (⟨patch, ⟨f, ⟨hf, rfl⟩, rfl⟩, hP⟩ | ⟨f, hf, hp, hP⟩)
      · exact ⟨f, hf, Or.inl rfl, hP⟩
      · exact ⟨f, hf, Or.inr hp, hP⟩
    · rintro ⟨f, hf, rfl | hp, hP⟩
      · exact Or.inl ⟨_, ⟨f, ⟨hf, rfl⟩, rfl⟩, hP⟩
      · exact Or.inr ⟨f, hf, hp, hP⟩

theorem frameType_of_levels {fields : List PrioritizedField} {priorities : List Priority}
    {frames : List Frame} (h : Levels fields streamId priorities frames) :
    ∀ frame ∈ frames, frame.frameType = .patch := by
  induction h with
  | nil => simp
  | cons hframe _ ih => exact List.forall_mem_cons.mpr ⟨hframe.1, ih⟩

theorem patchFrames_eq_ok (utc : ℕ → DateTime) (fields : List PrioritizedField)
    (minPriority : Priority) {priorities : List Priority}
    (h : ∀ p ∈ priorities, p ∈ (groupByPriority fields).keys) (sequence : ℕ) :
    ∃ frames next, patchFrames utc (groupByPriority fields) streamId minPriority priorities
        sequence = .ok (frames, next) ∧
      Levels fields streamId (priorities.filter (minPriority ≤ ·)) frames := by
  induction priorities generalizing sequence with
  | nil => exact ⟨[], sequence, rfl, .nil⟩
  | cons priority rest ih =>
    have hrest : ∀ p ∈ rest, p ∈ (groupByPriority fields).keys := fun p hp => h p (by simp [hp])
    rw [patchFrames]
    split_ifs with hlow
    · rw [List.filter_cons_of_neg (by simpa using hlow)]
      exact ih hrest sequence
    · rw [List.filter_cons_of_pos (by simpa using hlow)]
      obtain ⟨group, hgroup⟩ := AssocMap.mem_keys_iff.mp (h priority (by simp))
      have hfields := hgroup
      rw [get?_groupByPriority] at hfields
      split_ifs at hfields with hany
      have heq : fields.filter (·.priority = priority) = group := Option.some.inj hfields
      have hne : group ≠ [] := by
        rw [List.any_eq_true] at hany
        obtain ⟨f, hf, hp⟩ := hany
        rw [← heq]
        exact List.ne_nil_of_mem (List.mem_filter.mpr ⟨hf, hp⟩)
      have hempty : (group.map fun f => FramePatch.set f.path f.value).isEmpty = false := by
        simpa using hne
      obtain ⟨frames, next, hrun, hlevels⟩ := ih hrest (sequence + 1)
      have hpatch := @Frame.patches_of_patch streamId sequence priority
        (group.map fun f => FramePatch.set f.path f.value) (utc sequence)
      unfold Frame.patch at hpatch ⊢
      simp only [hgroup, hempty, Bool.false_eq_true, if_false, hrun] at hpatch ⊢
      exact ⟨_, next, rfl, .cons ⟨rfl, rfl, rfl, by rw [hpatch rfl, heq]⟩ hlevels⟩

/-- The priorities that occur among the fields, each once, in descending order. -/
theorem generateFrames_eq_ok (env : GenerationEnv) (assigner : PriorityAssigner) (data : JsonData)
    (streamId : StreamId) (minPriority : Priority) (maxDepth : ℕ) :
    ∃ frames sequence priorities,
      generateFrames env assigner data streamId minPriority maxDepth =
        .ok (Frame.skeleton streamId 0 (buildSkeleton maxDepth data 0) (env.utc 0) :: frames ++
          [Frame.complete streamId sequence none (env.utc sequence)]) ∧
      Levels (assigner.extractPrioritizedFieldsWithLimit maxDepth data) streamId priorities
        frames ∧
      ∀ p, p ∈ priorities ↔ minPriority ≤ p ∧
        ∃ f ∈ assigner.extractPrioritizedFieldsWithLimit maxDepth data, f.priority = p := by
  set fields := assigner.extractPrioritizedFieldsWithLimit maxDepth data with hfields
  have hmem : ∀ p, p ∈ sortPriorities (env.order (groupByPriority fields).keys) ↔
      p ∈ (groupByPriority fields).keys := by
    intro p
    rw [sortPriorities, Lists.mem_sortDesc, (env.order_perm _).mem_iff]
  obtain ⟨frames, next, hrun, hlevels⟩ := @patchFrames_eq_ok streamId env.utc fields minPriority _
    (fun p hp => (hmem p).mp hp) 1
  refine ⟨frames, next, _, ?_, hlevels, fun p => ?_⟩
  · rw [generateFrames, ← hfields]
    simp only [hrun]
    rfl
  · rw [List.mem_filter, hmem, AssocMap.mem_keys_iff, and_comm, decide_eq_true_eq]
    refine and_congr_right fun _ => ?_
    rw [← Option.isSome_iff_exists, get?_groupByPriority]
    split_ifs with hany
    · simpa using hany
    · simpa using hany

end Frames

end PJS.Wasm
