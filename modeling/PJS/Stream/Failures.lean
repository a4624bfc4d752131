import PJS.Stream.Reconstruction

/-! Frames that fail. A patch frame is applied patch by patch, and the patch that fails is the only
one of those reached that leaves no trace. -/
namespace PJS.JsonReconstructor

/-- Patches applied to a document, one after the other. -/
def applyAll (patches : List JsonPatch) (state : JsonValue) : Except Error JsonValue :=
  patches.foldlM (fun state patch => applyPatch patch state) state

/-- What a frame makes of the document. -/
def frameEffect (state : JsonValue) : PriorityStreamFrame → Except Error JsonValue
  | .skeleton data _ _ => .ok data
  | .patch patches _ => applyAll patches state
  | .complete _ => .ok state

/-- The frame fails with `e` at one of its patches, and leaves the document with the patches before
that one applied. -/
def StopsAt (frame : PriorityStreamFrame) (state : JsonValue) (e : Error) (state' : JsonValue) :
    Prop :=
  ∃ before bad after priority, frame = .patch (before ++ bad :: after) priority ∧
    applyAll before state = .ok state' ∧ applyPatch bad state' = .error e

theorem applyAll_cons (patch : JsonPatch) (patches : List JsonPatch) (state : JsonValue) :
    applyAll (patch :: patches) state = (applyPatch patch state).bind (applyAll patches) := by
  unfold applyAll
  rw [List.foldlM_cons]
  rfl

theorem applyPatches_error {patches : List JsonPatch} {r r' : JsonReconstructor}
    {paths : List JsonPath} {e : Error} (h : applyPatches r paths patches = (.error e, r')) :
    ∃ before bad after, patches = before ++ bad :: after ∧
      applyAll before r.currentState = .ok r'.currentState ∧
      applyPatch bad r'.currentState = .error e := by
  induction patches generalizing r paths with
  | nil => cases h
  | cons patch patches ih =>
    rw [applyPatches] at h
    cases hp : applyPatch patch r.currentState with
    | error e' =>
      simp only [hp, Prod.mk.injEq, Except.error.injEq] at h
      obtain ⟨rfl, rfl⟩ := h
      exact ⟨[], patch, patches, rfl, rfl, hp⟩
    | ok state =>
      simp only [hp] at h
      obtain ⟨before, bad, after, rfl, hbefore, hbad⟩ := ih h
      refine ⟨patch :: before, bad, after, rfl, ?_, hbad⟩
      rw [applyAll_cons, hp]
      exact hbefore

theorem applyPatches_ok {patches : List JsonPatch} {r r' : JsonReconstructor}
    {paths paths' : List JsonPath} (h : applyPatches r paths patches = (.ok paths', r')) :
    applyAll patches r.currentState = .ok r'.currentState := by
  induction patches generalizing r paths with
  | nil =>
    cases h
    rfl
  | cons patch patches ih =>
    rw [applyPatches] at h
    cases hp : applyPatch patch r.currentState with
    | error e' =>
      simp only [hp] at h
      cases h
    | ok state =>
      simp only [hp] at h
      rw [applyAll_cons, hp]
      exact ih h

/-- A frame that succeeds has its effect on the document. -/
theorem processFrame_ok {frame : PriorityStreamFrame} {r r' : JsonReconstructor}
    {result : ProcessResult} (h : r.processFrame frame = (.ok result, r')) :
    frameEffect r.currentState frame = .ok r'.currentState := by
  cases frame with
  | skeleton data priority complete =>
    cases h
    rfl
  | complete checksum =>
    cases h
    rfl
  | patch patches priority =>
    unfold processFrame at h
    dsimp only at h
    split at h
    · cases h
    · rename_i paths reached happly
      cases h
      have hall := applyPatches_ok happly
      exact hall

theorem processFrame_error {frame : PriorityStreamFrame} {r r' : JsonReconstructor} {e : Error}
    (h : r.processFrame frame = (.error e, r')) :
    StopsAt frame r.currentState e r'.currentState := by
  cases frame with
  | skeleton data priority complete => cases h
  | complete checksum => cases h
  | patch patches priority =>
    unfold processFrame at h
    dsimp only at h
    split at h
    · rename_i e' reached happly
      cases h
      obtain ⟨before, bad, after, rfl, hbefore, hbad⟩ := applyPatches_error happly
      exact ⟨before, bad, after, priority, rfl, hbefore, hbad⟩
    · cases h

theorem processQueue_error {queue : List PriorityStreamFrame} {r r' : JsonReconstructor}
    {results : List ProcessResult} {e : Error} (h : r.processQueue results queue = (.error e, r')) :
    ∃ earlier frame later reached, queue = earlier ++ frame :: later ∧
      earlier.foldlM frameEffect r.currentState = .ok reached ∧
      StopsAt frame reached e r'.currentState := by
  induction queue generalizing r results with
  | nil => cases h
  | cons frame queue ih =>
    rw [processQueue] at h
    split at h
    · rename_i e' reached hframe
      cases h
      have hstop := processFrame_error hframe
      exact ⟨[], frame, queue, r.currentState, rfl, rfl, hstop⟩
    · rename_i result reached hframe
      obtain ⟨earlier, failing, later, state, rfl, hearlier, hstop⟩ := ih h
      refine ⟨frame :: earlier, failing, later, state, rfl, ?_, hstop⟩
      rw [List.foldlM_cons, processFrame_ok hframe]
      exact hearlier

/-- An error leaves the document as the frames before and the patches before the failing one made
it. -/
theorem current_state_of_error (r r' : JsonReconstructor) (e : Error) :
    (r.processNextFrame = (.error e, r') →
      ∃ frame later, r.frameQueue = frame :: later ∧
        StopsAt frame r.currentState e r'.currentState) ∧
    (r.processAllFrames = (.error e, r') →
      ∃ earlier frame later reached, r.frameQueue = earlier ++ frame :: later ∧
        earlier.foldlM frameEffect r.currentState = .ok reached ∧
        StopsAt frame reached e r'.currentState) := by
  constructor
  · intro h
    unfold processNextFrame at h
    split at h
    · rename_i frame later hqueue
      have hstop := processFrame_error h
      exact ⟨frame, later, hqueue, hstop⟩
    · cases h
  · exact processQueue_error

/-- A document with two fields, and a frame that sets the one and then a field of the other. -/
def halfway : JsonReconstructor :=
  { new with
    currentState := .object [("a", JsonValue.null), ("b", JsonValue.null)]
    frameQueue := [.patch
      [⟨⟨[.key "a"], by simp [ValidSegment, ValidKey]⟩, .set (.bool true), .high⟩,
        ⟨⟨[.key "b", .key "c"], by simp [ValidSegment, ValidKey]⟩, .set (.bool true), .high⟩]
      .high] }

/-- The same frame, after a skeleton. -/
def halfwayQueued : JsonReconstructor :=
  { new with
    frameQueue := .skeleton halfway.currentState .critical false :: halfway.frameQueue }

theorem current_state_of_error_halfway :
    let e := Error.other "Cannot set field on non-object/array"
    let reached : JsonValue := .object [("a", JsonValue.bool true), ("b", JsonValue.null)]
    (∃ r', halfway.processNextFrame = (.error e, r') ∧ r'.currentState = reached ∧
      ∃ frame later, halfway.frameQueue = frame :: later ∧
        StopsAt frame halfway.currentState e reached) ∧
    ∃ r', halfwayQueued.processAllFrames = (.error e, r') ∧ r'.currentState = reached ∧
      ∃ earlier frame later state, halfwayQueued.frameQueue = earlier ++ frame :: later ∧
        earlier.foldlM frameEffect halfwayQueued.currentState = .ok state ∧
        StopsAt frame state e reached := by
  intro e reached
  constructor
  · obtain ⟨r', hr'⟩ : ∃ r', halfway.processNextFrame = (.error e, r') := ⟨_, rfl⟩
    have hreached : reached = r'.currentState := congrArg (fun p => p.2.currentState) hr'
    have hstops := (current_state_of_error halfway r' e).1 hr'
    exact ⟨r', hr', hreached.symm, hreached ▸ hstops⟩
  · obtain ⟨r', hr'⟩ : ∃ r', halfwayQueued.processAllFrames = (.error e, r') := ⟨_, rfl⟩
    have hreached : reached = r'.currentState := congrArg (fun p => p.2.currentState) hr'
    have hstops := (current_state_of_error halfwayQueued r' e).2 hr'
    exact ⟨r', hr', hreached.symm, hreached ▸ hstops⟩

theorem halfway_not_atomic :
    ¬ ∀ (r r' : JsonReconstructor) (e : Error), r.processNextFrame = (.error e, r') →
      r'.currentState = r.currentState := by
  intro h
  have hs := h halfway _ (.other "Cannot set field on non-object/array") rfl
  cases hs

end PJS.JsonReconstructor
