import PJS.Lib.Progress
import PJS.Stream.Failures
import PJS.Stream.RoundTrip

/-! A reconstructor under way. Frames of a plan are queued and processed in any rhythm; from the
skeleton on the reconstructor shows part of the document, and more of it with every frame. -/
namespace PJS

namespace JsonReconstructor

section Calls

/-- The methods that a client calls while frames arrive. -/
inductive Call where
  | addFrame (frame : PriorityStreamFrame)
  | processNextFrame
  | processAllFrames

/-- The frames that a call queues. -/
def Call.queued : Call → List PriorityStreamFrame
  | .addFrame frame => [frame]
  | .processNextFrame | .processAllFrames => []

def Call.run (r : JsonReconstructor) : Call → Except Error JsonReconstructor
  | .addFrame frame => .ok (r.addFrame frame)
  | .processNextFrame =>
    match r.processNextFrame with
    | (.ok _, r) => .ok r
    | (.error e, _) => .error e
  | .processAllFrames =>
    match r.processAllFrames with
    | (.ok _, r) => .ok r
    | (.error e, _) => .error e

/-- Calls one after another, up to the first that fails. -/
def Call.runAll (calls : List Call) (r : JsonReconstructor) : Except Error JsonReconstructor :=
  calls.foldlM Call.run r

theorem Call.runAll_append (calls calls' : List Call) (r : JsonReconstructor) :
    Call.runAll (calls ++ calls') r = (Call.runAll calls r).bind (Call.runAll calls') := by
  unfold Call.runAll
  rw [List.foldlM_append]
  rfl

end Calls

section Frames
variable {r : JsonReconstructor} {frame : PriorityStreamFrame} {s : JsonValue}

theorem applyAll_append (before after : List JsonPatch) (state : JsonValue) :
    applyAll (before ++ after) state = (applyAll before state).bind (applyAll after) := by
  unfold applyAll
  rw [List.foldlM_append]
  rfl

/-- Patches change the document and count themselves. -/
theorem applyPatches_keeps {ps : List JsonPatch} {r r' : JsonReconstructor}
    {paths paths' : List JsonPath} (h : applyPatches r paths ps = (.ok paths', r')) :
    r'.frameQueue = r.frameQueue ∧ r'.stats.framesProcessed = r.stats.framesProcessed ∧
      r'.isComplete = r.isComplete := by
  induction ps generalizing r paths with
  | nil =>
    cases h
    exact ⟨rfl, rfl, rfl⟩
  | cons p ps ih =>
    rw [applyPatches] at h
    cases hp : applyPatch p r.currentState with
    | error e =>
      rw [hp] at h
      cases h
    | ok state =>
      rw [hp] at h
      have hkeeps := ih h
      exact hkeeps

/-- The frame that ends a plan. -/
def isCompletion : PriorityStreamFrame → Bool
  | .complete _ => true
  | .skeleton _ _ _ | .patch _ _ => false

/-- A frame with an effect is processed, and counted. -/
theorem processFrame_of_effect (h : frameEffect r.currentState frame = .ok s) :
    ∃ result r', r.processFrame frame = (.ok result, r') ∧ r'.currentState = s ∧
      r'.frameQueue = r.frameQueue ∧
      r'.stats.framesProcessed = r.stats.framesProcessed + 1 ∧
      r'.isComplete = (r.isComplete || isCompletion frame) := by
  cases hr : r.processFrame frame with
  | mk result r' =>
  cases result with
  | error e =>
    -- the failing patch would fail in the effect as well
    obtain ⟨before, bad, after, priority, rfl, hbefore, hbad⟩ := processFrame_error hr
    change applyAll (before ++ bad :: after) r.currentState = .ok s at h
    rw [applyAll_append, hbefore] at h
    change applyAll (bad :: after) r'.currentState = .ok s at h
    rw [applyAll_cons, hbad] at h
    cases h
  | ok result =>
    have heffect := processFrame_ok hr
    rw [h, Except.ok.injEq] at heffect
    refine ⟨result, r', rfl, heffect.symm, ?_⟩
    cases frame with
    | skeleton data priority complete =>
      cases hr
      exact ⟨rfl, rfl, by simp [isCompletion]⟩
    | complete checksum =>
      cases hr
      exact ⟨rfl, rfl, by simp [isCompletion]⟩
    | patch patches priority =>
      unfold processFrame at hr
      dsimp only at hr
      split at hr
      · cases hr
      · rename_i paths reached happly
        cases hr
        obtain ⟨hqueue, hcount, hcomplete⟩ := applyPatches_keeps happly
        exact ⟨hqueue, hcount, by simpa [isCompletion] using hcomplete⟩

end Frames

section Runs
variable {frames : List PriorityStreamFrame} {view : ℕ → JsonValue}

/-- The effects of the frames on a fresh reconstructor, one after another. -/
def Shows (frames : List PriorityStreamFrame) (view : ℕ → JsonValue) : Prop :=
  ∀ n, (frames.take n).foldlM frameEffect .null = .ok (view n)

/-- A reconstructor that has processed `n` of the frames it was given; the others are queued. -/
structure Tracks (frames : List PriorityStreamFrame) (view : ℕ → JsonValue)
    (queued : List PriorityStreamFrame) (n : ℕ) (r : JsonReconstructor) : Prop where
  le : n ≤ queued.length
  queue : r.frameQueue = queued.drop n
  state : r.currentState = view n
  count : r.stats.framesProcessed = UInt32.ofNat n
  complete : r.isComplete = (frames.take n).any isCompletion

theorem Shows.effect (h : Shows frames view) {n : ℕ} {frame : PriorityStreamFrame}
    (hn : frames[n]? = some frame) : frameEffect (view n) frame = .ok (view (n + 1)) := by
  have hnext := h (n + 1)
  rw [List.take_add_one, hn, Option.toList_some, List.foldlM_append, h n] at hnext
  change (frameEffect (view n) frame >>= fun s => pure s) = _ at hnext
  rwa [bind_pure] at hnext

variable {queued : List PriorityStreamFrame} {n : ℕ} {r : JsonReconstructor}

theorem tracks_new (h : Shows frames view) : Tracks frames view [] 0 new where
  le := Nat.le_refl 0
  queue := rfl
  state := by
    have hnone := h 0
    rw [List.take_zero, List.foldlM_nil] at hnone
    exact Except.ok.inj hnone
  count := rfl
  complete := rfl

theorem Tracks.addFrame (h : Tracks frames view queued n r) (frame : PriorityStreamFrame) :
    Tracks frames view (queued ++ [frame]) n (r.addFrame frame) where
  le := by
    have hle := h.le
    rw [List.length_append]
    omega
  queue := by
    change r.frameQueue ++ [frame] = (queued ++ [frame]).drop n
    rw [h.queue, List.drop_append_of_le_length h.le]
  state := h.state
  count := h.count
  complete := h.complete

/-- The next frame of the queue is the next frame of the plan. -/
theorem Tracks.processFrame (hview : Shows frames view) (hinitial : queued <+: frames)
    (h : Tracks frames view queued n r) {frame : PriorityStreamFrame}
    {rest : List PriorityStreamFrame} (hqueue : r.frameQueue = frame :: rest) :
    ∃ result r', JsonReconstructor.processFrame { r with frameQueue := rest } frame =
        (.ok result, r') ∧ r'.frameQueue = rest ∧ Tracks frames view queued (n + 1) r' := by
  have hdrop := h.queue.symm.trans hqueue
  have hnth : queued[n]? = some frame := by
    have hhead := congrArg List.head? hdrop
    rwa [List.head?_drop, List.head?_cons] at hhead
  have hlt : n < queued.length := (List.getElem?_eq_some_iff.mp hnth).1
  have hplan : frames[n]? = some frame := by
    obtain ⟨tail, rfl⟩ := hinitial
    rw [List.getElem?_append_left hlt, hnth]
  have heffect := hview.effect hplan
  rw [← h.state] at heffect
  obtain ⟨result, r', hr', hstate, hrest, hcount, hcomplete⟩ :=
    processFrame_of_effect (r := { r with frameQueue := rest }) heffect
  refine ⟨result, r', hr', hrest, hlt, ?_, hstate, ?_, ?_⟩
  · rw [hrest, ← List.tail_drop, hdrop, List.tail_cons]
  · rw [hcount, h.count]
    exact (UInt32.ofNat_add n 1).symm
  · rw [hcomplete, List.take_add_one, hplan, h.complete, List.any_append]
    simp

/-- Processing the queue processes every frame of it. -/
theorem Tracks.processQueue (hview : Shows frames view) (hinitial : queued <+: frames)
    {queue : List PriorityStreamFrame} (h : Tracks frames view queued n r)
    (hqueue : r.frameQueue = queue) (results : List ProcessResult) :
    ∃ results' r' n', r.processQueue results queue = (.ok results', r') ∧ n ≤ n' ∧
      Tracks frames view queued n' r' := by
  induction queue generalizing r n results with
  | nil =>
    refine ⟨results, { r with frameQueue := [] }, n, rfl, Nat.le_refl n, ?_⟩
    rw [← hqueue]
    exact h
  | cons frame rest ih =>
    obtain ⟨result, r', hr', hrest, htracks⟩ := h.processFrame hview hinitial hqueue
    obtain ⟨results', r'', n', hr'', hle, htracks'⟩ := ih htracks hrest (results ++ [result])
    refine ⟨results', r'', n', ?_, by omega, htracks'⟩
    rw [JsonReconstructor.processQueue, hr']
    exact hr''

/-- No call fails on frames of the plan, and none goes back. -/
theorem Tracks.run (hview : Shows frames view) {call : Call}
    (hinitial : queued ++ call.queued <+: frames) (h : Tracks frames view queued n r) :
    ∃ r' n', call.run r = .ok r' ∧ n ≤ n' ∧ Tracks frames view (queued ++ call.queued) n' r' := by
  cases call with
  | addFrame frame => exact ⟨_, n, rfl, Nat.le_refl n, h.addFrame frame⟩
  | processNextFrame =>
    rw [Call.queued, List.append_nil] at hinitial ⊢
    cases hqueue : r.frameQueue with
    | nil =>
      refine ⟨r, n, ?_, Nat.le_refl n, h⟩
      simp only [Call.run, processNextFrame, hqueue]
    | cons frame rest =>
      obtain ⟨result, r', hr', -, htracks⟩ := h.processFrame hview hinitial hqueue
      refine ⟨r', n + 1, ?_, by omega, htracks⟩
      simp only [Call.run, processNextFrame, hqueue, hr']
  | processAllFrames =>
    rw [Call.queued, List.append_nil] at hinitial ⊢
    obtain ⟨results, r', n', hr', hle, htracks⟩ := h.processQueue hview hinitial rfl []
    refine ⟨r', n', ?_, hle, htracks⟩
    simp only [Call.run, processAllFrames, hr']

theorem Tracks.runAll (hview : Shows frames view) {calls : List Call}
    (hinitial : queued ++ calls.flatMap Call.queued <+: frames)
    (h : Tracks frames view queued n r) :
    ∃ r' n', Call.runAll calls r = .ok r' ∧ n ≤ n' ∧
      Tracks frames view (queued ++ calls.flatMap Call.queued) n' r' := by
  induction calls generalizing queued n r with
  | nil =>
    rw [List.flatMap_nil, List.append_nil]
    exact ⟨r, n, rfl, Nat.le_refl n, h⟩
  | cons call calls ih =>
    rw [List.flatMap_cons, ← List.append_assoc] at hinitial ⊢
    obtain ⟨r', n', hr', hle, htracks⟩ :=
      h.run hview ((List.prefix_append _ _).trans hinitial)
    obtain ⟨r'', n'', hr'', hle', htracks'⟩ := ih hinitial htracks
    refine ⟨r'', n'', ?_, hle.trans hle', htracks'⟩
    rw [Call.runAll, List.foldlM_cons, hr']
    exact hr''

end Runs

end JsonReconstructor

namespace PriorityStreamer
open JsonReconstructor

variable (config : StreamerConfig)

/-- What may stand for a value that has yet to arrive: its placeholder, or null for a root. -/
def Stands (blank value : JsonScalar) : Prop := blank = .null ∨ blank = placeholder value

/-- The document as far as the edits have assembled it on the skeleton. -/
def partly (edits : List (Doc.Patch String JsonScalar)) : JsonValue → JsonValue
  | .scalar _ => .null
  | .array arr => (Doc.array arr).assembled ValidKey placeholder edits
  | .object map => (Doc.object map).assembled ValidKey placeholder edits

section Partly
variable {v : JsonValue} {ps qs : List JsonPatch}

theorem stands_placeholder (s : JsonScalar) : Stands (placeholder s) s := Or.inr rfl

theorem plannedPatches_scalar (s : JsonScalar) : plannedPatches config (.scalar s) = [] :=
  List.eq_nil_iff_forall_not_mem.mpr fun p hp => by
    simpa [extractPatches] using Lists.mem_sortDesc.mp hp

theorem runAll_prefix_plannedPatches (hv : v.Ordered) (hps : ps <+: plannedPatches config v) :
    Doc.runAll (ps.filterMap JsonPatch.edit?) (generateSkeleton v) =
      some (partly (ps.filterMap JsonPatch.edit?) v) := by
  have hinitial := hps.filterMap JsonPatch.edit?
  have hsched := schedule_plannedPatches config hv
  cases v with
  | scalar s =>
    rw [plannedPatches_scalar] at hps
    rw [List.prefix_nil.mp hps]
    rfl
  | array arr =>
    change Doc.runAll _ ((Doc.array arr).blankOut placeholder) = _
    exact hsched.runAll_prefix hv.nodup hinitial
  | object map =>
    rw [generateSkeleton_object hv]
    exact hsched.runAll_prefix hv.nodup hinitial

theorem partly_below (hv : v.Ordered) (hps : ps <+: plannedPatches config v) :
    (partly (ps.filterMap JsonPatch.edit?) v).Below Stands v := by
  have hinitial := hps.filterMap JsonPatch.edit?
  have hsched := schedule_plannedPatches config hv
  cases v with
  | scalar s => exact .blank (Or.inl rfl)
  | array arr =>
    exact hsched.assembled_below stands_placeholder (flatten_chunk config) hv.nodup hinitial
  | object map =>
    exact hsched.assembled_below stands_placeholder (flatten_chunk config) hv.nodup hinitial

theorem partly_mono (h : ps <+: qs) (v : JsonValue) :
    (partly (ps.filterMap JsonPatch.edit?) v).Below Stands
      (partly (qs.filterMap JsonPatch.edit?) v) := by
  have hinitial := h.filterMap JsonPatch.edit?
  cases v with
  | scalar s => exact .scalar _
  | array arr => exact Doc.assembled_mono stands_placeholder hinitial _
  | object map => exact Doc.assembled_mono stands_placeholder hinitial _

end Partly

section Plan
variable {config} {v : JsonValue} {batches : List (List JsonPatch × Priority)}

/-- The patches of the first frames of a plan; the first of all is the skeleton. -/
def arrivedPatches (batches : List (List JsonPatch × Priority)) (n : ℕ) : List JsonPatch :=
  ((batches.take (n - 1)).map Prod.fst).flatten

/-- What a reconstructor shows after `n` frames of the plan. -/
def shownAfter (v : JsonValue) (batches : List (List JsonPatch × Priority)) : ℕ → JsonValue
  | 0 => .null
  | n + 1 => partly ((arrivedPatches batches (n + 1)).filterMap JsonPatch.edit?) v

theorem arrivedPatches_initial {m n : ℕ} (h : m ≤ n) :
    arrivedPatches batches m <+: arrivedPatches batches n := by
  have htake : batches.take (m - 1) <+: batches.take (n - 1) :=
    List.take_prefix_take_left (by omega)
  obtain ⟨rest, hrest⟩ := htake
  rw [arrivedPatches, arrivedPatches, ← hrest, List.map_append, List.flatten_append]
  exact List.prefix_append _ _

theorem arrivedPatches_prefix_all (n : ℕ) :
    arrivedPatches batches n <+: (batches.map Prod.fst).flatten := by
  obtain ⟨rest, hrest⟩ := List.take_prefix (n - 1) batches
  conv_rhs => rw [← hrest]
  rw [arrivedPatches, List.map_append, List.flatten_append]
  exact List.prefix_append _ _

theorem applyAll_of_runAll {ps : List JsonPatch} (hps : Addressed ps) {s s' : JsonValue}
    (h : Doc.runAll (ps.filterMap JsonPatch.edit?) s = some s') : applyAll ps s = .ok s' := by
  obtain ⟨r', hr', hs⟩ := applyPatches_of_runAll hps ⟨s, [], false, ⟨0, 0, 0, 0⟩⟩ [] h
  rw [← hs]
  exact applyPatches_ok hr'

theorem foldlM_patchFrames (hps : Addressed (batches.map Prod.fst).flatten) {s s' : JsonValue}
    (h : Doc.runAll ((batches.map Prod.fst).flatten.filterMap JsonPatch.edit?) s = some s') :
    (batches.map patchFrame).foldlM frameEffect s = .ok s' := by
  induction batches generalizing s with
  | nil =>
    cases h
    rfl
  | cons b batches ih =>
    rw [List.map_cons, List.flatten_cons] at hps
    rw [List.map_cons, List.flatten_cons, List.filterMap_append, Doc.runAll_append,
      Option.bind_eq_some_iff] at h
    obtain ⟨t, ht, h⟩ := h
    have hfirst := applyAll_of_runAll (fun p hp => hps p (List.mem_append_left _ hp)) ht
    rw [List.map_cons, List.foldlM_cons, patchFrame]
    change (applyAll b.1 s).bind _ = _
    rw [hfirst]
    exact ih (fun p hp => hps p (List.mem_append_right _ hp)) h

/-- The frames of a plan. -/
def planFrames (v : JsonValue) (batches : List (List JsonPatch × Priority)) :
    List PriorityStreamFrame :=
  .skeleton (generateSkeleton v) .critical false :: batches.map patchFrame ++ [.complete none]

theorem shows_planFrames (hv : v.Ordered)
    (hb : (batches.map Prod.fst).flatten = plannedPatches config v) :
    Shows (planFrames v batches) (shownAfter v batches) := by
  have haddr := addressed_plannedPatches config v
  rw [← hb] at haddr
  intro n
  cases n with
  | zero => rfl
  | succ k =>
    have hinitial := @arrivedPatches_prefix_all batches (k + 1)
    have hrun := runAll_prefix_plannedPatches config hv (hb ▸ hinitial)
    have hframes : ((batches.take k).map patchFrame).foldlM frameEffect (generateSkeleton v) =
        .ok (shownAfter v batches (k + 1)) :=
      foldlM_patchFrames (fun p hp => haddr p (hinitial.subset hp)) hrun
    have hlast : ∀ (m : ℕ) (s : JsonValue),
        ([PriorityStreamFrame.complete none].take m).foldlM frameEffect s = .ok s := by
      intro m s
      cases m with
      | zero => rfl
      | succ m =>
        rw [List.take_succ_cons, List.take_nil]
        rfl
    rw [planFrames, List.cons_append, List.take_succ_cons, List.foldlM_cons]
    change ((batches.map patchFrame ++ [PriorityStreamFrame.complete none]).take k).foldlM
      frameEffect (generateSkeleton v) = _
    rw [List.take_append, List.foldlM_append, ← List.map_take, hframes]
    exact hlast _ _

theorem any_isCompletion_iff {n : ℕ} (hn : n ≤ (planFrames v batches).length) :
    ((planFrames v batches).take n).any isCompletion = true ↔
      n = (planFrames v batches).length := by
  have hnone : ∀ frame ∈ PriorityStreamFrame.skeleton (generateSkeleton v) .critical false ::
      batches.map patchFrame, isCompletion frame = false := by
    intro frame hframe
    rcases List.mem_cons.mp hframe with rfl | hframe
    · rfl
    · obtain ⟨b, -, rfl⟩ := List.mem_map.mp hframe
      rfl
  constructor
  · intro hany
    obtain ⟨frame, hframe, hcomplete⟩ := List.any_eq_true.mp hany
    by_contra hne
    rw [planFrames, List.length_append, List.length_singleton] at hn hne
    rw [planFrames, List.take_append_of_le_length (by omega)] at hframe
    rw [hnone frame (List.mem_of_mem_take hframe)] at hcomplete
    cases hcomplete
  · intro h
    rw [h, List.take_length, planFrames, List.any_append]
    simp [isCompletion]

end Plan

/-- However a client queues and processes the frames of a plan, no call fails. From the skeleton on
the state is part of the document and only gains; the reconstructor is complete when it has
processed every frame, and then has what the plan carries. -/
theorem progress_of_calls (v : JsonDocument) {plan : StreamingPlan}
    (hplan : analyze config v.value = .ok plan) {calls : List JsonReconstructor.Call}
    (hcalls : calls.flatMap Call.queued <+: plan.frames) :
    ∃ r n, Call.runAll calls new = .ok r ∧ n ≤ (calls.flatMap Call.queued).length ∧
      r.frameQueue = (calls.flatMap Call.queued).drop n ∧
      r.stats.framesProcessed = UInt32.ofNat n ∧
      (1 ≤ n → r.currentState.Below Stands v.value) ∧
      (r.isComplete = true ↔ n = plan.frames.length) ∧
      (r.isComplete = true → r.currentState = rebuilt v.value) ∧
      ∀ calls', (calls ++ calls').flatMap Call.queued <+: plan.frames → 1 ≤ n →
        ∃ r', Call.runAll calls' r = .ok r' ∧
          r.currentState.Below Stands r'.currentState := by
  obtain ⟨batches, hb, hbatches⟩ := analyze_eq config v.value
  have hview := shows_planFrames v.ordered hb
  obtain rfl : plan = ⟨planFrames v.value batches⟩ := Except.ok.inj (hplan.symm.trans hbatches)
  have hstart := tracks_new hview
  obtain ⟨r, n, hr, -, htracks⟩ := hstart.runAll hview hcalls
  rw [List.nil_append] at htracks
  have hle : n ≤ (planFrames v.value batches).length := htracks.le.trans hcalls.length_le
  refine ⟨r, n, hr, htracks.le, htracks.queue, htracks.count, fun hn => ?_, ?_, fun hdone => ?_,
    fun calls' hcalls' hn => ?_⟩
  · obtain ⟨k, rfl⟩ := Nat.exists_eq_add_of_le' hn
    rw [htracks.state]
    exact partly_below config v.ordered (hb ▸ arrivedPatches_prefix_all _)
  · rw [htracks.complete]
    exact any_isCompletion_iff hle
  · rw [htracks.complete, any_isCompletion_iff hle] at hdone
    have hlength : (planFrames v.value batches).length = batches.length + 1 + 1 := by
      simp [planFrames]
    have hall : arrivedPatches batches (batches.length + 1 + 1) = plannedPatches config v.value := by
      rw [arrivedPatches, List.take_of_length_le (by omega), hb]
    rw [htracks.state, hdone, hlength, shownAfter, hall]
    have hrun := runAll_prefix_plannedPatches config v.ordered List.prefix_rfl
    exact Option.some.inj (hrun.symm.trans (runAll_plannedPatches config v.ordered))
  · rw [List.flatMap_append] at hcalls'
    obtain ⟨r', n', hr', hle', htracks'⟩ := htracks.runAll hview hcalls'
    refine ⟨r', hr', ?_⟩
    obtain ⟨k, rfl⟩ := Nat.exists_eq_add_of_le' hn
    obtain ⟨k', rfl⟩ := Nat.exists_eq_add_of_le' (hn.trans hle')
    rw [htracks.state, htracks'.state]
    exact partly_mono (arrivedPatches_initial hle') v.value

/-- All frames are queued, and the first of them is processed. -/
theorem progress_of_calls_nested : ∃ plan r n, analyze .default nested.value = .ok plan ∧
    Call.runAll (plan.frames.map .addFrame ++ [.processNextFrame]) new = .ok r ∧
    r.stats.framesProcessed = UInt32.ofNat n ∧
    (1 ≤ n → r.currentState.Below Stands nested.value) ∧
    (r.isComplete = true ↔ n = plan.frames.length) := by
  obtain ⟨plan, -, -, hplan, -⟩ := replay_analyze .default nested
  have hcalls : (plan.frames.map Call.addFrame ++ [Call.processNextFrame]).flatMap Call.queued <+:
      plan.frames := by
    rw [List.flatMap_append, List.flatMap_map]
    simp [Call.queued]
  obtain ⟨r, n, hr, -, -, hcount, hbelow, hcomplete, -⟩ :=
    progress_of_calls .default nested hplan hcalls
  exact ⟨plan, r, n, hplan, hr, hcount, hbelow, hcomplete⟩

end PriorityStreamer

end PJS
