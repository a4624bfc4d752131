import PJS.Session.Accounts
import PJS.Domain.PathText
import PJS.Domain.StreamPatches

/-! Repeated batches. A call leaves of every stream what its patches depend on, so the next call
chooses among the same candidates and commits the same content under new sequence numbers: a
candidate beyond the batch size is in no batch at all. -/
namespace PJS

/-- A frame but for its sequence number and its timestamp. -/
def Frame.content (frame : Frame) : Frame := { frame with sequence := 0, timestamp := .epoch }

/-- The frame belongs to the stream and its payload has the patch. -/
def Frame.Carries (frame : Frame) (streamId : StreamId) (patch : FramePatch) : Prop :=
  frame.streamId = streamId ∧
    ∃ items, frame.payload = .object [("patches", .array items)] ∧ patch.toPayload ∈ items

@[simp] theorem Frame.carries_content (frame : Frame) (streamId : StreamId) (patch : FramePatch) :
    frame.content.Carries streamId patch ↔ frame.Carries streamId patch := Iff.rfl

/-- A map is iterated in one order as long as its keys stay. -/
def SessionEnv.ListsKeys (env : SessionEnv) (order : List StreamId → List StreamId) : Prop :=
  ∀ entries, (env.order entries).map Prod.fst = order (entries.map Prod.fst)

/-- What the patches of a stream depend on. -/
def Stream.source (stream : Stream) :
    StreamId × StreamState × StreamConfig × Option DataDocument :=
  (stream.id, stream.state, stream.config, stream.sourceData)

namespace Stream
variable {stream stream' : Stream}

theorem computePriority_congr (h : stream.config = stream'.config) :
    stream.computePriority = stream'.computePriority := by
  funext path value
  rw [computePriority, computePriority, h]

theorem collectPatches_congr (h : stream.config = stream'.config) (threshold : Priority)
    (d : JsonData) (path : JsonPath) :
    stream.collectPatches threshold d path = stream'.collectPatches threshold d path := by
  have hleaf : ∀ data path,
      stream.collectLeaf threshold data path = stream'.collectLeaf threshold data path := by
    intro data path
    rw [collectLeaf, collectLeaf, computePriority_congr h]
  induction d using Doc.induction generalizing path with
  | scalar s =>
    rw [collectPatches, collectPatches]
    exact hleaf (.scalar s) path
  | array xs =>
    rw [collectPatches, collectPatches]
    exact hleaf (.array xs) path
  | object m ih =>
    rw [collectPatches, collectPatches]
    induction m with
    | nil => rfl
    | cons e m ihm =>
      obtain ⟨k, v⟩ := e
      rw [collectFieldPatches, collectFieldPatches, ihm fun j w hj => ih j w (by simp [hj])]
      cases path.appendKey k with
      | error e => rfl
      | ok p => simp only [ih k v (by simp) p]

theorem extractPrioritizedPatches_congr (h : stream.source = stream'.source)
    (threshold : Priority) :
    stream.extractPrioritizedPatches threshold = stream'.extractPrioritizedPatches threshold := by
  obtain ⟨-, hstate, hconfig, hdata⟩ : stream.id = stream'.id ∧ stream.state = stream'.state ∧
      stream.config = stream'.config ∧ stream.sourceData = stream'.sourceData := by
    simpa [source] using h
  unfold extractPrioritizedPatches extractPatches
  simp only [hstate, hdata, collectPatches_congr hconfig]

/-- A patch frame takes a number and changes nothing its successors depend on. -/
theorem finalizePatchFrame_eq_ok (env : Env) (hs : stream.state = .streaming) (priority : Priority)
    {framePatches : List FramePatch} (hne : framePatches ≠ []) :
    ∃ frame stream', stream.finalizePatchFrame env priority framePatches = (.ok frame, stream') ∧
      stream'.source = stream.source ∧
      frame.content = ⟨stream.id, .patch, priority, 0, .epoch,
        .object [("patches", .array (framePatches.map FramePatch.toPayload))], .empty⟩ := by
  have hempty : framePatches.isEmpty = false := by simpa using hne
  simp only [finalizePatchFrame, hs, Frame.patch, hempty, ne_eq, not_true, if_false]
  exact ⟨_, _, rfl, rfl, rfl⟩

end Stream

namespace StreamSession

/-- What the candidates of a session depend on. -/
def sources (session : StreamSession) :
    AssocMap StreamId (StreamId × StreamState × StreamConfig × Option DataDocument) :=
  session.streams.mapVal Stream.source

/-- The frame of a candidate but for its sequence number and its timestamp. -/
def Candidate.content (c : Candidate) : Frame :=
  ⟨c.streamId, .patch, c.priority, 0, .epoch,
    .object [("patches", .array (c.framePatches.map FramePatch.toPayload))], .empty⟩

/-- The candidate's stream is streaming and there is something to send. -/
def Candidate.Live (m : AssocMap StreamId Stream) (c : Candidate) : Prop :=
  (∃ stream, m.get? c.streamId = some stream ∧ stream.id = c.streamId ∧
    stream.state = .streaming) ∧ c.framePatches ≠ []

theorem Candidate.Live.congr {m m' : AssocMap StreamId Stream} {c : Candidate} (h : c.Live m)
    (hm : m'.mapVal Stream.source = m.mapVal Stream.source) : c.Live m' := by
  obtain ⟨⟨stream, hget, hid, hs⟩, hne⟩ := h
  obtain ⟨stream', hget', heq⟩ := AssocMap.exists_get?_of_mapVal_eq hm hget
  obtain ⟨hid', hs', -⟩ : stream'.id = stream.id ∧ stream'.state = stream.state ∧ _ := by
    simpa [Stream.source] using heq
  exact ⟨⟨stream', hget', hid'.trans hid, hs'.trans hs⟩, hne⟩

/-- Every candidate becomes its frame, and the streams keep what candidates depend on. -/
theorem finalizeCandidates_content (env : Env) {m : AssocMap StreamId Stream} {cs : List Candidate}
    (h : ∀ c ∈ cs, c.Live m) :
    (finalizeCandidates env m cs).1.map (fun f => (f.1, f.2.content)) =
        cs.map (fun c => (c.priority, c.content)) ∧
      (finalizeCandidates env m cs).2.mapVal Stream.source = m.mapVal Stream.source := by
  induction cs generalizing env m with
  | nil => exact ⟨rfl, rfl⟩
  | cons c cs ih =>
    obtain ⟨⟨stream, hget, hid, hs⟩, hne⟩ := h c (by simp)
    obtain ⟨frame, stream', hfin, hsource, hcontent⟩ :=
      stream.finalizePatchFrame_eq_ok env hs c.priority hne
    have hm : (m.insert c.streamId stream').mapVal Stream.source = m.mapVal Stream.source := by
      rw [AssocMap.mapVal_insert, hsource]
      apply AssocMap.insert_of_get?
      rw [AssocMap.get?_mapVal, hget, Option.map_some]
    obtain ⟨hmap, hkeep⟩ := ih (env.later 2) (m := m.insert c.streamId stream') fun d hd =>
      (h d (by simp [hd])).congr hm
    rw [finalizeCandidates, hget]
    simp only [hfin, List.map_cons, hmap, hkeep, hm, hcontent, hid, Candidate.content, and_self]

/-- What a batch of the candidates returns, but for sequence numbers and timestamps. -/
def batchContent (cs : List Candidate) : List Frame :=
  (Lists.sortDesc Prod.fst (cs.map fun c => (c.priority, c.content))).map Prod.snd

section Survivors
variable {cs : List Candidate} {batchSize : ℕ}

theorem survivors_sublist : (survivors cs batchSize).Sublist cs := by
  have hsub := (List.filter_sublist (l := cs.zipIdx) (p := fun e => e.2 ∈
    ((Lists.sortDesc (fun e => e.1.priority) cs.zipIdx).take batchSize).map Prod.snd)).map Prod.fst
  rwa [List.zipIdx_map_fst] at hsub

theorem length_survivors_le : (survivors cs batchSize).length ≤ batchSize := by
  set keep := ((Lists.sortDesc (fun e => e.1.priority) cs.zipIdx).take batchSize).map Prod.snd
    with hkeep
  have hn : ((cs.zipIdx.filter fun e => e.2 ∈ keep).map Prod.snd).Nodup := by
    refine List.Nodup.sublist (List.filter_sublist.map Prod.snd) ?_
    rw [List.zipIdx_map_snd]
    exact List.nodup_range'
  have hsub : (cs.zipIdx.filter fun e => e.2 ∈ keep).map Prod.snd ⊆ keep := by
    intro i hi
    obtain ⟨e, he, rfl⟩ := List.mem_map.mp hi
    simpa using (List.mem_filter.mp he).2
  have hle := (hn.subperm hsub).length_le
  have hlen : keep.length ≤ batchSize := by
    rw [hkeep, List.length_map]
    exact List.length_take_le _ _
  calc (survivors cs batchSize).length
      = ((cs.zipIdx.filter fun e => e.2 ∈ keep).map Prod.snd).length := by
        rw [survivors, List.length_map, List.length_map]
    _ ≤ keep.length := hle
    _ ≤ batchSize := hlen

/-- Nothing is cut when there is room for every candidate. -/
theorem survivors_eq_self (h : cs.length ≤ batchSize) : survivors cs batchSize = cs := by
  have hlen : (Lists.sortDesc (fun e => e.1.priority) cs.zipIdx).length ≤ batchSize := by
    rw [(Lists.sortDesc_perm _ _).length_eq, List.length_zipIdx]
    exact h
  have hall : cs.zipIdx.filter (fun e => e.2 ∈
      ((Lists.sortDesc (fun e => e.1.priority) cs.zipIdx).take batchSize).map Prod.snd) =
      cs.zipIdx := by
    rw [List.filter_eq_self]
    intro e he
    rw [List.take_of_length_le hlen, decide_eq_true_eq]
    exact List.mem_map_of_mem (Lists.mem_sortDesc.mpr he)
  rw [survivors]
  simp only [hall, List.zipIdx_map_fst]

end Survivors

section Extraction
variable {session session' : StreamSession} {threshold : Priority}

/-- The patches the stream of an identifier offers to a batch. -/
def offer (session : StreamSession) (threshold : Priority) (streamId : StreamId) :
    Option (StreamId × List (FramePatch × Priority)) :=
  (session.streams.get? streamId).bind fun stream =>
    if stream.state = .streaming then
      match stream.extractPrioritizedPatches threshold with
      | .ok patches => some (streamId, patches)
      | .error _ => none
    else none

theorem extracted_eq_filterMap (env : SessionEnv) (threshold : Priority) :
    session.extractPrioritizedPatchesForActiveStreams env threshold =
      ((env.order session.streams.entries).map Prod.fst).filterMap (session.offer threshold) := by
  rw [extractPrioritizedPatchesForActiveStreams, List.filterMap_map, List.filterMap_filter]
  refine List.filterMap_congr fun e he => ?_
  have hmem := (env.order_perm _).mem_iff.mp he
  have hget : session.streams.get? e.1 = some e.2 :=
    Assoc.lookup_of_mem session.streams.nodup hmem
  unfold offer
  rw [Function.comp_apply, hget, Option.bind_some]
  exact if_congr decide_eq_true_iff rfl rfl

theorem offer_congr (h : session'.sources = session.sources) :
    session'.offer threshold = session.offer threshold := by
  funext id
  unfold offer
  cases hget : session.streams.get? id with
  | none => rw [AssocMap.get?_eq_none_of_mapVal_eq h hget]
  | some stream =>
    obtain ⟨stream', hget', heq⟩ := AssocMap.exists_get?_of_mapVal_eq h hget
    have hs : stream'.state = stream.state := congrArg (fun s => s.2.1) heq
    rw [hget', Option.bind_some, Option.bind_some, hs,
      Stream.extractPrioritizedPatches_congr heq]

theorem keys_sources (session : StreamSession) :
    session.sources.keys = session.streams.keys := AssocMap.keys_mapVal _ _

/-- Equal sources, iterated in the same order, offer the same patches. -/
theorem extracted_congr {env env' : SessionEnv} {order : List StreamId → List StreamId}
    (h : session'.sources = session.sources) (henv : env.ListsKeys order)
    (henv' : env'.ListsKeys order) :
    session'.extractPrioritizedPatchesForActiveStreams env' threshold =
      session.extractPrioritizedPatchesForActiveStreams env threshold := by
  have hkeys : session'.streams.keys = session.streams.keys := by
    rw [← keys_sources, ← keys_sources, h]
  rw [extracted_eq_filterMap, extracted_eq_filterMap, henv, henv', offer_congr h]
  exact congrArg _ (congrArg order hkeys)

theorem candidates_congr (h : session'.sources = session.sources) (extracted : Extracted) :
    session'.candidates extracted = session.candidates extracted := by
  refine List.flatMap_congr fun e _ => ?_
  cases hget : session.streams.get? e.1 with
  | none => rw [AssocMap.get?_eq_none_of_mapVal_eq h hget]
  | some stream =>
    obtain ⟨stream', hget', heq⟩ := AssocMap.exists_get?_of_mapVal_eq h hget
    have hs : stream'.state = stream.state := congrArg (fun s => s.2.1) heq
    simp only [hget', hs]

theorem offer_eq_some_iff {streamId : StreamId} {e : StreamId × List (FramePatch × Priority)} :
    session.offer threshold streamId = some e ↔ e.1 = streamId ∧
      ∃ stream, session.streams.get? streamId = some stream ∧ stream.state = .streaming ∧
        stream.extractPrioritizedPatches threshold = .ok e.2 := by
  unfold offer
  rw [Option.bind_eq_some_iff]
  constructor
  · rintro ⟨stream, hget, h⟩
    split_ifs at h with hs
    split at h
    · rename_i patches hok
      cases h
      exact ⟨rfl, stream, hget, hs, hok⟩
    · cases h
  · rintro ⟨rfl, stream, hget, hs, hok⟩
    exact ⟨stream, hget, by rw [if_pos hs, hok]⟩

theorem mem_extracted {env : SessionEnv} {e : StreamId × List (FramePatch × Priority)}
    (h : e ∈ session.extractPrioritizedPatchesForActiveStreams env threshold) :
    ∃ stream, session.streams.get? e.1 = some stream ∧ stream.state = .streaming ∧
      stream.extractPrioritizedPatches threshold = .ok e.2 := by
  rw [extracted_eq_filterMap, List.mem_filterMap] at h
  obtain ⟨id, -, ho⟩ := h
  obtain ⟨rfl, hstream⟩ := offer_eq_some_iff.mp ho
  exact hstream

theorem nodup_extracted (env : SessionEnv) (threshold : Priority) :
    ((session.extractPrioritizedPatchesForActiveStreams env threshold).map Prod.fst).Nodup := by
  have hkeys : ((env.order session.streams.entries).map Prod.fst).Nodup :=
    ((env.order_perm _).map Prod.fst).nodup_iff.mpr session.streams.nodup
  rw [extracted_eq_filterMap, List.map_filterMap]
  refine hkeys.filterMap fun i j id hi hj => ?_
  obtain ⟨e, he, rfl⟩ := Option.map_eq_some_iff.mp hi
  obtain ⟨e', he', hid⟩ := Option.map_eq_some_iff.mp hj
  rw [← (offer_eq_some_iff.mp he).1, ← (offer_eq_some_iff.mp he').1, hid]

/-- The candidates of streams that are streaming: their patches, at most five chunks each. -/
theorem candidates_extracted (env : SessionEnv) (threshold : Priority) :
    session.candidates (session.extractPrioritizedPatchesForActiveStreams env threshold) =
      (session.extractPrioritizedPatchesForActiveStreams env threshold).flatMap fun e =>
        (Stream.chunkPatchesForCommit e.2 5).map fun c => ⟨c.1, e.1, c.2⟩ := by
  refine List.flatMap_congr fun e he => ?_
  obtain ⟨stream, hget, hs, -⟩ := mem_extracted he
  simp only [hget, hs, ne_eq, not_true, if_false]

theorem live_of_mem_candidates (hk : WellKeyed session.streams) {extracted : Extracted}
    {c : Candidate} (h : c ∈ session.candidates extracted) : c.Live session.streams := by
  unfold candidates at h
  obtain ⟨e, -, hc⟩ := List.mem_flatMap.mp h
  cases hget : session.streams.get? e.1 with
  | none => simp [hget] at hc
  | some stream =>
    simp only [hget] at hc
    split_ifs at hc with hs
    · cases hc
    · obtain ⟨chunk, hchunk, rfl⟩ := List.mem_map.mp hc
      exact ⟨⟨stream, hget, hk _ _ hget, not_not.mp hs⟩,
        Stream.ne_nil_of_mem_chunkPatchesForCommit hchunk⟩

/-- The places the candidates would write to. -/
def slots (cs : List Candidate) : List (StreamId × JsonPath) :=
  cs.flatMap fun c => c.framePatches.map fun patch => (c.streamId, patch.path)

theorem slots_candidates (env : SessionEnv) (threshold : Priority) :
    slots (session.candidates
        (session.extractPrioritizedPatchesForActiveStreams env threshold)) =
      (session.extractPrioritizedPatchesForActiveStreams env threshold).flatMap fun e =>
        e.2.map fun p => (e.1, p.1.path) := by
  rw [candidates_extracted, slots, List.flatMap_assoc]
  refine List.flatMap_congr fun e _ => ?_
  have hchunks := Stream.flatMap_chunkPatchesForCommit e.2 (show 1 ≤ 5 by omega)
  calc _ = ((Stream.chunkPatchesForCommit e.2 5).flatMap Prod.snd).map
        fun patch => (e.1, patch.path) := by
        rw [List.flatMap_map, List.map_flatMap]
    _ = e.2.map fun p => (e.1, p.1.path) := by
        rw [hchunks, List.map_map]
        rfl

/-- No two candidates write to the same place. -/
theorem nodup_slots_candidates (env : SessionEnv) (threshold : Priority) :
    (slots (session.candidates
      (session.extractPrioritizedPatchesForActiveStreams env threshold))).Nodup := by
  rw [slots_candidates, List.nodup_flatMap]
  constructor
  · intro e he
    obtain ⟨stream, -, hs, hok⟩ := mem_extracted he
    unfold Stream.extractPrioritizedPatches at hok
    rw [if_neg (not_not.mpr hs)] at hok
    split at hok
    · cases hok
    · rename_i d hd
      have hpatches := stream.nodup_extractPatches d threshold
      rw [Except.ok.injEq] at hok
      rw [hok] at hpatches
      have hpairs := hpatches.map (f := fun path => (e.1, path)) fun p q h => (Prod.mk.inj h).2
      rwa [List.map_map] at hpairs
  · refine (List.pairwise_map.mp (nodup_extracted env threshold)).imp fun {a b} hab => ?_
    rw [Function.onFun, List.disjoint_left]
    intro slot ha hb
    obtain ⟨p, -, rfl⟩ := List.mem_map.mp ha
    obtain ⟨q, -, hq⟩ := List.mem_map.mp hb
    exact hab (Prod.mk.inj hq).1.symm

end Extraction

section Delivery

/-- The frames together contain every extracted patch. -/
def Delivers (frames : List Frame) (extracted : Extracted) : Prop :=
  ∀ e ∈ extracted, ∀ p ∈ e.2, ∃ frame ∈ frames, frame.Carries e.1 p.1

theorem path_eq_of_toPayload_eq {p q : FramePatch} (h : p.toPayload = q.toPayload) :
    p.path = q.path := by
  simp only [FramePatch.toPayload, Doc.object.injEq, List.cons.injEq, Prod.mk.injEq, true_and,
    Doc.scalar.injEq, DataScalar.string.injEq] at h
  exact JsonPath.toString_injective h.1

theorem Candidate.carries_content_iff {c : Candidate} {streamId : StreamId} {patch : FramePatch} :
    c.content.Carries streamId patch ↔
      c.streamId = streamId ∧ patch.toPayload ∈ c.framePatches.map FramePatch.toPayload := by
  constructor
  · rintro ⟨hid, items, hitems, hmem⟩
    simp only [Candidate.content, Doc.object.injEq, List.cons.injEq, Prod.mk.injEq, true_and,
      and_true, Doc.array.injEq] at hitems
    exact ⟨hid, hitems ▸ hmem⟩
  · rintro ⟨hid, hmem⟩
    exact ⟨hid, _, rfl, hmem⟩

theorem mem_batchContent {cs : List Candidate} {f : Frame} :
    f ∈ batchContent cs ↔ ∃ c ∈ cs, c.content = f := by
  simp [batchContent]

variable {session : StreamSession} {threshold : Priority} {env : SessionEnv} {batchSize : ℕ}

/-- A batch contains every patch only if it cuts no candidate: what a candidate writes, no other
candidate writes. -/
theorem delivers_survivors_iff {frames : List Frame}
    (h : ∀ f, f ∈ frames.map Frame.content ↔ f ∈ batchContent (survivors (session.candidates
      (session.extractPrioritizedPatchesForActiveStreams env threshold)) batchSize)) :
    Delivers frames (session.extractPrioritizedPatchesForActiveStreams env threshold) ↔
      (session.candidates
        (session.extractPrioritizedPatchesForActiveStreams env threshold)).length ≤ batchSize := by
  have hslots := @nodup_slots_candidates session env threshold
  have hplaces := @slots_candidates session env threshold
  set extracted := session.extractPrioritizedPatchesForActiveStreams env threshold with hextracted
  set cs := session.candidates extracted with hcs
  have hcarried : ∀ streamId patch, (∃ frame ∈ frames, frame.Carries streamId patch) ↔
      ∃ c ∈ survivors cs batchSize, c.content.Carries streamId patch := by
    intro streamId patch
    constructor
    · rintro ⟨frame, hframe, hc⟩
      obtain ⟨c, hmem, heq⟩ :=
        mem_batchContent.mp ((h _).mp (List.mem_map_of_mem (f := Frame.content) hframe))
      exact ⟨c, hmem, by rwa [heq, Frame.carries_content]⟩
    · rintro ⟨c, hmem, hc⟩
      obtain ⟨frame, hframe, heq⟩ := List.mem_map.mp ((h _).mpr (mem_batchContent.mpr ⟨c, hmem, rfl⟩))
      exact ⟨frame, hframe, by rwa [← Frame.carries_content, heq]⟩
  constructor
  · intro hd
    obtain ⟨cut, hperm⟩ := (@survivors_sublist cs batchSize).exists_perm_append
    have hslots := ((hperm.flatMap_right _).nodup_iff.mp hslots)
    rw [List.flatMap_append, List.nodup_append'] at hslots
    -- a cut candidate has a patch that no survivor writes
    have hnil : cut = [] := by
      by_contra hne
      obtain ⟨c, hc⟩ := List.exists_mem_of_ne_nil cut hne
      have hmem : c ∈ cs := hperm.mem_iff.mpr (List.mem_append_right _ hc)
      have hpatches : c.framePatches ≠ [] := by
        rw [hcs, candidates_extracted, List.mem_flatMap] at hmem
        obtain ⟨e, -, hmap⟩ := hmem
        obtain ⟨chunk, hchunk, rfl⟩ := List.mem_map.mp hmap
        exact Stream.ne_nil_of_mem_chunkPatchesForCommit hchunk
      obtain ⟨patch, hpatch⟩ := List.exists_mem_of_ne_nil _ hpatches
      have hcut : (c.streamId, patch.path) ∈ slots cut :=
        List.mem_flatMap.mpr ⟨c, hc, List.mem_map_of_mem hpatch⟩
      have hplace : (c.streamId, patch.path) ∈ slots cs :=
        List.mem_flatMap.mpr ⟨c, hmem, List.mem_map_of_mem hpatch⟩
      rw [hplaces, List.mem_flatMap] at hplace
      obtain ⟨e, he, hp⟩ := hplace
      obtain ⟨p, hp, hpe⟩ := List.mem_map.mp hp
      obtain ⟨c', hc', hcarries⟩ := (hcarried _ _).mp (hd e he p hp)
      obtain ⟨hid, hin⟩ := Candidate.carries_content_iff.mp hcarries
      obtain ⟨q, hq, hqp⟩ := List.mem_map.mp hin
      refine List.disjoint_left.mp hslots.2.2 (List.mem_flatMap.mpr ⟨c', hc', ?_⟩) hcut
      rw [← hpe, ← hid, ← path_eq_of_toPayload_eq hqp]
      exact List.mem_map_of_mem hq
    rw [hperm.length_eq, hnil, List.append_nil]
    exact length_survivors_le
  · intro hle e he p hp
    rw [hcarried, survivors_eq_self hle]
    have hplace : p.1 ∈ (Stream.chunkPatchesForCommit e.2 5).flatMap Prod.snd := by
      rw [Stream.flatMap_chunkPatchesForCommit e.2 (by omega)]
      exact List.mem_map_of_mem hp
    obtain ⟨chunk, hchunk, hmem⟩ := List.mem_flatMap.mp hplace
    refine ⟨⟨chunk.1, e.1, chunk.2⟩, ?_, Candidate.carries_content_iff.mpr
      ⟨rfl, List.mem_map_of_mem hmem⟩⟩
    rw [hcs, hextracted, candidates_extracted]
    exact List.mem_flatMap.mpr ⟨e, he, List.mem_map_of_mem hchunk⟩

theorem length_candidates_le (env : SessionEnv) (threshold : Priority) :
    (session.candidates
      (session.extractPrioritizedPatchesForActiveStreams env threshold)).length ≤
      5 * session.streams.values.countP fun stream => stream.state = .streaming := by
  have hchunks : ∀ patches, (Stream.chunkPatchesForCommit patches 5).length ≤ 5 := by
    intro patches
    rw [Stream.chunkPatchesForCommit]
    split
    · exact Nat.zero_le 5
    · set size := max ((patches.length + 5 - 1) / 5) 1 with hsize
      rw [List.length_map, Lists.length_toChunks (by omega)]
      have hcover : patches.length ≤ 5 * size := by omega
      calc (patches.length + size - 1) / size ≤ (size - 1 + size * 5) / size :=
            Nat.div_le_div_right (by omega)
        _ = 5 := by
            rw [Nat.add_mul_div_left _ _ (by omega), Nat.div_eq_of_lt (by omega)]
  have hextracted : (session.extractPrioritizedPatchesForActiveStreams env threshold).length ≤
      session.streams.values.countP fun stream => stream.state = .streaming := by
    have hperm := (env.order_perm session.streams.entries).countP_eq
      fun e => decide (e.2.state = .streaming)
    calc _ ≤ (env.order session.streams.entries).countP fun e => e.2.state = .streaming := by
          rw [extractPrioritizedPatchesForActiveStreams, List.countP_eq_length_filter]
          exact List.length_filterMap_le _ _
      _ = _ := by
          rw [hperm, AssocMap.values, List.countP_map]
          rfl
  rw [candidates_extracted, List.length_flatMap]
  calc _ ≤ ((session.extractPrioritizedPatchesForActiveStreams env threshold).map fun _ => 5).sum :=
        List.sum_le_sum fun e _ => by
          rw [List.length_map]
          exact hchunks e.2
    _ ≤ _ := by
        rw [List.map_const', List.sum_replicate, smul_eq_mul]
        omega

/-- A batch returns the content of the surviving candidates and keeps what the next batch
depends on. -/
theorem createPriorityFrames_content (hk : WellKeyed session.streams)
    (hactive : session.isActive (env.now 0) = true) (threshold : Priority) (batchSize : ℕ) :
    ∃ frames session', session.createPriorityFrames env threshold batchSize =
        (.ok frames, session') ∧
      frames.map Frame.content = batchContent (survivors (session.candidates
        (session.extractPrioritizedPatchesForActiveStreams env threshold)) batchSize) ∧
      session'.sources = session.sources ∧ ∀ t, session'.isActive t = session.isActive t := by
  set kept := survivors (session.candidates
    (session.extractPrioritizedPatchesForActiveStreams env threshold)) batchSize with hkept
  obtain ⟨hcontent, hsources⟩ := @finalizeCandidates_content env.toEnv _ kept
    fun c hc => live_of_mem_candidates hk (survivors_sublist.subset hc)
  rw [createPriorityFrames, commitPriorityFrames]
  simp only [hactive, Bool.not_true, Bool.false_eq_true, if_false]
  refine ⟨_, _, rfl, ?_, ?_, fun t => ?_⟩
  · have hsort := @Lists.map_sortDesc _ _ _ _ Prod.fst Prod.fst
      (fun f : Priority × Frame => (f.1, f.2.content)) (fun _ => rfl)
      (finalizeCandidates env.toEnv session.streams kept).1
    rw [batchContent, ← hcontent, ← hsort, List.map_map, List.map_map]
    rfl
  · rw [sources, streams_recordFrames]
    exact hsources
  · unfold recordFrames isActive
    simp only
    split_ifs <;> rfl

end Delivery

end StreamSession

namespace Call

section Batches
variable {session : StreamSession} {order : List StreamId → List StreamId}

/-- The frames of consecutive batches, call by call. -/
def batches (session : StreamSession) (threshold : Priority) (batchSize : ℕ)
    (envs : List SessionEnv) : List (List Frame) :=
  (journal session (envs.map fun env => ⟨env, .createPriorityFrames threshold batchSize⟩)).map
    Prod.fst

/-- All of them return the content of the first. -/
theorem batches_content (hk : WellKeyed session.streams) {env : SessionEnv}
    (henv : env.ListsKeys order) (threshold : Priority) (batchSize : ℕ) {envs : List SessionEnv}
    (hlists : ∀ e ∈ envs, e.ListsKeys order)
    (hactive : ∀ e ∈ envs, session.isActive (e.now 0) = true) :
    (batches session threshold batchSize envs).map (List.map Frame.content) =
      List.replicate envs.length (StreamSession.batchContent (StreamSession.survivors
        (session.candidates
          (session.extractPrioritizedPatchesForActiveStreams env threshold)) batchSize)) := by
  induction envs generalizing session with
  | nil => rfl
  | cons e envs ih =>
    obtain ⟨frames, session', hrun, hcontent, hsources, hstays⟩ :=
      StreamSession.createPriorityFrames_content hk (hactive e (by simp)) threshold batchSize
    have hcall : (⟨e, .createPriorityFrames threshold batchSize⟩ : Call).run session =
        (.ok (.frames frames), session') := by
      simp only [run, finish, hrun]
      rfl
    have hk' := (refines ⟨e, .createPriorityFrames threshold batchSize⟩ hk).2
    rw [hcall] at hk'
    have hrest := ih hk' (fun e he => hlists e (by simp [he]))
      fun e he => (hstays _).trans (hactive e (by simp [he]))
    rw [@StreamSession.extracted_congr _ _ _ env _ _ hsources henv henv,
      StreamSession.candidates_congr hsources] at hrest
    rw [StreamSession.extracted_congr rfl henv (hlists e (by simp))] at hcontent
    rw [batches, List.map_cons, journal, hcall]
    simp only [List.map_cons, List.length_cons, List.replicate_succ]
    exact congrArg₂ List.cons hcontent hrest

/-- Repeated batches contain no more than one of them. -/
theorem delivers_batches_iff (hk : WellKeyed session.streams) {env : SessionEnv}
    (henv : env.ListsKeys order) (threshold : Priority) (batchSize : ℕ) {envs : List SessionEnv}
    (hlists : ∀ e ∈ envs, e.ListsKeys order)
    (hactive : ∀ e ∈ envs, session.isActive (e.now 0) = true)
    (hcalls : envs = [] → session.candidates
      (session.extractPrioritizedPatchesForActiveStreams env threshold) = []) :
    StreamSession.Delivers (batches session threshold batchSize envs).flatten
        (session.extractPrioritizedPatchesForActiveStreams env threshold) ↔
      (session.candidates
        (session.extractPrioritizedPatchesForActiveStreams env threshold)).length ≤ batchSize := by
  refine StreamSession.delivers_survivors_iff fun f => ?_
  rw [List.map_flatten, batches_content hk henv threshold batchSize hlists hactive,
    List.mem_flatten]
  constructor
  · rintro ⟨l, hl, hf⟩
    rwa [List.eq_of_mem_replicate hl] at hf
  · intro hf
    refine ⟨_, List.mem_replicate.mpr ⟨fun hzero => ?_, rfl⟩, hf⟩
    have hnone := hcalls (List.length_eq_zero_iff.mp hzero)
    obtain ⟨c, hc, -⟩ := StreamSession.mem_batchContent.mp hf
    have hmem := StreamSession.survivors_sublist.subset hc
    rw [hnone] at hmem
    cases hmem

variable {config : SessionConfig} {sessionId : SessionId} {now : DateTime}

/-- Consecutive batches return the same frames under new numbers, so together they contain every
patch exactly if one batch has room for all candidates. -/
theorem batches_deliver_iff (h : StreamSession.withTimeProvider config sessionId now = some session)
    (calls : List Call) (threshold : Priority) {batchSize : ℕ} (hb : 1 ≤ batchSize)
    {env : SessionEnv} (henv : env.ListsKeys order) {envs : List SessionEnv}
    (hlists : ∀ e ∈ envs, e.ListsKeys order)
    (hactive : ∀ e ∈ envs, (after session calls).isActive (e.now 0) = true)
    (hlen : envs.length = (5 * ((after session calls).streams.values.countP fun stream =>
      stream.state = .streaming) + batchSize - 1) / batchSize) :
    let current := after session calls
    let returned := batches current threshold batchSize envs
    let extracted := current.extractPrioritizedPatchesForActiveStreams env threshold
    (∀ frames ∈ returned, ∀ frames' ∈ returned,
      frames.map Frame.content = frames'.map Frame.content) ∧
    (StreamSession.Delivers returned.flatten extracted ↔
      (current.candidates extracted).length ≤ batchSize) ∧
    (current.candidates extracted).length ≤
      5 * current.streams.values.countP fun stream => stream.state = .streaming := by
  intro current returned extracted
  have hk : WellKeyed current.streams := wellKeyed_of_run h calls
  change ∀ e ∈ envs, current.isActive (e.now 0) = true at hactive
  change envs.length = (5 * (current.streams.values.countP fun stream =>
    stream.state = .streaming) + batchSize - 1) / batchSize at hlen
  have hbound : (current.candidates extracted).length ≤
      5 * current.streams.values.countP fun stream => stream.state = .streaming :=
    StreamSession.length_candidates_le env threshold
  refine ⟨fun frames hf frames' hf' => ?_, ?_, hbound⟩
  · have hbatches := batches_content hk henv threshold batchSize hlists hactive
    have hsame : ∀ l ∈ returned, l.map Frame.content = StreamSession.batchContent
        (StreamSession.survivors (current.candidates extracted) batchSize) := fun l hl =>
      List.eq_of_mem_replicate (hbatches ▸ List.mem_map_of_mem (f := List.map Frame.content) hl)
    rw [hsame frames hf, hsame frames' hf']
  · refine delivers_batches_iff hk henv threshold batchSize hlists hactive fun hnil => ?_
    -- no call is due when no stream is streaming
    rw [hnil, List.length_nil] at hlen
    have hlt := (Nat.div_eq_zero_iff_lt (by omega)).mp hlen.symm
    have hnone : (current.candidates extracted).length = 0 := by omega
    exact List.length_eq_zero_iff.mp hnone

/-- A session that streams one document of three leaves. -/
def batching (uuid : StreamId) (t : DateTime) : List Call :=
  [⟨.still uuid t, .activate⟩, ⟨.still uuid t, .createStream Stream.userDocument⟩,
    ⟨.still uuid t, .startStream uuid⟩]

theorem batches_deliver_iff_batching :
    let current := after StreamSession.atEpoch (batching ⟨1⟩ .epoch)
    let env := SessionEnv.still ⟨1⟩ .epoch
    let returned := batches current .minimum 2 (List.replicate 3 env)
    let extracted := current.extractPrioritizedPatchesForActiveStreams env .minimum
    (∀ frames ∈ returned, ∀ frames' ∈ returned,
      frames.map Frame.content = frames'.map Frame.content) ∧
    (StreamSession.Delivers returned.flatten extracted ↔
      (current.candidates extracted).length ≤ 2) ∧
    (current.candidates extracted).length ≤
      5 * current.streams.values.countP fun stream => stream.state = .streaming := by
  refine batches_deliver_iff StreamSession.withTimeProvider_atEpoch (batching ⟨1⟩ .epoch) .minimum
    (by omega) (show SessionEnv.ListsKeys _ id from fun _ => rfl) (fun e he => ?_) (fun e he => ?_) ?_
  · rw [List.eq_of_mem_replicate he]
    exact fun _ => rfl
  · rw [List.eq_of_mem_replicate he]
    rfl
  · rfl

/-- One frame a call: all five calls return the frame of `id`, none the other two leaves. -/
theorem batches_starve :
    let current := after StreamSession.atEpoch (batching ⟨1⟩ .epoch)
    let env := SessionEnv.still ⟨1⟩ .epoch
    current.isActive (env.now 0) = true ∧
    (current.streams.values.countP fun stream => stream.state = .streaming) = 1 ∧
    ¬ StreamSession.Delivers (batches current .minimum 1 (List.replicate 5 env)).flatten
      (current.extractPrioritizedPatchesForActiveStreams env .minimum) := by
  have hk := wellKeyed_of_run StreamSession.withTimeProvider_atEpoch (batching ⟨1⟩ .epoch)
  refine ⟨rfl, rfl, fun hd => ?_⟩
  rw [delivers_batches_iff hk (show SessionEnv.ListsKeys _ id from fun _ => rfl)] at hd
  · exact absurd hd (by decide +kernel)
  · intro e he
    rw [List.eq_of_mem_replicate he]
    exact fun _ => rfl
  · intro e he
    rw [List.eq_of_mem_replicate he]
    rfl
  · intro hnil
    cases hnil

end Batches

end Call

end PJS
