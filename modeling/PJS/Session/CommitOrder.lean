import PJS.Session.Batches

/-! The sequence numbers of committed frames: they start where the stream stood, increase in the
order in which a method returns the frames of the stream, and end below where it stands then. -/
namespace PJS

/-- The number of the next frame of a stream. -/
def nextSequenceOf (m : AssocMap StreamId Stream) (id : StreamId) : ℕ :=
  ((m.get? id).map Stream.nextSequence).getD 0

theorem nextSequenceOf_insert (m : AssocMap StreamId Stream) (id j : StreamId) (stream : Stream) :
    nextSequenceOf (m.insert id stream) j =
      if j = id then stream.nextSequence else nextSequenceOf m j := by
  rw [nextSequenceOf, AssocMap.get?_insert]
  split_ifs <;> rfl

/-- The frames took the numbers between the streams before and after, in order. -/
structure Numbers (m m' : AssocMap StreamId Stream) (frames : List Frame) : Prop where
  mono : ∀ id, nextSequenceOf m id ≤ nextSequenceOf m' id
  range : ∀ f ∈ frames, nextSequenceOf m f.streamId ≤ f.sequence ∧
    f.sequence < nextSequenceOf m' f.streamId
  ordered : ∀ id, (frames.filter fun f => f.streamId = id).Pairwise (·.sequence < ·.sequence)

theorem Commits.numbers {showFloat : Float → String} {m m' : AssocMap StreamId Stream}
    {frames : List Frame} (h : Commits showFloat m frames m') : Numbers m m' frames := by
  induction h with
  | nil m => exact ⟨fun _ => le_rfl, by simp, fun _ => List.Pairwise.nil⟩
  | @cons m m' stream stream' frame frames hget hcommit _ ih =>
    have hat : nextSequenceOf m frame.streamId = stream.nextSequence := by
      rw [nextSequenceOf, hget, Option.map_some, Option.getD_some]
    have hnext : stream'.nextSequence = stream.nextSequence + 1 :=
      congrArg Row.nextSequence hcommit.row
    have hfirst := ih.mono frame.streamId
    rw [nextSequenceOf_insert, if_pos rfl] at hfirst
    have hmono : ∀ id, nextSequenceOf m id ≤ nextSequenceOf (m.insert frame.streamId stream') id := by
      intro id
      rw [nextSequenceOf_insert]
      split_ifs with hid
      · rw [hid, hat]
        omega
      · exact le_rfl
    have hseq := hcommit.sequence
    refine ⟨fun id => (hmono id).trans (ih.mono id), fun f hf => ?_, fun id => ?_⟩
    · rcases List.mem_cons.mp hf with rfl | hf
      · constructor <;> omega
      · obtain ⟨hlower, hupper⟩ := ih.range f hf
        exact ⟨(hmono f.streamId).trans hlower, hupper⟩
    · rw [List.filter_cons]
      split_ifs with hid
      · rw [decide_eq_true_eq] at hid
        refine List.pairwise_cons.mpr ⟨fun f hf => ?_, ih.ordered id⟩
        obtain ⟨hf, hfid⟩ := List.mem_filter.mp hf
        rw [decide_eq_true_eq] at hfid
        have hlower := (ih.range f hf).1
        rw [nextSequenceOf_insert, if_pos (hfid.trans hid.symm)] at hlower
        omega
      · exact ih.ordered id

theorem nextSequenceOf_eq (m : AssocMap StreamId Stream) (id : StreamId) :
    nextSequenceOf m id = (((m.mapVal Stream.row).get? id).map Row.nextSequence).getD 0 := by
  rw [nextSequenceOf, AssocMap.get?_mapVal, Option.map_map]
  rfl

/-- Only a stream that is filed under an old identifier, or a wipe, takes a number back. -/
theorem StreamSession.Took.nextSequence_le {session m : StreamSession} {entry : Ledger.Entry}
    (h : session.Took entry m) (hfresh : ∀ id, entry = .create id → id ∉ session.streams.keys)
    (hwipe : entry ≠ .wipe) (id : StreamId) :
    nextSequenceOf session.streams id ≤ nextSequenceOf m.streams id := by
  have hrows : m.streams.mapVal Stream.row = (session.ledger.post entry).rows :=
    congrArg Ledger.rows h.ledger
  rw [nextSequenceOf_eq, nextSequenceOf_eq, hrows]
  change ((session.ledger.rows.get? id).map Row.nextSequence).getD 0 ≤ _
  have hmodify : ∀ (j : StreamId) (f : Row → Row), (∀ r, r.nextSequence ≤ (f r).nextSequence) →
      ((session.ledger.rows.get? id).map Row.nextSequence).getD 0 ≤
        (((session.ledger.rows.modify j f).get? id).map Row.nextSequence).getD 0 := by
    intro j f hf
    rw [AssocMap.get?_modify]
    split_ifs
    · cases session.ledger.rows.get? id with
      | none => exact le_rfl
      | some r => exact hf r
    · exact le_rfl
  cases entry with
  | activate => exact le_rfl
  | create j =>
    simp only [Ledger.post, AssocMap.get?_insert]
    split_ifs with hid
    · have hnone : session.streams.get? id = none := by
        by_contra hne
        obtain ⟨stream, hget⟩ := Option.ne_none_iff_exists'.mp hne
        exact hfresh j rfl (hid ▸ AssocMap.mem_keys_iff.mpr ⟨stream, hget⟩)
      change (((session.streams.mapVal Stream.row).get? id).map Row.nextSequence).getD 0 ≤ _
      rw [AssocMap.get?_mapVal, hnone]
      exact Nat.zero_le _
    · exact le_rfl
  | start j => exact hmodify j _ fun r => le_rfl
  | complete j => exact hmodify j _ fun r => le_rfl
  | fail j => exact hmodify j _ fun r => le_rfl
  | emit j sequence bytes => exact hmodify j _ fun r => Nat.le_succ _
  | close =>
    simp only [Ledger.post, AssocMap.get?_mapVal]
    cases session.ledger.rows.get? id with
    | none => exact le_rfl
    | some r =>
      change r.nextSequence ≤ r.cancel.nextSequence
      unfold Row.cancel
      split_ifs <;> exact le_rfl
  | wipe => exact absurd rfl hwipe

/-- An entry that commits no frames takes no numbers. -/
theorem StreamSession.Took.numbers {session m : StreamSession} {entry : Ledger.Entry}
    (h : session.Took entry m) (hfresh : ∀ id, entry = .create id → id ∉ session.streams.keys)
    (hwipe : entry ≠ .wipe) : Numbers session.streams m.streams [] where
  mono := h.nextSequence_le hfresh hwipe
  range := by simp
  ordered _ := List.Pairwise.nil

namespace Stream

/-- A chunk's priority is at least that of the chunks after it. -/
theorem pairwise_chunkPatchesForCommit {patches : List (FramePatch × Priority)}
    (h : patches.Pairwise fun a b => b.2 ≤ a.2) (maxFrames : ℕ) :
    (chunkPatchesForCommit patches maxFrames).Pairwise fun a b => b.1 ≤ a.1 := by
  unfold chunkPatchesForCommit
  split_ifs
  · exact List.Pairwise.nil
  · set size := max ((patches.length + maxFrames - 1) / maxFrames) 1
    rw [← Lists.flatten_toChunks size patches, List.pairwise_flatten] at h
    have htop : ∀ chunk ∈ patches.toChunks size, ∃ p ∈ chunk,
        (chunk.map Prod.snd).max?.getD .medium = p.2 := by
      intro chunk hchunk
      obtain ⟨top, hmax⟩ : ∃ top, (chunk.map Prod.snd).max? = some top := by
        rw [← Option.isSome_iff_exists, List.isSome_max?_iff]
        simpa using Lists.ne_nil_of_mem_toChunks hchunk
      obtain ⟨p, hp, heq⟩ := List.mem_map.mp (List.max?_mem hmax)
      exact ⟨p, hp, by rw [hmax, Option.getD_some, heq]⟩
    rw [List.pairwise_map]
    refine h.2.imp_of_mem fun {c d} hc hd hlt => ?_
    obtain ⟨p, hp, hpmax⟩ := htop c hc
    obtain ⟨q, hq, hqmax⟩ := htop d hd
    simp only [hpmax, hqmax]
    exact hlt p hp q hq

theorem streamId_of_finalizePatchFrame {env : Env} {stream stream' : Stream} {priority : Priority}
    {framePatches : List FramePatch} {frame : Frame}
    (h : stream.finalizePatchFrame env priority framePatches = (.ok frame, stream')) :
    frame.streamId = stream.id ∧ stream'.id = stream.id := by
  rcases stream.finalizePatchFrame_cases env priority framePatches with
    ⟨⟨e, he⟩, -⟩ | ⟨-, frame', stream'', hcommit, hok⟩
  · rw [he] at h
    cases h
  · rw [hok] at h
    cases h
    exact ⟨hcommit.streamId, hcommit.id⟩

theorem streamId_of_finalizeChunks {env : Env} {stream stream' : Stream}
    {chunks : List (Priority × List FramePatch)} {frames : List Frame}
    (h : stream.finalizeChunks env chunks = (.ok frames, stream')) :
    ∀ frame ∈ frames, frame.streamId = stream.id := by
  induction chunks generalizing env stream frames with
  | nil =>
    cases h
    simp
  | cons chunk chunks ih =>
    obtain ⟨priority, framePatches⟩ := chunk
    rw [finalizeChunks] at h
    cases hfirst : stream.finalizePatchFrame env priority framePatches with
    | mk result stream₁ =>
      rw [hfirst] at h
      cases result with
      | error e => cases h
      | ok frame =>
        obtain ⟨hid, hid₁⟩ := streamId_of_finalizePatchFrame hfirst
        simp only at h
        cases hrest : stream₁.finalizeChunks (env.later 2) chunks with
        | mk result stream₂ =>
          rw [hrest] at h
          cases result with
          | error e => cases h
          | ok rest =>
            cases h
            intro f hf
            rcases List.mem_cons.mp hf with rfl | hf
            · exact hid
            · exact (ih hrest f hf).trans hid₁

end Stream

namespace StreamSession

variable {session m : StreamSession} {env : SessionEnv} {frames : List Frame}

theorem streamId_of_commit (hk : WellKeyed session.streams) {streamId : StreamId}
    {patches : List (FramePatch × Priority)} {maxFrames : ℕ}
    (h : session.commitPatchFramesForStream env streamId patches maxFrames = (.ok frames, m)) :
    ∀ frame ∈ frames, frame.streamId = streamId := by
  unfold commitPatchFramesForStream withStream at h
  cases hget : session.streams.get? streamId with
  | none =>
    rw [hget] at h
    cases h
  | some stream =>
    rw [hget] at h
    simp only [commitMeasured, Stream.commitPatchFrames] at h
    by_cases hs : stream.state = .streaming
    · rw [if_neg (not_not.mpr hs)] at h
      cases hfin : stream.finalizeChunks env.toEnv
        (Stream.chunkPatchesForCommit patches maxFrames) with
      | mk result stream' =>
        rw [hfin] at h
        cases result with
        | error e => cases h
        | ok fs =>
          cases h
          intro frame hframe
          exact (Stream.streamId_of_finalizeChunks hfin frame hframe).trans (hk _ _ hget)
    · rw [if_pos hs] at h
      cases h

/-- The frames of one stream come back in the order of their numbers. -/
theorem commitPatchFramesForStream_numbers (hk : WellKeyed session.streams) {streamId : StreamId}
    {patches : List (FramePatch × Priority)} {maxFrames : ℕ}
    (h : session.commitPatchFramesForStream env streamId patches maxFrames = (.ok frames, m)) :
    (∀ frame ∈ frames, frame.streamId = streamId) ∧ Numbers session.streams m.streams frames ∧
      WellKeyed m.streams := by
  refine ⟨streamId_of_commit hk h, ?_⟩
  rcases commitPatchFramesForStream_cases env session streamId patches maxFrames with
    ⟨⟨e, he⟩, -⟩ | ⟨-, frames', m', -, -, hok, -, hemitted⟩
  · rw [he] at h
    cases h
  · rw [hok] at h
    cases h
    exact ⟨(hemitted.commits hk).numbers, (hemitted.commits hk).wellKeyed hk⟩

section Batches

/-- The frames of a batch come from its candidates, in their order. -/
theorem finalizeCandidates_sublist (env : Env) {streams : AssocMap StreamId Stream}
    (hk : WellKeyed streams) (cs : List Candidate) :
    ((finalizeCandidates env streams cs).1.map fun f => (f.1, f.2.streamId)).Sublist
      (cs.map fun c => (c.priority, c.streamId)) := by
  induction cs generalizing env streams with
  | nil => exact List.Sublist.slnil
  | cons c cs ih =>
    rw [finalizeCandidates, List.map_cons]
    cases hget : streams.get? c.streamId with
    | none => exact (ih env hk).cons _
    | some stream =>
      have hid := hk c.streamId stream hget
      rcases stream.finalizePatchFrame_cases env c.priority c.framePatches with
        ⟨⟨e, he⟩, -⟩ | ⟨-, frame, stream', hcommit, hok⟩
      · simp only [he, AssocMap.insert_of_get? hget]
        exact (ih env hk).cons _
      · simp only [hok, List.map_cons, hcommit.streamId.trans hid]
        exact (ih (env.later 2) (hk.insert (hcommit.id.trans hid))).cons_cons _

/-- Patches of distinct streams, those of each stream in descending order. -/
structure DescendingByStream (extracted : Extracted) : Prop where
  nodup : (extracted.map Prod.fst).Nodup
  descending : ∀ e ∈ extracted, e.2.Pairwise fun a b => b.2 ≤ a.2

theorem descending_extracted (session : StreamSession) (env : SessionEnv) (threshold : Priority) :
    DescendingByStream (session.extractPrioritizedPatchesForActiveStreams env threshold) := by
  refine ⟨nodup_extracted env threshold, fun e he => ?_⟩
  obtain ⟨stream, -, hs, hok⟩ := mem_extracted he
  rw [Stream.extractPrioritizedPatches, if_neg (not_not.mpr hs)] at hok
  cases hdata : stream.sourceData with
  | none =>
    rw [hdata] at hok
    cases hok
  | some data =>
    rw [hdata] at hok
    rw [← Except.ok.inj hok]
    exact Lists.pairwise_sortDesc _ _

/-- The candidates of one stream come in descending order of priority. -/
theorem pairwise_candidates {extracted : Extracted} (h : DescendingByStream extracted) (id : StreamId) :
    ((session.candidates extracted).filter fun c => c.streamId = id).Pairwise
      fun a b => b.priority ≤ a.priority := by
  induction extracted with
  | nil => exact List.Pairwise.nil
  | cons e extracted ih =>
    have hnodup := h.nodup
    rw [List.map_cons, List.nodup_cons] at hnodup
    have hrest : DescendingByStream extracted := ⟨hnodup.2, fun e' he' => h.descending e' (by simp [he'])⟩
    have hsplit : session.candidates (e :: extracted) =
        session.candidates [e] ++ session.candidates extracted := by
      simp [candidates]
    have hids : ∀ {es : Extracted}, ∀ c ∈ session.candidates es, c.streamId ∈ es.map Prod.fst := by
      intro es c hc
      obtain ⟨e', he', hc⟩ := List.mem_flatMap.mp hc
      have hid : c.streamId = e'.1 := by
        cases hget : session.streams.get? e'.1 with
        | none => simp [hget] at hc
        | some stream =>
          simp only [hget] at hc
          split_ifs at hc
          · cases hc
          · obtain ⟨chunk, -, rfl⟩ := List.mem_map.mp hc
            rfl
      rw [hid]
      exact List.mem_map_of_mem he'
    rw [hsplit, List.filter_append]
    by_cases hid : e.1 = id
    · have hnone : (session.candidates extracted).filter (fun c => c.streamId = id) = [] := by
        refine List.filter_eq_nil_iff.mpr fun c hc hcid => hnodup.1 ?_
        rw [hid, ← of_decide_eq_true hcid]
        exact hids c hc
      rw [hnone, List.append_nil]
      refine List.Pairwise.filter _ ?_
      simp only [candidates, List.flatMap_cons, List.flatMap_nil, List.append_nil]
      split
      · exact List.Pairwise.nil
      · split_ifs
        · exact List.Pairwise.nil
        · rw [List.pairwise_map]
          exact Stream.pairwise_chunkPatchesForCommit (h.descending e (by simp)) 5
    · have hnone : (session.candidates [e]).filter (fun c => c.streamId = id) = [] := by
        refine List.filter_eq_nil_iff.mpr fun c hc hcid => hid ?_
        have hmem := hids c hc
        rw [of_decide_eq_true hcid, List.map_singleton, List.mem_singleton] at hmem
        exact hmem.symm
      rw [hnone, List.nil_append]
      exact ih hrest

/-- A batch returns its frames by priority, and those of each stream in the order of their
numbers. -/
theorem commitPriorityFrames_numbers (hk : WellKeyed session.streams) {extracted : Extracted}
    (hordered : DescendingByStream extracted) {batchSize : ℕ}
    (h : session.commitPriorityFrames env extracted batchSize = (.ok frames, m)) :
    Numbers session.streams m.streams frames ∧ WellKeyed m.streams := by
  unfold commitPriorityFrames at h
  split_ifs at h
  · cases h
  set kept := survivors (session.candidates extracted) batchSize with hkept
  have hcommits := commits_finalizeCandidates env.toEnv hk kept
  have hsublist := finalizeCandidates_sublist env.toEnv hk kept
  set r := finalizeCandidates env.toEnv session.streams kept with hr
  obtain ⟨rfl, rfl⟩ : (Lists.sortDesc Prod.fst r.1).map Prod.snd = frames ∧
      StreamSession.recordFrames { env with now := fun i => env.now (1 + i) }
        { session with streams := r.2 } ((Lists.sortDesc Prod.fst r.1).map Prod.snd).length
        (((Lists.sortDesc Prod.fst r.1).map Prod.snd).map fun frame =>
          frame.estimatedSize env.showFloat).sum = m := by
    cases h
    exact ⟨rfl, rfl⟩
  rw [streams_recordFrames]
  refine ⟨?_, hcommits.wellKeyed hk⟩
  have hnumbers := hcommits.numbers
  have hperm := (Lists.sortDesc_perm Prod.fst r.1).map Prod.snd
  refine ⟨hnumbers.mono, fun f hf => hnumbers.range f (hperm.mem_iff.mp hf), fun id => ?_⟩
  -- the sort is stable, and the candidates of the stream are in its order already
  have hpriorities : (r.1.filter fun f => f.2.streamId = id).Pairwise
      fun a b => b.1 ≤ a.1 := by
    have hcandidates := (@pairwise_candidates session _ hordered id).sublist
      ((@survivors_sublist _ batchSize).filter fun c => c.streamId = id)
    rw [← hkept] at hcandidates
    have hpairs : ((kept.map fun c => (c.priority, c.streamId)).filter fun e => e.2 = id).Pairwise
        fun a b => b.1 ≤ a.1 := by
      rw [List.filter_map, List.pairwise_map]
      exact hcandidates
    have hsub := hpairs.sublist (hsublist.filter fun e => e.2 = id)
    rw [List.filter_map, List.pairwise_map] at hsub
    exact hsub
  have hsort := Lists.filter_sortDesc hpriorities
  rw [List.filter_map]
  change (((Lists.sortDesc Prod.fst r.1).filter fun f => f.2.streamId = id).map
    Prod.snd).Pairwise _
  rw [hsort]
  have hcommitted := hnumbers.ordered id
  rw [List.filter_map] at hcommitted
  exact hcommitted

end Batches

end StreamSession

end PJS
