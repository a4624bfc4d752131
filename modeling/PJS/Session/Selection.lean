import PJS.Session.CommitOrder

/-! What one batch returns when its patches were extracted from an earlier state of the session:
the best candidates there are, stream by stream in the order of their numbers, and nothing else is
recorded. -/
namespace PJS

namespace Lists
variable {α β : Type*} [LinearOrder β]

theorem eq_of_perm_of_descending {l l' : List β} (h : l.Perm l') (hl : l.Pairwise fun a b => b ≤ a)
    (hl' : l'.Pairwise fun a b => b ≤ a) : l = l' :=
  h.eq_of_pairwise (fun _ _ _ _ hab hba => hba.antisymm hab) hl hl'

/-- Sorted keys are determined by the multiset of keys. -/
theorem map_sortDesc_eq_of_perm {γ : Type*} {key : α → β} {key' : γ → β} {l : List α} {l' : List γ}
    (h : (l.map key).Perm (l'.map key')) :
    (sortDesc key l).map key = (sortDesc key' l').map key' := by
  refine eq_of_perm_of_descending ?_ ?_ ?_
  · exact (((sortDesc_perm key l).map key).trans h).trans ((sortDesc_perm key' l').map key').symm
  · exact List.pairwise_map.mpr (pairwise_sortDesc key l)
  · exact List.pairwise_map.mpr (pairwise_sortDesc key' l')

/-- The keys of the first elements are the largest. -/
theorem le_of_mem_take_of_mem_drop {key : α → β} {l : List α} {n : ℕ} {a b : α}
    (ha : a ∈ (sortDesc key l).take n) (hb : b ∈ (sortDesc key l).drop n) : key b ≤ key a := by
  have hsorted := pairwise_sortDesc key l
  rw [← List.take_append_drop n (sortDesc key l)] at hsorted
  exact (List.pairwise_append.mp hsorted).2.2 a ha b hb

end Lists

/-- The statistics of a stream with these patch frames recorded. -/
def StreamStats.grow (size : Frame → ℕ) (frames : List Frame) (stats : StreamStats) :
    StreamStats :=
  let totalFrames := stats.totalFrames + frames.length
  let totalBytes := stats.totalBytes + (frames.map size).sum
  { stats with
    totalFrames
    totalBytes
    patchFrames := stats.patchFrames + frames.length
    criticalBytes := stats.criticalBytes +
      ((frames.filter fun frame => frame.priority.isCritical).map size).sum
    highPriorityBytes := stats.highPriorityBytes +
      ((frames.filter fun frame => !frame.priority.isCritical && frame.priority.isHighOrAbove).map
        size).sum
    averageFrameSize :=
      if frames.isEmpty then stats.averageFrameSize
      else Float.ofNat totalBytes / Float.ofNat totalFrames }

theorem StreamStats.grow_cons (size : Frame → ℕ) (frame : Frame) (frames : List Frame)
    (stats : StreamStats) :
    (stats.grow size [frame]).grow size frames = stats.grow size (frame :: frames) := by
  have hfilter : ∀ p : Frame → Bool, ((([frame] : List Frame).filter p).map size).sum +
      ((frames.filter p).map size).sum = (((frame :: frames).filter p).map size).sum := by
    intro p
    rw [← List.sum_append, ← List.map_append, ← List.filter_append, List.singleton_append]
  have hcount : [frame].length + frames.length = (frame :: frames).length := by
    rw [List.length_singleton, List.length_cons, Nat.add_comm]
  have hbytes : ([frame].map size).sum + (frames.map size).sum = ((frame :: frames).map size).sum := by
    rw [← List.sum_append, ← List.map_append, List.singleton_append]
  unfold grow
  simp only [Nat.add_assoc, hfilter, hcount, hbytes]
  cases frames <;> rfl

namespace Stream

/-- The stream has recorded exactly these frames, under its next sequence numbers. -/
structure GrownBy (showFloat : Float → String) (frames : List Frame) (stream stream' : Stream) :
    Prop where
  sequences : frames.map Frame.sequence = List.range' stream.nextSequence frames.length
  grown : stream' = { stream with
    nextSequence := stream.nextSequence + frames.length
    stats := stream.stats.grow (Frame.estimatedSize showFloat) frames
    updatedAt := stream'.updatedAt }
  still : frames = [] → stream' = stream

variable {showFloat : Float → String} {stream stream' stream'' : Stream} {frame : Frame}
  {frames : List Frame}

theorem grownBy_nil : GrownBy showFloat [] stream stream := ⟨rfl, rfl, fun _ => rfl⟩

theorem GrownBy.cons (h : GrownBy showFloat [frame] stream stream')
    (hs : GrownBy showFloat frames stream' stream'') :
    GrownBy showFloat (frame :: frames) stream stream'' := by
  have hnext : stream'.nextSequence = stream.nextSequence + 1 :=
    congrArg Stream.nextSequence h.grown
  refine ⟨?_, ?_, nofun⟩
  · have hfirst : frame.sequence = stream.nextSequence := (List.cons.inj h.sequences).1
    rw [List.map_cons, hs.sequences, List.length_cons, List.range'_succ, hfirst, hnext]
  · have hlength : stream.nextSequence + 1 + frames.length =
        stream.nextSequence + (frame :: frames).length := by
      rw [List.length_cons]
      omega
    rw [hs.grown, h.grown]
    simp only [List.length_singleton, hlength, StreamStats.grow_cons]

theorem recordFrameCreated_patch (env : Env) (h : frame.frameType = .patch) :
    stream.recordFrameCreated env frame = { stream with
      nextSequence := stream.nextSequence + 1
      stats := stream.stats.grow (Frame.estimatedSize env.showFloat) [frame]
      updatedAt := env.utc 0 } := by
  unfold recordFrameCreated StreamStats.grow
  rw [h]
  cases hcritical : frame.priority.isCritical with
  | true => simp [hcritical]
  | false =>
    cases hhigh : frame.priority.isHighOrAbove <;> simp [hcritical, hhigh]

/-- A patch frame of a stream that is streaming is recorded by it. -/
theorem finalizePatchFrame_grows (env : Env) (hs : stream.state = .streaming) (priority : Priority)
    {framePatches : List FramePatch} (hne : framePatches ≠ []) :
    ∃ frame stream', stream.finalizePatchFrame env priority framePatches = (.ok frame, stream') ∧
      GrownBy env.showFloat [frame] stream stream' ∧ frame.streamId = stream.id := by
  have hempty : framePatches.isEmpty = false := by simpa using hne
  simp only [finalizePatchFrame, hs, Frame.patch, hempty, ne_eq, not_true, if_false]
  refine ⟨_, _, rfl, ⟨rfl, ?_, fun h => absurd h (List.cons_ne_nil _ _)⟩, rfl⟩
  rw [recordFrameCreated_patch _ rfl]
  rfl

end Stream

namespace StreamSession

section Finalize
variable {m : AssocMap StreamId Stream} {cs : List Candidate}

/-- Every stream records the frames of its candidates, one after another. -/
theorem finalizeCandidates_grows (env : Env) (h : ∀ c ∈ cs, c.Live m) {id : StreamId}
    {stream : Stream} (hget : m.get? id = some stream) :
    ∃ stream', (finalizeCandidates env m cs).2.get? id = some stream' ∧
      stream.GrownBy env.showFloat
        (((finalizeCandidates env m cs).1.map Prod.snd).filter fun f => f.streamId = id)
        stream' := by
  induction cs generalizing env m stream with
  | nil => exact ⟨stream, hget, Stream.grownBy_nil⟩
  | cons c cs ih =>
    obtain ⟨⟨held, hheld, hid, hs⟩, hne⟩ := h c (by simp)
    obtain ⟨frame, next, hfin, hgrown, hframe⟩ :=
      held.finalizePatchFrame_grows env hs c.priority hne
    obtain ⟨frame', next', hfin', hsource, -⟩ :=
      held.finalizePatchFrame_eq_ok env hs c.priority hne
    have hsame := hfin.symm.trans hfin'
    simp only [Prod.mk.injEq, Except.ok.injEq] at hsame
    obtain ⟨-, rfl⟩ := hsame
    have hkeep : (m.insert c.streamId next).mapVal Stream.source = m.mapVal Stream.source := by
      rw [AssocMap.mapVal_insert, hsource]
      apply AssocMap.insert_of_get?
      rw [AssocMap.get?_mapVal, hheld, Option.map_some]
    have hlive : ∀ d ∈ cs, d.Live (m.insert c.streamId next) := fun d hd =>
      (h d (by simp [hd])).congr hkeep
    rw [finalizeCandidates, hheld]
    simp only [hfin, List.map_cons]
    by_cases hc : id = c.streamId
    · subst hc
      obtain rfl : held = stream := Option.some.inj (hheld.symm.trans hget)
      obtain ⟨stream', hget', hrest⟩ := ih (env.later 2) hlive (AssocMap.get?_insert_self _ _ _)
      refine ⟨stream', hget', ?_⟩
      rw [List.filter_cons_of_pos (by simpa using hframe.trans hid)]
      exact hgrown.cons hrest
    · have hother : (m.insert c.streamId next).get? id = some stream := by
        rw [AssocMap.get?_insert, if_neg hc, hget]
      obtain ⟨stream', hget', hrest⟩ := ih (env.later 2) hlive hother
      refine ⟨stream', hget', ?_⟩
      rw [List.filter_cons_of_neg (by simpa [hframe, hid] using Ne.symm hc)]
      exact hrest

end Finalize

section Chosen
variable {cs : List Candidate} {batchSize : ℕ}

/-- The survivors are the first candidates of the sorted list, in the order they had. -/
theorem survivors_perm :
    (survivors cs batchSize).Perm ((Lists.sortDesc Candidate.priority cs).take batchSize) := by
  set order := (Lists.sortDesc (fun e => e.1.priority) cs.zipIdx).take batchSize with horder
  have hindices : (cs.zipIdx.map Prod.snd).Nodup := by
    rw [List.zipIdx_map_snd]
    exact List.nodup_range'
  have hsub : ∀ e ∈ order, e ∈ cs.zipIdx := fun e he =>
    Lists.mem_sortDesc.mp (List.mem_of_mem_take he)
  have hperm : (cs.zipIdx.filter fun e => e.2 ∈ order.map Prod.snd).Perm order := by
    refine (List.perm_ext_iff_of_nodup ?_ ?_).mpr fun e => ?_
    · exact (List.Nodup.of_map _ hindices).filter _
    · refine List.Nodup.sublist (List.take_sublist _ _) ?_
      exact (Lists.sortDesc_perm _ _).nodup_iff.mpr (List.Nodup.of_map _ hindices)
    · rw [List.mem_filter, decide_eq_true_eq]
      constructor
      · rintro ⟨he, hkept⟩
        obtain ⟨e', he', hindex⟩ := List.mem_map.mp hkept
        rwa [← List.inj_on_of_nodup_map hindices (hsub e' he') he hindex]
      · exact fun he => ⟨hsub e he, List.mem_map_of_mem he⟩
  have hfst : order.map Prod.fst = (Lists.sortDesc Candidate.priority cs).take batchSize := by
    have hsort : (Lists.sortDesc (fun e : Candidate × ℕ => e.1.priority) cs.zipIdx).map Prod.fst =
        Lists.sortDesc Candidate.priority (cs.zipIdx.map Prod.fst) :=
      Lists.map_sortDesc (fun _ => rfl) cs.zipIdx
    rw [horder, List.map_take, hsort, List.zipIdx_map_fst]
  rw [← hfst]
  exact hperm.map Prod.fst

/-- Sorted by priority, the survivors have the priorities of the best candidates. -/
theorem map_priority_survivors :
    (Lists.sortDesc Candidate.priority (survivors cs batchSize)).map Candidate.priority =
      ((Lists.sortDesc Candidate.priority cs).take batchSize).map Candidate.priority := by
  refine Lists.eq_of_perm_of_descending ?_ ?_ ?_
  · exact ((Lists.sortDesc_perm _ _).trans survivors_perm).map _
  · exact List.pairwise_map.mpr (Lists.pairwise_sortDesc _ _)
  · refine List.pairwise_map.mpr ?_
    exact (Lists.pairwise_sortDesc _ _).sublist (List.take_sublist _ _)

end Chosen

section Returned
variable {session : StreamSession} {extracted : Extracted} {batchSize : ℕ}

/-- The frames of a batch: the finalized ones by priority. -/
theorem commitPriorityFrames_eq_ok (env : SessionEnv)
    (hactive : session.isActive (env.now 0) = true) (extracted : Extracted) (batchSize : ℕ) :
    ∃ session', session.commitPriorityFrames env extracted batchSize =
        (.ok ((Lists.sortDesc Prod.fst (finalizeCandidates env.toEnv session.streams
          (survivors (session.candidates extracted) batchSize)).1).map Prod.snd), session') ∧
      session'.streams = (finalizeCandidates env.toEnv session.streams
        (survivors (session.candidates extracted) batchSize)).2 := by
  unfold commitPriorityFrames
  simp only [hactive, Bool.not_true, Bool.false_eq_true, if_false]
  exact ⟨_, rfl, streams_recordFrames _ _ _ _⟩

/-- Every finalized frame has the priority and the stream of its candidate. -/
theorem finalizeCandidates_labels (env : Env) {m : AssocMap StreamId Stream} {cs : List Candidate}
    (h : ∀ c ∈ cs, c.Live m) :
    (finalizeCandidates env m cs).1.map (fun f => (f.1, f.2.priority, f.2.streamId)) =
      cs.map fun c => (c.priority, c.priority, c.streamId) := by
  have hcontent := congrArg (List.map fun p : Priority × Frame =>
    (p.1, p.2.priority, p.2.streamId)) (finalizeCandidates_content env h).1
  rw [List.map_map, List.map_map] at hcontent
  exact hcontent

/-- The finalized frames of one stream are in descending order before they are sorted. -/
theorem pairwise_finalizeCandidates (env : Env) (hk : WellKeyed session.streams)
    (hordered : DescendingByStream extracted) (batchSize : ℕ) (id : StreamId) :
    (((finalizeCandidates env session.streams
      (survivors (session.candidates extracted) batchSize)).1.filter
        fun f => f.2.streamId = id).Pairwise fun f g => g.1 ≤ f.1) := by
  set kept := survivors (session.candidates extracted) batchSize with hkept
  have hlive : ∀ c ∈ kept, c.Live session.streams := fun c hc =>
    live_of_mem_candidates hk (survivors_sublist.subset hc)
  have hlabels := congrArg (List.filter fun l : Priority × Priority × StreamId => l.2.2 = id)
    (finalizeCandidates_labels env hlive)
  rw [List.filter_map, List.filter_map] at hlabels
  have hkeys := congrArg (List.map Prod.fst) hlabels
  rw [List.map_map, List.map_map] at hkeys
  have hcandidates : ((kept.filter fun c => c.streamId = id).map Candidate.priority).Pairwise
      fun p q => q ≤ p := by
    refine List.pairwise_map.mpr ?_
    exact (pairwise_candidates hordered id).sublist (survivors_sublist.filter _)
  have hframes : (((finalizeCandidates env session.streams kept).1.filter
      fun f => f.2.streamId = id).map Prod.fst).Pairwise fun p q => q ≤ p := by
    have heq : ((finalizeCandidates env session.streams kept).1.filter
        fun f => f.2.streamId = id).map Prod.fst =
        (kept.filter fun c => c.streamId = id).map Candidate.priority := hkeys
    rw [heq]
    exact hcandidates
  exact List.pairwise_map.mp hframes

/-- A batch returns the best candidates, and every stream records its own frames among them in the
order in which they are returned. -/
theorem commitPriorityFrames_selects (env : SessionEnv) (hk : WellKeyed session.streams)
    (hordered : DescendingByStream extracted) (hactive : session.isActive (env.now 0) = true)
    (batchSize : ℕ) :
    ∃ frames session', session.commitPriorityFrames env extracted batchSize =
        (.ok frames, session') ∧
      frames.map Frame.priority = ((Lists.sortDesc Candidate.priority
        (session.candidates extracted)).take batchSize).map Candidate.priority ∧
      (∀ frame ∈ frames, ∃ stream, session.streams.get? frame.streamId = some stream ∧
        stream.state = .streaming) ∧
      (∀ id stream, session.streams.get? id = some stream →
        ∃ stream', session'.streams.get? id = some stream' ∧
          stream.GrownBy env.showFloat (frames.filter fun f => f.streamId = id) stream') ∧
      ∀ id, session.streams.get? id = none → session'.streams.get? id = none := by
  obtain ⟨session', hcommit, hstreams⟩ :=
    commitPriorityFrames_eq_ok env hactive extracted batchSize
  have hdescending := pairwise_finalizeCandidates env.toEnv hk hordered batchSize
  set kept := survivors (session.candidates extracted) batchSize with hkept
  have hlive : ∀ c ∈ kept, c.Live session.streams := fun c hc =>
    live_of_mem_candidates hk (survivors_sublist.subset hc)
  have hlabels := finalizeCandidates_labels env.toEnv hlive
  set finalized := (finalizeCandidates env.toEnv session.streams kept).1 with hfinalized
  have hof : ∀ f ∈ finalized, ∃ c ∈ kept, f.1 = c.priority ∧ f.2.priority = c.priority ∧
      f.2.streamId = c.streamId := by
    intro f hf
    have hmem := List.mem_map_of_mem (f := fun f : Priority × Frame =>
      (f.1, f.2.priority, f.2.streamId)) hf
    rw [hlabels] at hmem
    obtain ⟨c, hc, heq⟩ := List.mem_map.mp hmem
    simp only [Prod.mk.injEq] at heq
    exact ⟨c, hc, heq.1.symm, heq.2.1.symm, heq.2.2.symm⟩
  refine ⟨_, session', hcommit, ?_, ?_, ?_, ?_⟩
  · have hpriority : ((Lists.sortDesc Prod.fst finalized).map Prod.snd).map Frame.priority =
        (Lists.sortDesc Prod.fst finalized).map Prod.fst := by
      rw [List.map_map]
      refine List.map_congr_left fun f hf => ?_
      obtain ⟨c, -, hfirst, hsecond, -⟩ := hof f (Lists.mem_sortDesc.mp hf)
      exact hsecond.trans hfirst.symm
    have hkeys : finalized.map Prod.fst = kept.map Candidate.priority := by
      have hfirst := congrArg (List.map Prod.fst) hlabels
      rwa [List.map_map, List.map_map] at hfirst
    rw [hpriority, ← map_priority_survivors]
    exact Lists.map_sortDesc_eq_of_perm (by rw [hkeys])
  · intro frame hframe
    obtain ⟨f, hf, rfl⟩ := List.mem_map.mp hframe
    obtain ⟨c, hc, -, -, hid⟩ := hof f (Lists.mem_sortDesc.mp hf)
    obtain ⟨⟨stream, hget, -, hs⟩, -⟩ := hlive c hc
    exact ⟨stream, hid ▸ hget, hs⟩
  · intro id stream hget
    obtain ⟨stream', hget', hgrown⟩ := finalizeCandidates_grows env.toEnv hlive hget
    refine ⟨stream', by rw [hstreams, hget'], ?_⟩
    have hsame : ((Lists.sortDesc Prod.fst finalized).map Prod.snd).filter
        (fun f => f.streamId = id) = (finalized.map Prod.snd).filter fun f => f.streamId = id := by
      rw [List.filter_map, List.filter_map]
      exact congrArg _ (Lists.filter_sortDesc (hdescending id))
    rw [hsame]
    exact hgrown
  · intro id hnone
    rw [hstreams]
    exact AssocMap.get?_eq_none_of_mapVal_eq (finalizeCandidates_content env.toEnv hlive).2 hnone

/-- The order in which the streams are iterated permutes the candidates. -/
theorem candidates_perm (session earlier : StreamSession) (env env' : SessionEnv)
    (threshold : Priority) :
    (session.candidates (earlier.extractPrioritizedPatchesForActiveStreams env threshold)).Perm
      (session.candidates
        (earlier.extractPrioritizedPatchesForActiveStreams env' threshold)) := by
  have hkeys : ((env.order earlier.streams.entries).map Prod.fst).Perm
      ((env'.order earlier.streams.entries).map Prod.fst) :=
    ((env.order_perm _).trans (env'.order_perm _).symm).map Prod.fst
  rw [extracted_eq_filterMap, extracted_eq_filterMap]
  exact (hkeys.filterMap _).flatMap_right _

end Returned

end StreamSession

namespace Call
open StreamSession
variable {config : SessionConfig} {sessionId : SessionId} {now : DateTime}
  {session : StreamSession}

/-- A batch of what was extracted from an earlier state of the session: as many frames as there is
room and candidates for, best first, the best there are however the streams are iterated; the
frames of a stream are in the order of their numbers, and a stream records these and no others. -/
theorem batch_takes_best
    (h : StreamSession.withTimeProvider config sessionId now = some session)
    (calls later : List Call) (env₀ env : SessionEnv) (threshold : Priority) (batchSize : ℕ) :
    let earlier := after session calls
    let current := after earlier later
    let extracted := earlier.extractPrioritizedPatchesForActiveStreams env₀ threshold
    let cs := current.candidates extracted
    current.isActive (env.now 0) = true →
    ∃ frames session', current.commitPriorityFrames env extracted batchSize =
        (.ok frames, session') ∧
      frames.length = min batchSize cs.length ∧
      (frames.Pairwise fun f g => g.priority ≤ f.priority) ∧
      (∃ left, (cs.map Candidate.priority).Perm (frames.map Frame.priority ++ left) ∧
        ∀ p ∈ left, ∀ f ∈ frames, p ≤ f.priority) ∧
      (∀ env₁ env₂ frames' session'', current.commitPriorityFrames env₂
          (earlier.extractPrioritizedPatchesForActiveStreams env₁ threshold) batchSize =
          (.ok frames', session'') →
        frames'.map Frame.priority = frames.map Frame.priority) ∧
      (∀ frame ∈ frames, ∃ stream, current.streams.get? frame.streamId = some stream ∧
        stream.state = .streaming) ∧
      (∀ id stream, current.streams.get? id = some stream →
        ∃ stream', session'.streams.get? id = some stream' ∧
          stream.GrownBy env.showFloat (frames.filter fun f => f.streamId = id) stream' ∧
          (stream.state ≠ .streaming → stream' = stream)) ∧
      ∀ id, current.streams.get? id = none → session'.streams.get? id = none := by
  intro earlier current extracted cs hactive
  have hk : WellKeyed current.streams := by
    have hrun := wellKeyed_of_run h (calls ++ later)
    unfold after at hrun
    rwa [List.foldl_append] at hrun
  obtain ⟨frames, session', hcommit, hpriority, hfrom, hgrown, hgone⟩ :=
    commitPriorityFrames_selects env hk (descending_extracted earlier env₀ threshold) hactive
      batchSize
  refine ⟨frames, session', hcommit, ?_, ?_, ?_, ?_, hfrom, ?_, hgone⟩
  · have hlength := congrArg List.length hpriority
    rwa [List.length_map, List.length_map, List.length_take,
      (Lists.sortDesc_perm _ _).length_eq] at hlength
  · have hsorted := (Lists.pairwise_sortDesc Candidate.priority cs).sublist
      (List.take_sublist batchSize _)
    have hmap : (frames.map Frame.priority).Pairwise fun p q => q ≤ p := by
      rw [hpriority]
      exact List.pairwise_map.mpr hsorted
    exact List.pairwise_map.mp hmap
  · refine ⟨((Lists.sortDesc Candidate.priority cs).drop batchSize).map Candidate.priority, ?_, ?_⟩
    · rw [hpriority, ← List.map_append, List.take_append_drop]
      exact (Lists.sortDesc_perm _ _).symm.map _
    · intro p hp f hf
      obtain ⟨c, hc, rfl⟩ := List.mem_map.mp hp
      have hmem := List.mem_map_of_mem (f := Frame.priority) hf
      rw [hpriority] at hmem
      obtain ⟨d, hd, heq⟩ := List.mem_map.mp hmem
      rw [← heq]
      exact Lists.le_of_mem_take_of_mem_drop hd hc
  · intro env₁ env₂ frames' session'' hcommit'
    have hactive' : current.isActive (env₂.now 0) = true := by
      by_contra hnot
      unfold commitPriorityFrames at hcommit'
      rw [Bool.eq_false_of_not_eq_true hnot] at hcommit'
      cases hcommit'
    obtain ⟨_, _, hcommit'', hpriority', -⟩ := commitPriorityFrames_selects env₂ hk
      (descending_extracted earlier env₁ threshold) hactive' batchSize
    have hsame := hcommit'.symm.trans hcommit''
    simp only [Prod.mk.injEq, Except.ok.injEq] at hsame
    rw [hsame.1, hpriority', hpriority, List.map_take, List.map_take]
    exact congrArg _ (Lists.map_sortDesc_eq_of_perm
      ((candidates_perm current earlier env₁ env₀ threshold).map _))
  · intro id stream hget
    obtain ⟨stream', hget', hrecorded⟩ := hgrown id stream hget
    refine ⟨stream', hget', hrecorded, fun hs => hrecorded.still ?_⟩
    refine List.filter_eq_nil_iff.mpr fun frame hframe hid => ?_
    obtain ⟨held, hheld, hstreaming⟩ := hfrom frame hframe
    rw [of_decide_eq_true hid, hget] at hheld
    exact hs (Option.some.inj hheld ▸ hstreaming)

/-- There are three candidates; the two best of them are returned, although another batch was
committed after the extraction. -/
theorem batch_takes_best_batching :
    let later : List Call := [⟨.still ⟨1⟩ .epoch, .createPriorityFrames .minimum 1⟩]
    let earlier := after atEpoch (batching ⟨1⟩ .epoch)
    let current := after earlier later
    let env := SessionEnv.still ⟨1⟩ .epoch
    ∃ frames session', current.commitPriorityFrames env
        (earlier.extractPrioritizedPatchesForActiveStreams env .minimum) 2 = (.ok frames, session') ∧
      frames.length = 2 := by
  intro later earlier current env
  obtain ⟨frames, session', hcommit, hlength, -⟩ :=
    batch_takes_best withTimeProvider_atEpoch (batching ⟨1⟩ .epoch) later env env .minimum 2 rfl
  have hthree : (current.candidates
      (earlier.extractPrioritizedPatchesForActiveStreams env .minimum)).length = 3 := by
    decide +kernel
  rw [hthree] at hlength
  exact ⟨frames, session', hcommit, hlength⟩

end Call

end PJS
