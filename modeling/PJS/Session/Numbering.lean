import PJS.Session.CommitOrder

/-! The numbers of a stream have no gaps: a stream moves on by one for each of its frames, and a
new stream has 1 next. -/
namespace PJS

/-- Streams moved on by as many numbers as they have frames; a new stream has none. -/
def Advances (m : AssocMap StreamId Stream) (frames : List Frame)
    (m' : AssocMap StreamId Stream) : Prop :=
  ∀ id stream', m'.get? id = some stream' →
    (∃ stream, m.get? id = some stream ∧ stream'.nextSequence =
      stream.nextSequence + (frames.filter fun f => f.streamId = id).length) ∨
    m.get? id = none ∧ stream'.nextSequence = 1 ∧ frames.filter (fun f => f.streamId = id) = []

theorem Advances.of_perm {m m' : AssocMap StreamId Stream} {frames frames' : List Frame}
    (h : Advances m frames m') (hperm : frames.Perm frames') : Advances m frames' m' := by
  intro id stream' hget
  have hfiltered := hperm.filter fun f => f.streamId = id
  rcases h id stream' hget with ⟨stream, hstream, hnext⟩ | ⟨hnone, hnext, hnil⟩
  · exact .inl ⟨stream, hstream, hfiltered.length_eq ▸ hnext⟩
  · exact .inr ⟨hnone, hnext, List.nil_perm.mp (hnil ▸ hfiltered)⟩

theorem Commits.advances {showFloat : Float → String} {m m' : AssocMap StreamId Stream}
    {frames : List Frame} (h : Commits showFloat m frames m') : Advances m frames m' := by
  induction h with
  | nil m => exact fun id stream' hget => .inl ⟨stream', hget, rfl⟩
  | @cons m m' stream stream' frame frames hget hcommit _ ih =>
    have hnext : stream'.nextSequence = stream.nextSequence + 1 :=
      congrArg Row.nextSequence hcommit.row
    intro id final hfinal
    rw [List.filter_cons]
    rcases ih id final hfinal with ⟨between, hbetween, hlast⟩ | ⟨hnone, hlast, hnil⟩
    · rw [AssocMap.get?_insert] at hbetween
      split_ifs at hbetween with hid
      · obtain rfl : stream' = between := Option.some.inj hbetween
        rw [if_pos (decide_eq_true hid.symm), List.length_cons]
        exact .inl ⟨stream, hid ▸ hget, by omega⟩
      · rw [if_neg (by simpa using Ne.symm hid)]
        exact .inl ⟨between, hbetween, hlast⟩
    · rw [AssocMap.get?_insert] at hnone
      split_ifs at hnone with hid
      rw [if_neg (by simpa using Ne.symm hid)]
      exact .inr ⟨hnone, hlast, hnil⟩

namespace StreamSession

variable {session m : StreamSession} {env : SessionEnv} {frames : List Frame}

/-- An entry that commits no frames moves no stream on. -/
theorem Took.advances {entry : Ledger.Entry} (h : session.Took entry m)
    (hfresh : ∀ id, entry = .create id → id ∉ session.streams.keys) (hwipe : entry ≠ .wipe)
    (hemit : ∀ id sequence bytes, entry ≠ .emit id sequence bytes) :
    Advances session.streams [] m.streams := by
  have hrows : m.streams.mapVal Stream.row = (session.ledger.post entry).rows :=
    congrArg Ledger.rows h.ledger
  intro id stream' hget
  have hrow : (session.ledger.post entry).rows.get? id = some stream'.row := by
    rw [← hrows, AssocMap.get?_mapVal, hget, Option.map_some]
  have hsame : ((session.ledger.rows.get? id).map Row.nextSequence = some stream'.nextSequence) →
      ∃ stream, session.streams.get? id = some stream ∧
        stream'.nextSequence = stream.nextSequence := by
    intro hnext
    change (((session.streams.mapVal Stream.row).get? id).map Row.nextSequence) = _ at hnext
    rw [AssocMap.get?_mapVal, Option.map_map] at hnext
    obtain ⟨stream, hstream, hlast⟩ := Option.map_eq_some_iff.mp hnext
    exact ⟨stream, hstream, hlast.symm⟩
  have hmodify : ∀ (j : StreamId) (f : Row → Row),
      (session.ledger.rows.modify j f).get? id = some stream'.row →
      (∀ r, (f r).nextSequence = r.nextSequence) →
      (session.ledger.rows.get? id).map Row.nextSequence = some stream'.nextSequence := by
    intro j f hmodified hf
    rw [AssocMap.get?_modify] at hmodified
    split_ifs at hmodified
    · obtain ⟨r, hr, heq⟩ := Option.map_eq_some_iff.mp hmodified
      rw [hr, Option.map_some, ← hf r, heq]
      rfl
    · rw [hmodified]
      rfl
  cases entry with
  | activate => exact .inl (hsame (congrArg (Option.map Row.nextSequence) hrow))
  | create j =>
    simp only [Ledger.post, AssocMap.get?_insert] at hrow
    split_ifs at hrow with hid
    · have hnone : session.streams.get? id = none := by
        by_contra hne
        obtain ⟨stream, hstream⟩ := Option.ne_none_iff_exists'.mp hne
        exact hfresh j rfl (hid ▸ AssocMap.mem_keys_iff.mpr ⟨stream, hstream⟩)
      exact .inr ⟨hnone, (congrArg Row.nextSequence (Option.some.inj hrow)).symm, rfl⟩
    · exact .inl (hsame (congrArg (Option.map Row.nextSequence) hrow))
  | start j => exact .inl (hsame (hmodify j _ hrow fun _ => rfl))
  | complete j => exact .inl (hsame (hmodify j _ hrow fun _ => rfl))
  | fail j => exact .inl (hsame (hmodify j _ hrow fun _ => rfl))
  | emit j sequence bytes => exact absurd rfl (hemit j sequence bytes)
  | close =>
    simp only [Ledger.post, AssocMap.get?_mapVal] at hrow
    obtain ⟨r, hr, heq⟩ := Option.map_eq_some_iff.mp hrow
    refine .inl (hsame ?_)
    have hcancel : r.cancel.nextSequence = r.nextSequence := by
      unfold Row.cancel
      split_ifs <;> rfl
    rw [hr, Option.map_some, ← hcancel, heq]
    rfl
  | wipe => exact absurd rfl hwipe

theorem commitPatchFramesForStream_advances (hk : WellKeyed session.streams) {streamId : StreamId}
    {patches : List (FramePatch × Priority)} {maxFrames : ℕ}
    (h : session.commitPatchFramesForStream env streamId patches maxFrames = (.ok frames, m)) :
    Advances session.streams frames m.streams := by
  rcases commitPatchFramesForStream_cases env session streamId patches maxFrames with
    ⟨⟨e, he⟩, -⟩ | ⟨-, frames', m', -, -, hok, -, hemitted⟩
  · rw [he] at h
    cases h
  · rw [hok] at h
    cases h
    exact (hemitted.commits hk).advances

theorem commitPriorityFrames_advances (hk : WellKeyed session.streams) {extracted : Extracted}
    {batchSize : ℕ}
    (h : session.commitPriorityFrames env extracted batchSize = (.ok frames, m)) :
    Advances session.streams frames m.streams := by
  unfold commitPriorityFrames at h
  split_ifs at h
  · cases h
  set kept := survivors (session.candidates extracted) batchSize
  have hcommits := commits_finalizeCandidates env.toEnv hk kept
  set r := finalizeCandidates env.toEnv session.streams kept
  obtain ⟨rfl, rfl⟩ : (Lists.sortDesc Prod.fst r.1).map Prod.snd = frames ∧
      StreamSession.recordFrames { env with now := fun i => env.now (1 + i) }
        { session with streams := r.2 } ((Lists.sortDesc Prod.fst r.1).map Prod.snd).length
        (((Lists.sortDesc Prod.fst r.1).map Prod.snd).map fun frame =>
          frame.estimatedSize env.showFloat).sum = m := by
    cases h
    exact ⟨rfl, rfl⟩
  rw [streams_recordFrames]
  exact hcommits.advances.of_perm ((Lists.sortDesc_perm Prod.fst r.1).map Prod.snd).symm

end StreamSession

end PJS
