import PJS.Repository.Repository

/-! Operations on a session take effect at once, when they hold the lock of its entry: whatever
other operations come between the snapshot they extract from and the lock, they return and leave
what they would if they ran alone at that moment. -/
namespace PJS.GatInMemoryStreamRepository

open Relation

section Serial

/-- The stream is streaming in the snapshot. -/
def streamingAt (snapshot : StreamSession) (streamId : StreamId) : Bool :=
  (snapshot.streams.get? streamId).any fun stream => stream.state = .streaming

/-- The streams of the snapshot that are streaming come in the same order in both iterations. -/
def SameOrder (env₀ : SessionEnv) (snapshot : StreamSession) (env : SessionEnv)
    (session : StreamSession) : Prop :=
  ((env.order session.streams.entries).map Prod.fst).filter (streamingAt snapshot) =
    ((env₀.order snapshot.streams.entries).map Prod.fst).filter (streamingAt snapshot)

/-- The extraction of a batch, from the session as it is, of the streams that were streaming at
the snapshot. -/
def extractedSince (snapshot : StreamSession) (env : SessionEnv) (session : StreamSession)
    (priorityThreshold : Priority) : StreamSession.Extracted :=
  (session.extractPrioritizedPatchesForActiveStreams env priorityThreshold).filter fun e =>
    streamingAt snapshot e.1

/-- An operation that runs alone on the session, with what it returns and leaves behind. A batch
knows the session that its call has read before, and passes over the streams that were not
streaming there. -/
inductive Takes (read : Option StreamSession) (session : StreamSession) :
    Request → Value → StreamSession → Prop
  | createStream {sourceData : DataDocument} {config : Option StreamConfig} {streamId : StreamId}
    {m : StreamSession} (env : SessionEnv)
    (h : session.createStreamWithConfig env sourceData config = (.ok streamId, m)) :
    Takes read session (.createStream sourceData config) (.streamId streamId) m
  | startStream {streamId : StreamId} {m : StreamSession} (env : SessionEnv)
    (h : session.startStream env streamId = (.ok (), m)) :
    Takes read session (.startStream streamId) .unit m
  | completeStream {streamId : StreamId} {m : StreamSession} (env : SessionEnv)
    (h : session.completeStream env streamId = (.ok (), m)) :
    Takes read session (.completeStream streamId) .unit m
  | createStreamPatchFrames {streamId : StreamId} {priorityThreshold : Priority} {maxFrames : ℕ}
    {frames : List Frame} {m : StreamSession} (env : SessionEnv)
    (h : session.createStreamPatchFrames env streamId priorityThreshold maxFrames =
      (.ok frames, m)) :
    Takes read session (.createStreamPatchFrames streamId priorityThreshold maxFrames)
      (.frames frames) m
  | batchGenerateFrames {priorityThreshold : Priority} {maxFrames : ℕ} {frames : List Frame}
    {snapshot m : StreamSession} (env₀ env : SessionEnv) (hread : read = some snapshot)
    (hsome : ∃ env', SameOrder env₀ snapshot env' session)
    (h : ∀ env', SameOrder env₀ snapshot env' session → session.commitPriorityFrames env
      (extractedSince snapshot env' session priorityThreshold) maxFrames = (.ok frames, m)) :
    Takes read session (.batchGenerateFrames priorityThreshold maxFrames) (.frames frames) m
  | closeSession {m : StreamSession} (env : SessionEnv) (h : session.close env = (.ok (), m)) :
    Takes read session .closeSession .unit m

/-- An outcome, with the snapshot that its call had read and the session that was stored. -/
structure Entry extends Outcome where
  read : Option StreamSession
  stored : StreamSession

/-- The operations ran one after another from the first session; these events were raised, and
this session was left. Each returned the events that were pending, and what its call had read is
one of the sessions before. -/
inductive Replay (first : StreamSession) : List Entry → List DomainEvent → StreamSession → Prop
  | nil : Replay first [] [] first
  | snoc {entries : List Entry} {raised new : List DomainEvent} {session m : StreamSession}
    {sessionId : SessionId} {request : Request} {value : Value} {read : Option StreamSession}
    (h : Replay first entries raised session) (htakes : Takes read session request value m)
    (hread : ∀ snapshot, read = some snapshot → snapshot ∈ first :: entries.map Entry.stored)
    (hnew : m.pendingEvents = session.pendingEvents ++ new) :
    Replay first
      (entries ++ [⟨⟨sessionId, request, value, m.pendingEvents⟩, read, m.takeEvents.2⟩])
      (raised ++ new) m.takeEvents.2

variable {first session : StreamSession} {entries : List Entry} {raised : List DomainEvent}

/-- Every event, pending at first or raised later, is returned once or still pending. -/
theorem Replay.events (h : Replay first entries raised session) :
    first.pendingEvents ++ raised =
      (entries.map fun e => e.events).flatten ++ session.pendingEvents := by
  induction h with
  | nil => simp
  | @snoc entries raised new session m _ _ _ _ _ _ _ hnew ih =>
    have htaken : m.takeEvents.2.pendingEvents = [] := rfl
    rw [← List.append_assoc, ih, List.append_assoc, ← hnew, List.map_append, List.flatten_append,
      htaken, List.append_nil]
    simp

/-- Streams and their material outlive what happens to the session. -/
theorem continues_takeEvents {m : StreamSession} (h : session.Continues m) :
    session.Continues m.takeEvents.2 := h

end Serial

section Extraction
variable {snapshot session : StreamSession}

/-- A stream that was streaming and still is offers the same patches. -/
theorem offer_eq_of_streaming (h : snapshot.Continues session) {threshold : Priority}
    {streamId : StreamId} {stream stream' : Stream}
    (hget : snapshot.streams.get? streamId = some stream) (hs : stream.state = .streaming)
    (hget' : session.streams.get? streamId = some stream') (hs' : stream'.state = .streaming) :
    session.offer threshold streamId = snapshot.offer threshold streamId := by
  obtain ⟨stream'', hget'', hm⟩ := h.exists_stream hget
  obtain rfl : stream' = stream'' := Option.some.inj (hget'.symm.trans hget'')
  unfold StreamSession.offer
  rw [hget, hget', Option.bind_some, Option.bind_some, if_pos hs, if_pos hs',
    Stream.extractPrioritizedPatches_of_material hm hs hs']

theorem streamingAt_eq_true_iff {streamId : StreamId} : streamingAt snapshot streamId = true ↔
    ∃ stream, snapshot.streams.get? streamId = some stream ∧ stream.state = .streaming := by
  rw [streamingAt, Option.any_eq_true_iff_get]
  constructor
  · rintro ⟨hsome, hs⟩
    exact ⟨_, Option.some_get hsome |>.symm, of_decide_eq_true hs⟩
  · rintro ⟨stream, hget, hs⟩
    refine ⟨by rw [hget, Option.isSome_some], ?_⟩
    simp only [hget, Option.get_some]
    exact decide_eq_true hs

/-- The candidates of a list of offers, stream by stream. -/
theorem candidates_filterMap_offer (ids : List StreamId) (threshold : Priority)
    (source : StreamSession) : session.candidates (ids.filterMap (source.offer threshold)) =
      ids.flatMap fun id => session.candidates (source.offer threshold id).toList := by
  induction ids with
  | nil => rfl
  | cons id ids ih =>
    rw [List.flatMap_cons, ← ih]
    cases ho : source.offer threshold id with
    | none => rw [List.filterMap_cons_none ho]; rfl
    | some e =>
      rw [List.filterMap_cons_some ho]
      simp [StreamSession.candidates]

/-- What a stream offered at the snapshot and what it offers now give the same candidates. -/
theorem candidates_offer (h : snapshot.Continues session) {threshold : Priority}
    {streamId : StreamId} (hs : streamingAt snapshot streamId = true) :
    session.candidates (snapshot.offer threshold streamId).toList =
      session.candidates (session.offer threshold streamId).toList := by
  obtain ⟨stream, hget, hstream⟩ := streamingAt_eq_true_iff.mp hs
  obtain ⟨stream', hget', -⟩ := h.exists_stream hget
  by_cases hs' : stream'.state = .streaming
  · rw [offer_eq_of_streaming h hget hstream hget' hs']
  · -- it has ended: it offers nothing, and what it offered is passed over
    have hnone : session.offer threshold streamId = none := by
      rw [StreamSession.offer, hget', Option.bind_some, if_neg hs']
    rw [hnone]
    cases ho : snapshot.offer threshold streamId with
    | none => rfl
    | some e =>
      obtain ⟨hid, -⟩ := StreamSession.offer_eq_some_iff.mp ho
      simp [StreamSession.candidates, hid, hget', hs']

/-- The patches of the snapshot and those of the session give the same candidates. -/
theorem candidates_extractedSince (h : snapshot.Continues session) {env₀ env : SessionEnv}
    (horder : SameOrder env₀ snapshot env session) (threshold : Priority) :
    session.candidates
        (snapshot.extractPrioritizedPatchesForActiveStreams env₀ threshold) =
      session.candidates (extractedSince snapshot env session threshold) := by
  have hsnapshot : snapshot.extractPrioritizedPatchesForActiveStreams env₀ threshold =
      (((env₀.order snapshot.streams.entries).map Prod.fst).filter
        (streamingAt snapshot)).filterMap (snapshot.offer threshold) := by
    rw [StreamSession.extracted_eq_filterMap, List.filterMap_filter]
    refine List.filterMap_congr fun id _ => ?_
    split_ifs with hs
    · rfl
    · cases ho : snapshot.offer threshold id with
      | none => rfl
      | some e =>
        obtain ⟨-, stream, hget, hstream, -⟩ := StreamSession.offer_eq_some_iff.mp ho
        exact absurd (streamingAt_eq_true_iff.mpr ⟨stream, hget, hstream⟩) hs
  have hsession : extractedSince snapshot env session threshold =
      (((env.order session.streams.entries).map Prod.fst).filter
        (streamingAt snapshot)).filterMap (session.offer threshold) := by
    rw [extractedSince, StreamSession.extracted_eq_filterMap, List.filterMap_filter,
      List.filter_filterMap]
    refine List.filterMap_congr fun id _ => ?_
    cases ho : session.offer threshold id with
    | none => split_ifs <;> rfl
    | some e =>
      obtain ⟨rfl, -⟩ := StreamSession.offer_eq_some_iff.mp ho
      rfl
  rw [hsnapshot, hsession, horder, candidates_filterMap_offer, candidates_filterMap_offer]
  refine List.flatMap_congr fun id hid => ?_
  exact candidates_offer h (List.mem_filter.mp hid).2

/-- The map may be iterated so that the streams of the snapshot come first and in its order. -/
theorem exists_sameOrder (h : snapshot.Continues session) (env₀ : SessionEnv) :
    ∃ env, SameOrder env₀ snapshot env session := by
  classical
  set ids := (env₀.order snapshot.streams.entries).map Prod.fst with hids
  have hmem : ∀ id, id ∈ ids ↔ id ∈ snapshot.streams.keys := fun id =>
    ((env₀.order_perm snapshot.streams.entries).map Prod.fst).mem_iff
  have hnodup : ids.Nodup :=
    ((env₀.order_perm snapshot.streams.entries).map Prod.fst).nodup_iff.mpr snapshot.streams.nodup
  have hkeys : ∀ id ∈ ids, id ∈ session.streams.keys := by
    intro id hid
    obtain ⟨stream, hget⟩ := AssocMap.mem_keys_iff.mp ((hmem id).mp hid)
    obtain ⟨stream', hget', -⟩ := h.exists_stream hget
    exact AssocMap.mem_keys_iff.mpr ⟨stream', hget'⟩
  obtain ⟨listed, hperm, rest, hfst, hrest⟩ := session.streams.exists_perm_entries hnodup hkeys
  refine ⟨{ env₀ with
    order := fun entries => if entries = session.streams.entries then listed else entries
    order_perm := fun entries => ?_ }, ?_⟩
  · split_ifs with heq
    · rw [heq]
      exact hperm
    · exact List.Perm.refl _
  · have hnone : rest.filter (streamingAt snapshot) = [] := by
      refine List.filter_eq_nil_iff.mpr fun id hid hs => ?_
      obtain ⟨stream, hget, -⟩ := streamingAt_eq_true_iff.mp hs
      exact hrest id hid ((hmem id).mpr (AssocMap.mem_keys_iff.mpr ⟨stream, hget⟩))
    unfold SameOrder
    simp only [if_true]
    rw [hfst, List.filter_append, hnone, List.append_nil]

end Extraction

section Updates
variable {c : AtomicCall}

/-- Patches from a snapshot are those of the session, if the stream still takes them. -/
theorem createStreamPatchFrames_of_commit {snapshot session m : StreamSession} {env : SessionEnv}
    {streamId : StreamId} {threshold : Priority} {patches : List (FramePatch × Priority)}
    {maxFrames : ℕ} {frames : List Frame} (h : snapshot.Continues session)
    (hextract : snapshot.extractPrioritizedPatchesForStream streamId threshold = .ok patches)
    (hcommit : session.commitPatchFramesForStream env streamId patches maxFrames =
      (.ok frames, m)) :
    session.createStreamPatchFrames env streamId threshold maxFrames = (.ok frames, m) := by
  rcases StreamSession.commitPatchFramesForStream_cases env session streamId patches maxFrames
    with ⟨⟨e, hfail⟩, -⟩ | ⟨stream', -, -, hget', hs', -⟩
  · rw [hfail] at hcommit
    cases hcommit
  unfold StreamSession.extractPrioritizedPatchesForStream at hextract
  cases hget : snapshot.streams.get? streamId with
  | none =>
    rw [hget] at hextract
    cases hextract
  | some stream =>
    rw [hget] at hextract
    simp only at hextract
    have hs : stream.state = .streaming := by
      by_contra hs
      rw [Stream.extractPrioritizedPatches, if_pos hs] at hextract
      cases hextract
    obtain ⟨stream'', hget'', hm⟩ := h.exists_stream hget
    obtain rfl : stream' = stream'' := Option.some.inj (hget'.symm.trans hget'')
    have hnow : session.extractPrioritizedPatchesForStream streamId threshold = .ok patches := by
      rw [StreamSession.extractPrioritizedPatchesForStream, hget']
      exact (Stream.extractPrioritizedPatches_of_material hm hs hs' threshold).trans hextract
    rw [StreamSession.createStreamPatchFrames, hnow]
    exact hcommit

theorem commitPriorityFrames_congr {session : StreamSession} (env : SessionEnv)
    {extracted extracted' : StreamSession.Extracted}
    (h : session.candidates extracted = session.candidates extracted') (maxFrames : ℕ) :
    session.commitPriorityFrames env extracted maxFrames =
      session.commitPriorityFrames env extracted' maxFrames := by
  unfold StreamSession.commitPriorityFrames
  rw [h]

/-- What an operation does under the lock is what it does alone. -/
theorem takes_of_underLock {env : SessionEnv} {f : StreamSession → DomainResult Value × StreamSession}
    (hlock : c.request.underLock env c.phase = some f) (hextracted : c.Extracted)
    {session m : StreamSession} {value : Value}
    (hcontinues : ∀ snapshot, c.snapshot = some snapshot → snapshot.Continues session)
    (hf : f session = (.ok value, m)) : Takes c.snapshot session c.request value m := by
  obtain ⟨handle, sessionId, request, phase⟩ := c
  cases request with
  | createStream sourceData config =>
    cases phase <;> cases hlock
    obtain ⟨streamId, hok, rfl⟩ := returns_eq_ok hf
    exact .createStream env hok
  | startStream streamId =>
    cases phase <;> cases hlock
    obtain ⟨⟨⟩, hok, rfl⟩ := returns_eq_ok hf
    exact .startStream env hok
  | completeStream streamId =>
    cases phase <;> cases hlock
    obtain ⟨⟨⟩, hok, rfl⟩ := returns_eq_ok hf
    exact .completeStream env hok
  | createStreamPatchFrames streamId priorityThreshold maxFrames =>
    cases phase with
    | extractedPatches snapshot patches =>
      cases hlock
      obtain ⟨frames, hok, rfl⟩ := returns_eq_ok hf
      exact .createStreamPatchFrames env
        (createStreamPatchFrames_of_commit (hcontinues snapshot rfl) hextracted hok)
    | _ => cases hlock
  | batchGenerateFrames priorityThreshold maxFrames =>
    cases phase with
    | extractedStreams snapshot extracted =>
      cases hlock
      obtain ⟨frames, hok, rfl⟩ := returns_eq_ok hf
      obtain ⟨env₀, rfl⟩ := hextracted
      refine .batchGenerateFrames env₀ env rfl (exists_sameOrder (hcontinues snapshot rfl) env₀)
        fun env' horder => ?_
      have hcandidates :=
        candidates_extractedSince (hcontinues snapshot rfl) horder priorityThreshold
      rw [← commitPriorityFrames_congr env hcandidates]
      exact hok
    | _ => cases hlock
  | closeSession =>
    cases phase <;> cases hlock
    obtain ⟨⟨⟩, hok, rfl⟩ := returns_eq_ok hf
    exact .closeSession env hok

end Updates

section Runs

/-- The repository, and the operations that succeeded in the order in which they held the lock. -/
structure Journaled where
  repository : GatInMemoryStreamRepository
  journal : List Entry

def Journaled.entries (s : Journaled) (sessionId : SessionId) : List Entry :=
  s.journal.filter fun e => e.sessionId = sessionId

/-- The entry of a call that has just released the lock, and had read this before. -/
def AtomicCall.logged (repository : GatInMemoryStreamRepository) (read : Option StreamSession)
    (c : AtomicCall) : List Entry :=
  match c.phase with
  | .updated value events => (repository.store.get? c.sessionId).toList.map fun session =>
    ⟨⟨c.sessionId, c.request, value, events⟩, read, session⟩
  | _ => []

def JournaledStep (s : Journaled) (c : AtomicCall) (s' : Journaled) (c' : AtomicCall) : Prop :=
  AtomicCall.Step s.repository c s'.repository c' ∧
    s'.journal = s.journal ++ c'.logged s'.repository c.snapshot

variable {s s' : Journaled} {c c' : AtomicCall}

theorem Replay.mem {first session : StreamSession} {entries : List Entry}
    {raised : List DomainEvent} (h : Replay first entries raised session) :
    session ∈ first :: entries.map Entry.stored := by
  cases h with
  | nil => exact List.mem_cons_self
  | snoc => simp

/-- Every session of the initial store is what its operations, one after another, made of it, and
goes on with the streams it ever had. -/
structure Faithful (store : AssocMap SessionId StreamSession) (s : Journaled) : Prop where
  absent : ∀ id, store.get? id = none → s.repository.store.get? id = none
  replay : ∀ id first, store.get? id = some first → ∃ raised session,
    s.repository.store.get? id = some session ∧ Replay first (s.entries id) raised session ∧
      ∀ past ∈ first :: (s.entries id).map Entry.stored, past.Continues session

/-- A call that has a snapshot has it from the run, and its patches from the snapshot. -/
structure Remembers (store : AssocMap SessionId StreamSession) (s : Journaled) (c : AtomicCall) :
    Prop where
  extracted : c.Extracted
  past : ∀ snapshot, c.snapshot = some snapshot → ∀ first, store.get? c.sessionId = some first →
    snapshot ∈ first :: (s.entries c.sessionId).map Entry.stored

variable {store : AssocMap SessionId StreamSession}

theorem faithful_ofStore (store : AssocMap SessionId StreamSession) (clock : ℕ) :
    Faithful store ⟨ofStore store clock, []⟩ where
  absent _ h := h
  replay _ first h := ⟨[], first, h, .nil, fun past hpast => by
    rw [List.mem_singleton.mp hpast]
    exact StreamSession.continues_refl first⟩

theorem entries_append (s' : Journaled) {e : Entry} (h : s'.journal = s.journal ++ [e])
    (id : SessionId) :
    s'.entries id = s.entries id ++ if e.sessionId = id then [e] else [] := by
  rw [Journaled.entries, Journaled.entries, h, List.filter_append]
  by_cases he : e.sessionId = id <;> simp [he]

theorem Remembers.of_took (h : Remembers store s c) {e : Entry}
    (hjournal : s'.journal = s.journal ++ [e]) : Remembers store s' c := by
  refine ⟨h.extracted, fun snapshot hsnapshot first hfirst => ?_⟩
  rw [entries_append s' hjournal, List.map_append, ← List.cons_append]
  exact List.mem_append_left _ (h.past snapshot hsnapshot first hfirst)

theorem journal_of_quiet (h : JournaledStep s c s' c')
    (hphase : ∀ value events, c'.phase ≠ .updated value events) : s'.journal = s.journal := by
  have hnone : c'.logged s'.repository c.snapshot = [] := by
    unfold AtomicCall.logged
    split
    · rename_i heq
      exact absurd heq (hphase _ _)
    · rfl
  rw [h.2, hnone, List.append_nil]

theorem journal_of_took (h : JournaledStep s c s' c') {m : StreamSession} {value : Value}
    (hstore : s'.repository.store = s.repository.store.insert c.sessionId m.takeEvents.2)
    (hphase : c'.phase = .updated value m.pendingEvents) :
    s'.journal = s.journal ++
      [⟨⟨c.sessionId, c.request, value, m.pendingEvents⟩, c.snapshot, m.takeEvents.2⟩] := by
  obtain ⟨hid, hrequest, -⟩ := h.1.effect
  rw [h.2, AtomicCall.logged, hphase, hid, hrequest, hstore, AssocMap.get?_insert_self]
  rfl

theorem JournaledStep.faithful (h : JournaledStep s c s' c') (hs : Faithful store s)
    (hc : Remembers store s c) : Faithful store s' := by
  obtain ⟨-, -, heffect⟩ := h.1.effect
  cases heffect with
  | quiet hstore hsucceeded hphase =>
    have hjournal := journal_of_quiet h hphase
    have hentries : ∀ id, s'.entries id = s.entries id := fun id => by
      rw [Journaled.entries, Journaled.entries, hjournal]
    refine ⟨fun id hid => ?_, fun id first hfirst => ?_⟩
    · rw [hstore]
      exact hs.absent id hid
    · rw [hstore, hentries]
      exact hs.replay id first hfirst
  | @took env f session m value hlock hget hfresh hf hmutates hstore hbefore hphase =>
    have hjournal := journal_of_took h hstore hphase
    refine ⟨fun id hid => ?_, fun id first hfirst => ?_⟩
    · have hne : id ≠ c.sessionId := by
        rintro rfl
        rw [hs.absent _ hid] at hget
        cases hget
      rw [hstore, AssocMap.get?_insert, if_neg hne]
      exact hs.absent id hid
    · obtain ⟨raised, current, hcurrent, hreplay, hpast⟩ := hs.replay id first hfirst
      rw [hstore, AssocMap.get?_insert, entries_append s' hjournal]
      by_cases hid : id = c.sessionId
      · subst hid
        obtain rfl : session = current := Option.some.inj (hget.symm.trans hcurrent)
        obtain ⟨new, hnew⟩ := hmutates.pending
        have hread : ∀ snapshot, c.snapshot = some snapshot →
            snapshot ∈ first :: (s.entries c.sessionId).map Entry.stored := fun snapshot h =>
          hc.past snapshot h first hfirst
        have htakes := takes_of_underLock hlock hc.extracted
          (fun snapshot h => hpast snapshot (hread snapshot h)) hf
        rw [if_pos rfl, if_pos rfl]
        refine ⟨raised ++ new, m.takeEvents.2, rfl, hreplay.snoc htakes hread hnew,
          fun past hmem => ?_⟩
        rw [List.map_append, ← List.cons_append] at hmem
        rcases List.mem_append.mp hmem with hmem | hmem
        · exact continues_takeEvents ((hpast past hmem).trans hmutates.continues)
        · rw [List.mem_singleton.mp hmem]
          exact StreamSession.continues_refl _
      · rw [if_neg hid, if_neg (Ne.symm hid), List.append_nil]
        exact ⟨raised, current, hcurrent, hreplay, hpast⟩

theorem JournaledStep.remembers (h : JournaledStep s c s' c') (hs : Faithful store s) :
    Remembers store s' c' := by
  obtain ⟨hid, -, heffect⟩ := h.1.effect
  cases heffect with
  | quiet hstore hsucceeded hphase hextracted hsnapshot =>
    have hjournal := journal_of_quiet h hphase
    refine ⟨hextracted, fun snapshot h first hfirst => ?_⟩
    rw [hid] at hfirst ⊢
    obtain ⟨raised, session, hget, hreplay, -⟩ := hs.replay c.sessionId first hfirst
    obtain rfl : session = snapshot := Option.some.inj (hget.symm.trans (hsnapshot snapshot h))
    rw [Journaled.entries, hjournal]
    exact hreplay.mem
  | took hlock hget hfresh hf hmutates hstore hbefore hphase =>
    have hnone : c'.snapshot = none := by rw [AtomicCall.snapshot, hphase]
    refine ⟨extracted_of_snapshot hnone, fun snapshot h => ?_⟩
    rw [hnone] at h
    cases h

theorem JournaledStep.keeps (h : JournaledStep s c s' c') {d : AtomicCall}
    (hd : Remembers store s d) : Remembers store s' d := by
  obtain ⟨-, -, heffect⟩ := h.1.effect
  cases heffect with
  | quiet hstore hsucceeded hphase =>
    have hjournal := journal_of_quiet h hphase
    refine ⟨hd.extracted, fun snapshot h first hfirst => ?_⟩
    rw [Journaled.entries, hjournal]
    exact hd.past snapshot h first hfirst
  | took hlock hget hfresh hf hmutates hstore hbefore hphase =>
    exact hd.of_took (journal_of_took h hstore hphase)

theorem outline (store : AssocMap SessionId StreamSession) :
    Pool.Outline AtomicCall.Begins JournaledStep (Faithful store) (Remembers store)
      fun _ _ => True where
  symm := fun _ => trivial
  begins := fun {s c} _ hc => by
    have hnone : c.snapshot = none := by rw [AtomicCall.snapshot, hc]
    refine ⟨extracted_of_snapshot hnone, fun snapshot h => ?_⟩
    rw [hnone] at h
    cases h
  begins_apart := fun _ _ => trivial
  own := fun hs hc h => ⟨h.faithful hs hc, h.remembers hs⟩
  other := fun _ _ hd _ h => ⟨h.keeps hd, trivial⟩

/-- The outcomes that calls have obtained are those of the journal. -/
theorem succeeded_step {p q : Pool Journaled AtomicCall}
    (hp : Pool.Holds (Faithful store) (Remembers store) (fun _ _ => True) p)
    (h : Pool.Step AtomicCall.Begins JournaledStep p q)
    (hP : (p.calls.map fun c => (c.succeeded.toList : Multiset Outcome)).sum =
      p.shared.journal.map Entry.toOutcome) :
    (q.calls.map fun c => (c.succeeded.toList : Multiset Outcome)).sum =
      q.shared.journal.map Entry.toOutcome := by
  refine Pool.sum_step (fun c : AtomicCall => (c.succeeded.toList : Multiset Outcome))
    (fun (s : Journaled) m => m = (s.journal.map Entry.toOutcome : List Outcome)) (fun c hc => ?_)
    (fun s c s' c' rest _ _ h hm => ?_) hp h hP
  · rw [AtomicCall.succeeded, show c.phase = .called from hc]
    rfl
  · obtain ⟨hid, hrequest, heffect⟩ := h.1.effect
    cases heffect with
    | quiet hstore hsucceeded hphase =>
      rw [hsucceeded, journal_of_quiet h hphase]
      exact hm
    | @took env f session m value hlock hget hfresh hf hmutates hstore hbefore hphase =>
      have hafter : c'.succeeded = some ⟨c.sessionId, c.request, value, m.pendingEvents⟩ := by
        rw [AtomicCall.succeeded, hphase, hid, hrequest]
      rw [hbefore] at hm
      rw [hafter, journal_of_took h hstore hphase, List.map_append, ← Multiset.coe_add, ← hm,
        Option.toList_none, Multiset.coe_nil, zero_add, add_comm]
      rfl

theorem sum_toList (calls : List AtomicCall) :
    (calls.map fun c => (c.succeeded.toList : Multiset Outcome)).sum =
      (calls.filterMap AtomicCall.succeeded : List Outcome) := by
  induction calls with
  | nil => rfl
  | cons c calls ih =>
    rw [List.map_cons, List.sum_cons, ih, Multiset.coe_add]
    cases hc : c.succeeded with
    | none => rw [List.filterMap_cons_none hc]; rfl
    | some outcome => rw [List.filterMap_cons_some hc]; rfl

theorem succeeded_perm {clock : ℕ} {p : Pool Journaled AtomicCall}
    (h : ReflTransGen (Pool.Step AtomicCall.Begins JournaledStep)
      ⟨⟨ofStore store clock, []⟩, []⟩ p) :
    (p.calls.filterMap AtomicCall.succeeded).Perm (p.shared.journal.map Entry.toOutcome) := by
  rw [← Multiset.coe_eq_coe, ← sum_toList]
  induction h with
  | refl => rfl
  | tail hreach hstep ih =>
    have hholds := (outline store).reachable (Pool.holds_nil (faithful_ofStore store clock)) hreach
    exact succeeded_step hholds hstep ih

/-- At every moment a session is what the operations on it that succeeded, each alone and in the
order in which they held its lock, make of the session it was; each returned what it returns
alone, these outcomes are those of the calls, and each event was returned by one of them. -/
theorem atomic_of_reachable {clock : ℕ} {p : Pool Journaled AtomicCall}
    (h : ReflTransGen (Pool.Step AtomicCall.Begins JournaledStep)
      ⟨⟨ofStore store clock, []⟩, []⟩ p)
    {sessionId : SessionId} {first : StreamSession} (hfirst : store.get? sessionId = some first) :
    (p.calls.filterMap AtomicCall.succeeded).Perm (p.shared.journal.map Entry.toOutcome) ∧
    ∃ raised session, p.shared.repository.store.get? sessionId = some session ∧
      Replay first (p.shared.entries sessionId) raised session ∧
      first.pendingEvents ++ raised =
        ((p.shared.entries sessionId).map fun e => e.events).flatten ++ session.pendingEvents := by
  have hholds := (outline store).reachable (Pool.holds_nil (faithful_ofStore store clock)) h
  obtain ⟨raised, session, hget, hreplay, -⟩ := hholds.shared.replay sessionId first hfirst
  exact ⟨succeeded_perm h, raised, session, hget, hreplay, hreplay.events⟩

section Interleaved

/-- A session that streams one document. -/
def streaming : StreamSession := Call.after StreamSession.atEpoch (Call.batching ⟨1⟩ .epoch)

def sampleEnv : SessionEnv := .still ⟨2⟩ .epoch

def oneSession : GatInMemoryStreamRepository := ofStore (AssocMap.empty.insert ⟨0⟩ streaming) 0

/-- A call for the frames of the stream, and a batch, after both have their snapshots. -/
def generating : AtomicCall :=
  ⟨0, ⟨0⟩, .createStreamPatchFrames ⟨1⟩ .minimum 2, .extractedPatches streaming
    ((streaming.extractPrioritizedPatchesForStream ⟨1⟩ .minimum).toOption.getD [])⟩

def batching : AtomicCall :=
  ⟨0, ⟨0⟩, .batchGenerateFrames .minimum 2, .extractedStreams streaming
    (streaming.extractPrioritizedPatchesForActiveStreams sampleEnv .minimum)⟩

/-- A call after it has held the lock. -/
def AtomicCall.locked (repository : GatInMemoryStreamRepository) (c : AtomicCall) :
    GatInMemoryStreamRepository × AtomicCall :=
  match c.request.underLock sampleEnv c.phase with
  | none => (repository, c)
  | some f => ((repository.atomicSessionUpdate c.sessionId (drained f)).2,
    { c with phase := .ofResult (repository.atomicSessionUpdate c.sessionId (drained f)).1 })

def Journaled.after (s : Journaled) (c : AtomicCall) : Journaled :=
  ⟨(c.locked s.repository).1,
    s.journal ++ (c.locked s.repository).2.logged (c.locked s.repository).1 c.snapshot⟩

/-- The batch holds the lock first. -/
def interleaved : Pool Journaled AtomicCall :=
  let s : Journaled := ⟨oneSession, []⟩
  ⟨(s.after batching).after generating,
    [(generating.locked (s.after batching).repository).2, (batching.locked s.repository).2]⟩

theorem fresh_of_all {repository : GatInMemoryStreamRepository} {sessionId : SessionId}
    {id : StreamId} (h : (repository.store.get? sessionId).all
      fun session => id ∉ session.streams.keys) (session : StreamSession)
    (hget : repository.store.get? sessionId = some session) : id ∉ session.streams.keys := by
  rw [hget] at h
  exact of_decide_eq_true h

theorem step_after {s : Journaled} {c : AtomicCall}
    {f : StreamSession → DomainResult Value × StreamSession}
    (hlock : c.request.underLock sampleEnv c.phase = some f)
    (hfresh : (s.repository.store.get? c.sessionId).all fun session =>
      sampleEnv.uuid ∉ session.streams.keys) :
    JournaledStep s c (s.after c) (c.locked s.repository).2 := by
  refine ⟨?_, rfl⟩
  simp only [Journaled.after, AtomicCall.locked, hlock]
  exact .update sampleEnv hlock (fresh_of_all hfresh)

theorem reaches_interleaved : ReflTransGen (Pool.Step AtomicCall.Begins JournaledStep)
    ⟨⟨oneSession, []⟩, []⟩ interleaved := by
  let s : Journaled := ⟨oneSession, []⟩
  let called (c : AtomicCall) : AtomicCall := { c with phase := .called }
  have hpatches : JournaledStep s (called generating) s generating :=
    ⟨.extractPatches rfl rfl, rfl⟩
  have hstreams : JournaledStep s (called batching) s batching := ⟨.extractStreams sampleEnv rfl, rfl⟩
  have hbatch : JournaledStep s batching (s.after batching) (batching.locked oneSession).2 :=
    step_after rfl (by decide +kernel)
  have hgenerate : JournaledStep (s.after batching) generating
      ((s.after batching).after generating)
      (generating.locked (s.after batching).repository).2 :=
    step_after rfl (by decide +kernel)
  refine .head (.start (show (called generating).Begins from rfl)) ?_
  refine .head (.step (l := []) hpatches) ?_
  refine .head (.start (show (called batching).Begins from rfl)) ?_
  refine .head (.step (l := [generating]) hstreams) ?_
  refine .head (.step (l := [generating]) (r := []) hbatch) ?_
  exact .single (.step (l := []) hgenerate)

theorem atomic_of_reachable_interleaved :
    (interleaved.calls.filterMap AtomicCall.succeeded).length = 2 ∧
    (interleaved.calls.filterMap AtomicCall.succeeded).Perm
      (interleaved.shared.journal.map Entry.toOutcome) ∧
    interleaved.shared.journal.map (fun e => e.read.isSome) = [true, true] ∧
    ∃ raised session, Replay streaming (interleaved.shared.entries ⟨0⟩) raised session := by
  obtain ⟨hperm, raised, session, -, hreplay, -⟩ := atomic_of_reachable reaches_interleaved
    (show (AssocMap.empty.insert (⟨0⟩ : SessionId) streaming).get? ⟨0⟩ = some streaming from rfl)
  exact ⟨by decide +kernel, hperm, by decide +kernel, raised, session, hreplay⟩

end Interleaved

end Runs

end PJS.GatInMemoryStreamRepository
