import PJS.Repository.Atomicity
import PJS.FrameStore.Handlers

/-! The order in which handlers append: a handler takes the numbers of its frames under the lock
of the session, and appends the frames later. The histories of the streams are in the order of
the numbers as long as nobody appends frames of a stream while another handler still has frames
of it with smaller numbers. -/
namespace PJS.SessionCommandHandler

open Relation GatInMemoryStreamRepository InMemoryFrameStore

section UnderLock
variable {session m : StreamSession} {env : SessionEnv} {c : AtomicCall} {value : Value}
  {f : StreamSession → DomainResult Value × StreamSession}

/-- The frames that an operation returns. -/
def framesOf : Value → List Frame
  | .frames frames => frames
  | _ => []

/-- What holds of the frames that an operation commits under the lock. -/
structure Committed (session : StreamSession) (request : GatInMemoryStreamRepository.Request)
    (value : Value) (m : StreamSession) : Prop where
  numbers : Numbers session.streams m.streams (framesOf value)
  keyed : WellKeyed m.streams
  share_eq : ∀ id, share request (framesOf value) id =
    (framesOf value).filter fun f => f.streamId = id

theorem share_nil (request : GatInMemoryStreamRepository.Request) (id : StreamId) :
    share request [] id = [] := by
  cases request <;> simp [share]

theorem committed_of_took {entry : Ledger.Entry} (hk : WellKeyed session.streams)
    (htook : session.Took entry m)
    (hfresh : ∀ id, entry = .create id → id ∉ session.streams.keys) (hwipe : entry ≠ .wipe)
    (request : GatInMemoryStreamRepository.Request) (hvalue : framesOf value = []) :
    Committed session request value m := by
  refine ⟨?_, htook.keyed hk, fun id => ?_⟩
  · rw [hvalue]
    exact htook.numbers hfresh hwipe
  · rw [hvalue, share_nil]
    rfl

theorem committed_of_underLock (hk : WellKeyed session.streams)
    (hlock : c.request.underLock env c.phase = some f) (hextracted : c.Extracted)
    (hfresh : env.uuid ∉ session.streams.keys) (hf : f session = (.ok value, m)) :
    Committed session c.request value m := by
  obtain ⟨handle, sessionId, request, phase⟩ := c
  cases request with
  | createStream sourceData config =>
    cases phase <;> cases hlock
    obtain ⟨streamId, hr, rfl⟩ := returns_eq_ok hf
    have htook := StreamSession.took_of_eq_ok (session.createStreamWithConfig_cases env sourceData config) hr
    refine committed_of_took hk htook (fun id hid => ?_) (by simp) _ rfl
    cases hid
    exact hfresh
  | startStream streamId =>
    cases phase <;> cases hlock
    obtain ⟨⟨⟩, hr, rfl⟩ := returns_eq_ok hf
    have htook := StreamSession.took_of_eq_ok (session.startStream_cases env streamId) hr
    exact committed_of_took hk htook (by simp) (by simp) _ rfl
  | completeStream streamId =>
    cases phase <;> cases hlock
    obtain ⟨⟨⟩, hr, rfl⟩ := returns_eq_ok hf
    have htook := StreamSession.took_of_eq_ok (session.completeStream_cases env streamId) hr
    exact committed_of_took hk htook (by simp) (by simp) _ rfl
  | createStreamPatchFrames streamId priorityThreshold maxFrames =>
    cases phase with
    | extractedPatches snapshot patches =>
      cases hlock
      obtain ⟨frames, hr, rfl⟩ := returns_eq_ok hf
      obtain ⟨hids, hnumbers, hkeyed⟩ := StreamSession.commitPatchFramesForStream_numbers hk hr
      refine ⟨hnumbers, hkeyed, fun id => ?_⟩
      simp only [share, framesOf]
      split_ifs with hid
      · refine (List.filter_eq_self.mpr fun frame hframe => ?_).symm
        exact decide_eq_true ((hids frame hframe).trans hid)
      · refine (List.filter_eq_nil_iff.mpr fun frame hframe heq => hid ?_).symm
        exact (hids frame hframe).symm.trans (of_decide_eq_true heq)
    | _ => cases hlock
  | batchGenerateFrames priorityThreshold maxFrames =>
    cases phase with
    | extractedStreams snapshot extracted =>
      cases hlock
      obtain ⟨frames, hr, rfl⟩ := returns_eq_ok hf
      obtain ⟨env₀, rfl⟩ := hextracted
      obtain ⟨hnumbers, hkeyed⟩ := StreamSession.commitPriorityFrames_numbers hk
        (snapshot.descending_extracted env₀ priorityThreshold) hr
      exact ⟨hnumbers, hkeyed, fun id => rfl⟩
    | _ => cases hlock
  | closeSession =>
    cases phase <;> cases hlock
    obtain ⟨⟨⟩, hr, rfl⟩ := returns_eq_ok hf
    have htook := StreamSession.took_of_eq_ok ((session.close_cases env).imp_left And.right) hr
    exact committed_of_took hk htook (by simp) (by simp) _ rfl

end UnderLock

/-- The number of the next frame of a stream of the session. -/
def Backend.next {ι : Type*} (b : Backend ι) (sessionId : SessionId) (id : StreamId) : ℕ :=
  ((b.repository.store.get? sessionId).map fun session =>
    nextSequenceOf session.streams id).getD 0

namespace Task

variable {ι : Type*}

/-- The frames of a stream that a handler has committed, and has yet to append. -/
def held : Task ι → StreamId → List Frame
  | .calling c, id =>
    match c.succeeded with
    | some outcome => share outcome.request (framesOf outcome.value) id
    | none => []
  | .publishing request frames, id => share request frames id
  | .appending groups _, id => ofStream groups id
  | _, _ => []

/-- A handler may append when no other holds frames of the stream that come before these. -/
def Clear (_ : Backend ι) : Task ι → Task ι → Prop
  | .appending ((streamId, group) :: _) _, u =>
    ∀ f ∈ group, ∀ g ∈ u.held streamId, ¬ g.sequence < f.sequence
  | _, _ => True

/-- A call of the session, with patches that it extracted. -/
def Calls (sessionId : SessionId) : Task ι → Prop
  | .calling c => c.sessionId = sessionId ∧ c.Extracted
  | _ => True

variable {clients : ι → Client} {sessionId : SessionId} {b b' : Backend ι} {t t' u : Task ι}

/-- What holds of the sessions and the frames between steps. -/
structure Orderly (clients : ι → Client) (sessionId : SessionId) (b : Backend ι) : Prop where
  sound : b.frames.Sound clients
  keyed : ∀ session, b.repository.store.get? sessionId = some session → WellKeyed session.streams
  below : ∀ id, ∀ a ∈ b.frames.appended id, a.sequence < b.next sessionId id

/-- What a handler holds comes after everything that was appended. -/
structure Holding (sessionId : SessionId) (b : Backend ι) (t : Task ι) : Prop where
  calls : t.Calls sessionId
  ordered : ∀ id, (t.held id).Pairwise (·.sequence < ·.sequence)
  below : ∀ id, ∀ f ∈ t.held id, f.sequence < b.next sessionId id
  above : ∀ id, ∀ f ∈ t.held id, ∀ a ∈ b.frames.appended id, a.sequence < f.sequence

/-- No two handlers hold the same number. -/
def Distinct (t u : Task ι) : Prop :=
  ∀ id, ∀ f ∈ t.held id, ∀ g ∈ u.held id, f.sequence ≠ g.sequence

theorem held_of_begins (h : t.Begins sessionId) (id : StreamId) : t.held id = [] := by
  cases t with
  | calling c => rw [held, AtomicCall.succeeded, show c.phase = .called from h.1]
  | polling => rfl
  | _ => cases h

theorem holding_of_begins (h : t.Begins sessionId) : Holding sessionId b t := by
  have hnil := held_of_begins h
  refine ⟨?_, fun id => ?_, fun id f hf => ?_, fun id f hf => ?_⟩
  · cases t with
    | calling c =>
      have hsnapshot : c.snapshot = none := by
        rw [AtomicCall.snapshot, show c.phase = .called from h.1]
      exact ⟨h.2, extracted_of_snapshot hsnapshot⟩
    | _ => exact trivial
  · rw [hnil]
    exact List.Pairwise.nil
  · rw [hnil] at hf
    cases hf
  · rw [hnil] at hf
    cases hf

theorem held_append (streamId : StreamId) (group : List Frame)
    (groups : List (StreamId × List Frame)) (frames : List Frame) (id : StreamId) :
    (Task.appending ((streamId, group) :: groups) frames : Task ι).held id =
      (if streamId = id then group else []) ++ (Task.appending groups frames : Task ι).held id :=
  ofStream_cons streamId group groups id

theorem next_of_store (h : b'.repository.store = b.repository.store) (id : StreamId) :
    b'.next sessionId id = b.next sessionId id := by
  rw [Backend.next, Backend.next, h]

variable [DecidableEq ι]

/-- What a step does to the sessions, to the frames and to those that the handler holds. -/
inductive Effect (clients : ι → Client) (sessionId : SessionId) (b : Backend ι) (t : Task ι)
    (b' : Backend ι) (t' : Task ι) : Prop
  | quiet (hstore : b'.repository.store = b.repository.store)
    (happended : b'.frames.appended = b.frames.appended)
    (hsound : b.frames.Sound clients → b'.frames.Sound clients)
    (hheld : ∀ id, (t'.held id).Sublist (t.held id))
  | commits (hframes : b'.frames = b.frames)
    (hkeyed : ∀ session, b'.repository.store.get? sessionId = some session →
      WellKeyed session.streams)
    (hmono : ∀ id, b.next sessionId id ≤ b'.next sessionId id)
    (hrange : ∀ id, ∀ f ∈ t'.held id,
      b.next sessionId id ≤ f.sequence ∧ f.sequence < b'.next sessionId id)
    (hordered : ∀ id, (t'.held id).Pairwise (·.sequence < ·.sequence))
  | appends {streamId : StreamId} {group : List Frame} {groups : List (StreamId × List Frame)}
    {frames : List Frame} (ht : t = .appending ((streamId, group) :: groups) frames)
    (ht' : t' = .appending groups frames)
    (hb : b' = { b with frames := b.frames.post clients (.append streamId group) })

theorem effect_repository {c c' : AtomicCall} {repository' : GatInMemoryStreamRepository}
    (hkeyed : ∀ session, b.repository.store.get? sessionId = some session →
      WellKeyed session.streams)
    (hcall : (Task.calling c : Task ι).Calls sessionId)
    (h : AtomicCall.Step b.repository c repository' c') :
    (Task.calling c' : Task ι).Calls sessionId ∧
      Effect clients sessionId b (.calling c) { b with repository := repository' }
        (.calling c') := by
  obtain ⟨rfl, hextracted⟩ := hcall
  obtain ⟨hid, hrequest, heffect⟩ := h.effect
  cases heffect with
  | quiet hstore hsucceeded hphase hextracted' hsnapshot =>
    refine ⟨⟨hid, hextracted'⟩, .quiet hstore rfl (fun hs => hs) fun id => ?_⟩
    simp only [held, hsucceeded]
    exact List.Sublist.refl _
  | @took env f session m value hlock hget hfresh hf hmutates hstore hbefore hphase =>
    have hsnapshot : c'.snapshot = none := by rw [AtomicCall.snapshot, hphase]
    have hcommitted := committed_of_underLock (hkeyed session hget) hlock hextracted hfresh hf
    have hnumbers := hcommitted.numbers
    have hheld : ∀ id, (Task.calling c' : Task ι).held id =
        (framesOf value).filter fun f => f.streamId = id := fun id => by
      simp only [held, AtomicCall.succeeded, hphase, hrequest]
      exact hcommitted.share_eq id
    have hnext : ∀ id, b.next c.sessionId id = nextSequenceOf session.streams id := fun id => by
      rw [Backend.next, hget]
      rfl
    have hnext' : ∀ id, Backend.next { b with repository := repository' } c.sessionId id =
        nextSequenceOf m.streams id := fun id => by
      rw [Backend.next, hstore, AssocMap.get?_insert_self]
      rfl
    refine ⟨⟨hid, extracted_of_snapshot hsnapshot⟩, .commits rfl ?_ ?_ ?_ ?_⟩
    · intro session' hget'
      rw [hstore, AssocMap.get?_insert_self] at hget'
      rw [← Option.some.inj hget']
      exact hcommitted.keyed
    · intro id
      rw [hnext, hnext']
      exact hnumbers.mono id
    · intro id f hmem
      rw [hheld] at hmem
      obtain ⟨hmem, hstream⟩ := List.mem_filter.mp hmem
      rw [hnext, hnext', ← of_decide_eq_true hstream]
      exact hnumbers.range f hmem
    · intro id
      rw [hheld]
      exact hnumbers.ordered id

theorem Step.effect (hkeyed : ∀ session, b.repository.store.get? sessionId = some session →
      WellKeyed session.streams)
    (hcall : t.Calls sessionId) (h : Step clients b t b' t') :
    t'.Calls sessionId ∧ Effect clients sessionId b t b' t' := by
  have hnil : ∀ {u : Task ι}, (∀ id, u.held id = []) → ∀ id, (u.held id).Sublist (t.held id) := by
    intro u hu id
    rw [hu]
    exact List.nil_sublist _
  cases h with
  | repository h => exact effect_repository hkeyed hcall h
  | generated => exact ⟨trivial, .quiet rfl rfl (fun hs => hs) fun id => List.Sublist.refl _⟩
  | refused => exact ⟨trivial, .quiet rfl rfl (fun hs => hs) (hnil fun _ => rfl)⟩
  | unpublished => exact ⟨trivial, .quiet rfl rfl (fun hs => hs) (hnil fun _ => rfl)⟩
  | published h =>
    refine ⟨trivial, .quiet rfl rfl (fun hs => hs) fun id => ?_⟩
    rw [held, held, ofStream_of_groups h]
  | append => exact ⟨trivial, .appends rfl rfl rfl⟩
  | done => exact ⟨trivial, .quiet rfl rfl (fun hs => hs) (hnil fun _ => rfl)⟩
  | poll =>
    exact ⟨trivial, .quiet rfl rfl (fun hs => hs.poll _ _) (hnil fun _ => rfl)⟩

theorem mem_appended_post {w : World ι} {streamId id : StreamId} {group : List Frame} {a : Frame}
    (h : a ∈ (w.post clients (.append streamId group)).appended id) :
    a ∈ w.appended id ∨ id = streamId ∧ a ∈ group := by
  change a ∈ Function.update w.appended streamId (w.appended streamId ++ group) id at h
  rw [Function.update_apply] at h
  split_ifs at h with hid
  · rw [← hid] at h
    exact (List.mem_append.mp h).imp_right fun h => ⟨hid, h⟩
  · exact Or.inl h

theorem Effect.own (hb : Orderly clients sessionId b) (ht : Holding sessionId b t)
    (hcalls : t'.Calls sessionId) (h : Effect clients sessionId b t b' t') :
    Orderly clients sessionId b' ∧ Holding sessionId b' t' := by
  cases h with
  | quiet hstore happended hsound hheld =>
    have hnext : ∀ id, b'.next sessionId id = b.next sessionId id := next_of_store hstore
    refine ⟨⟨hsound hb.sound, ?_, ?_⟩, hcalls, fun id => (ht.ordered id).sublist (hheld id), ?_, ?_⟩
    · rw [hstore]
      exact hb.keyed
    · intro id a ha
      rw [happended] at ha
      rw [hnext]
      exact hb.below id a ha
    · intro id f hf
      rw [hnext]
      exact ht.below id f ((hheld id).subset hf)
    · intro id f hf a ha
      rw [happended] at ha
      exact ht.above id f ((hheld id).subset hf) a ha
  | commits hframes hkeyed hmono hrange hordered =>
    refine ⟨⟨?_, hkeyed, ?_⟩, hcalls, hordered, fun id f hf => (hrange id f hf).2, ?_⟩
    · rw [hframes]
      exact hb.sound
    · intro id a ha
      rw [hframes] at ha
      exact (hb.below id a ha).trans_le (hmono id)
    · intro id f hf a ha
      rw [hframes] at ha
      exact (hb.below id a ha).trans_le (hrange id f hf).1
  | @appends streamId group groups frames heq heq' hb' =>
    subst heq heq' hb'
    have hheld := held_append (ι := ι) streamId group groups frames
    have hfirst : ∀ f ∈ group, f ∈ (Task.appending ((streamId, group) :: groups) frames :
        Task ι).held streamId := fun f hf => by
      rw [hheld, if_pos rfl]
      exact List.mem_append_left _ hf
    have hrest : ∀ id, ∀ f ∈ (Task.appending groups frames : Task ι).held id,
        f ∈ (Task.appending ((streamId, group) :: groups) frames : Task ι).held id :=
      fun id f hf => by
        rw [hheld]
        exact List.mem_append_right _ hf
    have hsplit := ht.ordered streamId
    rw [hheld, if_pos rfl, List.pairwise_append] at hsplit
    have hallowed : b.frames.allowed (.append streamId group) :=
      List.pairwise_append.mpr ⟨hb.sound.ordered streamId, hsplit.1, fun a ha f hf =>
        ht.above streamId f (hfirst f hf) a ha⟩
    refine ⟨⟨hb.sound.append hallowed, hb.keyed, fun id a ha => ?_⟩, trivial, fun id => ?_,
      fun id f hf => ht.below id f (hrest id f hf), fun id f hf a ha => ?_⟩
    · rcases mem_appended_post ha with hold | ⟨rfl, hnew⟩
      · exact hb.below id a hold
      · exact ht.below id a (hfirst a hnew)
    · have hid := ht.ordered id
      rw [hheld] at hid
      exact (List.pairwise_append.mp hid).2.1
    · rcases mem_appended_post ha with hold | ⟨rfl, hnew⟩
      · exact ht.above id f (hrest id f hf) a hold
      · exact hsplit.2.2 a hnew f hf

theorem Effect.other (hu : Holding sessionId b u) (hdistinct : t.Distinct u)
    (hclear : Clear b t u) (h : Effect clients sessionId b t b' t') :
    Holding sessionId b' u ∧ t'.Distinct u := by
  cases h with
  | quiet hstore happended hsound hheld =>
    refine ⟨⟨hu.calls, hu.ordered, ?_, ?_⟩, fun id f hf => hdistinct id f ((hheld id).subset hf)⟩
    · intro id f hf
      rw [next_of_store hstore]
      exact hu.below id f hf
    · rw [happended]
      exact hu.above
  | commits hframes hkeyed hmono hrange hordered =>
    refine ⟨⟨hu.calls, hu.ordered, fun id f hf => (hu.below id f hf).trans_le (hmono id), ?_⟩, ?_⟩
    · rw [hframes]
      exact hu.above
    · -- the new numbers start where the stream stood, and the others hold smaller ones
      intro id f hf g hg heq
      have hlower := (hrange id f hf).1
      have hbelow := hu.below id g hg
      omega
  | @appends streamId group groups frames heq heq' hb' =>
    subst heq heq' hb'
    have hheld := held_append (ι := ι) streamId group groups frames
    refine ⟨⟨hu.calls, hu.ordered, hu.below, fun id g hg a ha => ?_⟩, fun id f hf => ?_⟩
    · rcases mem_appended_post ha with hold | ⟨rfl, hnew⟩
      · exact hu.above id g hg a hold
      · have hne : a.sequence ≠ g.sequence := by
          refine hdistinct id a ?_ g hg
          rw [hheld, if_pos rfl]
          exact List.mem_append_left _ hnew
        have hle := hclear a hnew g hg
        omega
    · refine hdistinct id f ?_
      rw [hheld]
      exact List.mem_append_right _ hf

theorem outline (clients : ι → Client) (sessionId : SessionId) :
    Pool.GuardedOutline (Begins sessionId) (Step clients) Clear (Orderly clients sessionId)
      (Holding sessionId) Distinct where
  symm := fun h id f hf g hg heq => h id g hg f hf heq.symm
  begins := fun _ ht => holding_of_begins ht
  begins_apart := fun {b t u} ht _ id f _ g hg => by
    rw [held_of_begins ht] at hg
    cases hg
  own := fun hb ht h =>
    have ⟨hcalls, heffect⟩ := h.effect hb.keyed ht.calls
    heffect.own hb ht hcalls
  other := fun hb ht hu hdistinct hclear h =>
    (h.effect hb.keyed ht.calls).2.other hu hdistinct hclear

section Runs
variable {config : SessionConfig} {now : DateTime} {first : StreamSession} {calls : List Call}
  {store : AssocMap SessionId StreamSession} {clock maxFramesPerStream : ℕ}
  {p : Pool (Backend ι) (Task ι)}

omit [DecidableEq ι] in
theorem orderly_idle (hnew : StreamSession.withTimeProvider config sessionId now = some first)
    (hstored : store.get? sessionId = some (Call.after first calls)) :
    Orderly clients sessionId ⟨ofStore store clock, .start maxFramesPerStream⟩ where
  sound := World.sound_start clients maxFramesPerStream
  keyed := fun session hget => by
    obtain rfl : Call.after first calls = session := Option.some.inj (hstored.symm.trans hget)
    exact Call.wellKeyed_of_run hnew calls
  below := fun id a ha => by cases ha

/-- As long as nobody appends frames of a stream while another handler holds frames of it with
smaller numbers, the histories are in the order of the numbers, and what a client wants of what
is retained it has received or will find on the pages it polls. -/
theorem pairwise_history_of_reachable
    (hnew : StreamSession.withTimeProvider config sessionId now = some first)
    (hstored : store.get? sessionId = some (Call.after first calls))
    (h : ReflTransGen (Pool.Guarded (Begins sessionId) (Step clients) Clear)
      (idle store clock maxFramesPerStream) p) :
    (∀ id, (p.shared.frames.store.history id).Pairwise (·.sequence < ·.sequence)) ∧
    ∀ i, (∀ frame ∈ p.shared.frames.store.history (clients i).streamId,
        (clients i).wants frame →
        frame ∈ p.shared.frames.received i ∨ frame ∈ p.shared.frames.ahead clients i) ∧
      ∀ limit, p.shared.frames.page clients i limit =
        ⟨capped limit (p.shared.frames.ahead clients i),
          (p.shared.frames.ahead clients i).length⟩ := by
  have horderly : Orderly clients sessionId ⟨ofStore store clock, .start maxFramesPerStream⟩ :=
    orderly_idle hnew hstored
  have hholds := (outline clients sessionId).reachable (Pool.holds_nil horderly) h
  have hsound := hholds.shared.sound
  have hsuffix : ∀ id, p.shared.frames.store.history id <:+ p.shared.frames.appended id := by
    intro id
    rw [hsound.history]
    exact Feed.retained_suffix _ _
  refine ⟨fun id => (hsound.ordered id).sublist (hsuffix id).sublist, fun i =>
    ⟨fun frame hframe hwants => ?_, fun limit => World.page_eq clients _ i limit⟩⟩
  have hfollows := hsound.follows i
  by_cases hreceived : frame ∈ p.shared.frames.received i
  · exact Or.inl hreceived
  · right
    have hdue := Feed.mem_due.mpr ⟨(hsuffix _).subset hframe, hwants, fun hmissed =>
      (hfollows.gone frame hmissed).2.2.1 hframe⟩
    rw [World.ahead_eq]
    exact Feed.mem_ahead.mpr
      ⟨hframe, hwants, hfollows.beyond (hsound.ordered _) hdue hreceived⟩

end Runs

section Overtaken

/-- What a call for frames obtains when it holds the lock. -/
def generated (repository : GatInMemoryStreamRepository) (c : AtomicCall) :
    Option (List Frame × List DomainEvent) :=
  match (c.locked repository).2.phase with
  | .updated (.frames frames) events => some (frames, events)
  | _ => none

def obtained (repository : GatInMemoryStreamRepository) (c : AtomicCall) : List Frame :=
  ((generated repository c).map Prod.fst).getD []

/-- The repository after a call that took the lock has dropped the statistics. -/
def afterwards (repository : GatInMemoryStreamRepository) (c : AtomicCall) :
    GatInMemoryStreamRepository :=
  (c.locked repository).1.invalidateStatsCache c.handle c.sessionId

/-- A handler of frames of one stream runs from its snapshot to where it appends. -/
theorem reaches_appending {l r : List (Task ι)} {handle maxFrames : ℕ} {streamId : StreamId}
    {priorityThreshold : Priority} {phase : Phase} {c : AtomicCall}
    (hc : c = ⟨handle, sessionId, .createStreamPatchFrames streamId priorityThreshold maxFrames,
      phase⟩)
    {f : StreamSession → DomainResult Value × StreamSession}
    (hlock : c.request.underLock sampleEnv c.phase = some f)
    (hfresh : (b.repository.store.get? c.sessionId).all fun session =>
      sampleEnv.uuid ∉ session.streams.keys)
    (hgenerated : (generated b.repository c).isSome) :
    ReflTransGen (Pool.Guarded (Begins sessionId) (Step clients) Clear)
      ⟨b, l ++ .calling c :: r⟩
      ⟨{ b with repository := afterwards b.repository c },
        l ++ .appending [(streamId, obtained b.repository c)] (obtained b.repository c) :: r⟩ := by
  obtain ⟨events, hphase⟩ : ∃ events, (c.locked b.repository).2.phase =
      .updated (.frames (obtained b.repository c)) events := by
    unfold obtained
    unfold generated at hgenerated ⊢
    split at hgenerated
    · rename_i frames events heq
      exact ⟨events, by rw [heq]; rfl⟩
    · cases hgenerated
  have hcall : (c.locked b.repository).2 = { c with
      phase := .updated (.frames (obtained b.repository c)) events } := by
    rw [← hphase]
    unfold AtomicCall.locked
    split <;> rfl
  have hstep : AtomicCall.Step b.repository c (c.locked b.repository).1
      (c.locked b.repository).2 := by
    simp only [AtomicCall.locked, hlock]
    exact .update sampleEnv hlock (fresh_of_all hfresh)
  rw [hcall] at hstep
  subst hc
  refine .head (.step (.repository hstep) fun u _ => trivial) ?_
  refine .head (.step (.repository .invalidate) fun u _ => trivial) ?_
  refine .head (.step .generated fun u _ => trivial) ?_
  exact .single (.step (.published .one) fun u _ => trivial)

/-- A call for one frame of the stream, after its snapshot. -/
def oneFrame : AtomicCall :=
  ⟨0, ⟨0⟩, .createStreamPatchFrames ⟨1⟩ .minimum 1, .extractedPatches streaming
    ((streaming.extractPrioritizedPatchesForStream ⟨1⟩ .minimum).toOption.getD [])⟩

def anyPriority : Unit → Client := fun _ => ⟨⟨1⟩, none⟩

def backend : Backend Unit := ⟨oneSession, .start 2⟩

theorem reaches_oneFrame (l : List (Task Unit)) :
    ReflTransGen (Pool.Guarded (Begins ⟨0⟩) (Step anyPriority) Clear) ⟨backend, l⟩
      ⟨backend, l ++ [.calling oneFrame]⟩ := by
  have hextract : AtomicCall.Step backend.repository { oneFrame with phase := .called }
      backend.repository oneFrame := .extractPatches rfl rfl
  have hbegins : Begins ⟨0⟩ (.calling { oneFrame with phase := .called } : Task Unit) := ⟨rfl, rfl⟩
  refine .head (.start hbegins) ?_
  exact .single (.step (r := []) (.repository hextract) fun u _ => trivial)

/-- Two handlers run at the same time. Both have committed one frame, and neither has appended. -/
def committed : Pool (Backend Unit) (Task Unit) :=
  let later := afterwards oneSession oneFrame
  ⟨⟨afterwards later oneFrame, backend.frames⟩,
    [.appending [(⟨1⟩, obtained oneSession oneFrame)] (obtained oneSession oneFrame),
      .appending [(⟨1⟩, obtained later oneFrame)] (obtained later oneFrame)]⟩

theorem reaches_committed : ReflTransGen (Pool.Guarded (Begins ⟨0⟩) (Step anyPriority) Clear)
    ⟨backend, []⟩ committed := by
  have hboth := (reaches_oneFrame []).trans (reaches_oneFrame [.calling oneFrame])
  have hfirst := hboth.trans (reaches_appending (l := []) rfl rfl (by decide +kernel)
    (by decide +kernel))
  exact hfirst.trans (reaches_appending (l := [_]) rfl rfl (by decide +kernel)
    (by decide +kernel))

/-- They append in the order in which they have committed; a client polls in between. -/
def inOrder : Pool (Backend Unit) (Task Unit) :=
  let later := afterwards oneSession oneFrame
  ⟨⟨afterwards later oneFrame,
    ((backend.frames.post anyPriority (.append ⟨1⟩ (obtained oneSession oneFrame))).post anyPriority
      (.poll () none)).post anyPriority (.append ⟨1⟩ (obtained later oneFrame))⟩,
    [.appending [] (obtained oneSession oneFrame), .appending [] (obtained later oneFrame),
      .polled ()]⟩

theorem reaches_inOrder : ReflTransGen (Pool.Guarded (Begins ⟨0⟩) (Step anyPriority) Clear)
    ⟨backend, []⟩ inOrder := by
  refine reaches_committed.trans ?_
  have hclear : ∀ f ∈ obtained oneSession oneFrame,
      ∀ g ∈ obtained (afterwards oneSession oneFrame) oneFrame, ¬ g.sequence < f.sequence := by
    decide +kernel
  refine .head (.step (l := []) .append fun u hu => ?_) ?_
  · rw [List.mem_singleton.mp hu]
    exact fun f hf g hg => hclear f hf g (by simpa [held, ofStream] using hg)
  have hpoll : Begins ⟨0⟩ (.polling () none : Task Unit) := trivial
  refine .head (.start hpoll) ?_
  refine .head (.step (l := [_, _]) (r := []) .poll fun u _ => trivial) ?_
  refine .single (.step (l := [_]) .append fun u hu => ?_)
  -- what the first handler held is appended
  have hnone : u.held ⟨1⟩ = [] := by
    rcases List.mem_append.mp hu with hu | hu <;> rw [List.mem_singleton.mp hu] <;> rfl
  intro f _ g hg
  rw [hnone] at hg
  cases hg

theorem pairwise_history_of_reachable_inOrder :
    (inOrder.shared.frames.received ()).map Frame.sequence = [1] ∧
    (inOrder.shared.frames.store.history ⟨1⟩).map Frame.sequence = [1, 2] ∧
    (inOrder.shared.frames.store.history ⟨1⟩).Pairwise (·.sequence < ·.sequence) :=
  ⟨by decide +kernel, by decide +kernel,
    (pairwise_history_of_reachable StreamSession.withTimeProvider_atEpoch
      (AssocMap.get?_insert_self (⟨0⟩ : SessionId) streaming .empty) reaches_inOrder).1 ⟨1⟩⟩

/-- The second of the handlers appends and the client polls before the first appends. -/
def overtaken : Pool (Backend Unit) (Task Unit) :=
  let later := afterwards oneSession oneFrame
  ⟨⟨afterwards later oneFrame,
    ((backend.frames.post anyPriority (.append ⟨1⟩ (obtained later oneFrame))).post anyPriority
      (.poll () none)).post anyPriority (.append ⟨1⟩ (obtained oneSession oneFrame))⟩,
    [.appending [] (obtained oneSession oneFrame), .appending [] (obtained later oneFrame),
      .polled ()]⟩

theorem reaches_overtaken : ReflTransGen (Pool.Step (Begins ⟨0⟩) (Step anyPriority))
    ⟨backend, []⟩ overtaken := by
  refine (ReflTransGen.mono (fun _ _ => Pool.Guarded.unguarded) _ _ reaches_committed).trans ?_
  refine .head (.step (l := [_]) .append) ?_
  have hpoll : Begins ⟨0⟩ (.polling () none : Task Unit) := trivial
  refine .head (.start hpoll) ?_
  refine .head (.step (l := [_, _]) (r := []) .poll) ?_
  exact .single (.step (l := []) .append)

/-- The frame that was overtaken is retained and wanted, and no page shows it. -/
theorem not_pairwise_history : ∃ p, ReflTransGen (Pool.Step (Begins ⟨0⟩) (Step anyPriority))
      (idle (AssocMap.empty.insert ⟨0⟩ (Call.after StreamSession.atEpoch
        (Call.batching ⟨1⟩ .epoch))) 0 2) p ∧
    (p.shared.frames.store.history ⟨1⟩).map Frame.sequence = [2, 1] ∧
    (p.shared.frames.received ()).map Frame.sequence = [2] ∧
    ∀ limit, (p.shared.frames.page anyPriority () limit).frames = [] := by
  refine ⟨overtaken, reaches_overtaken, by decide +kernel, by decide +kernel, fun limit => ?_⟩
  have hahead : overtaken.shared.frames.ahead anyPriority () = [] := by decide +kernel
  rw [World.page_eq, hahead]
  exact List.prefix_nil.mp (isPrefix_capped limit [])

end Overtaken

end Task

end PJS.SessionCommandHandler
