import PJS.Publisher.Handlers
import PJS.Session.Announcements
import PJS.FrameStore.AppendOrder

/-! The books of the sessions: their statistics count frames, and the events that they have raised
announce frames. A step of a handler writes the same to both, and takes the frames along. -/
namespace PJS.SessionCommandHandler

open Relation GatInMemoryStreamRepository DomainEvent

section UnderLock
variable {session m : StreamSession} {env : SessionEnv}
  {request : GatInMemoryStreamRepository.Request} {phase : Phase} {value : Value}
  {f : StreamSession → DomainResult Value × StreamSession}

/-- An operation counts the frames that it returns, and announces as many. -/
theorem reports_of_underLock (hlock : request.underLock env phase = some f)
    (hf : f session = (.ok value, m)) : session.Reports (framesOf value).length m := by
  cases request with
  | createStream sourceData config =>
    cases phase <;> cases hlock
    obtain ⟨streamId, hr, rfl⟩ := returns_eq_ok hf
    have hreports := session.createStreamWithConfig_reports env sourceData config
    rwa [hr] at hreports
  | startStream streamId =>
    cases phase <;> cases hlock
    obtain ⟨⟨⟩, hr, rfl⟩ := returns_eq_ok hf
    have hreports := session.startStream_reports env streamId
    rwa [hr] at hreports
  | completeStream streamId =>
    cases phase <;> cases hlock
    obtain ⟨⟨⟩, hr, rfl⟩ := returns_eq_ok hf
    have hreports := session.completeStream_reports env streamId
    rwa [hr] at hreports
  | createStreamPatchFrames streamId priorityThreshold maxFrames =>
    cases phase with
    | extractedPatches snapshot patches =>
      cases hlock
      obtain ⟨frames, hr, rfl⟩ := returns_eq_ok hf
      exact StreamSession.commitPatchFramesForStream_reports env hr
    | _ => cases hlock
  | batchGenerateFrames priorityThreshold maxFrames =>
    cases phase with
    | extractedStreams snapshot extracted =>
      cases hlock
      obtain ⟨frames, hr, rfl⟩ := returns_eq_ok hf
      exact StreamSession.commitPriorityFrames_reports env hr
    | _ => cases hlock
  | closeSession =>
    cases phase <;> cases hlock
    obtain ⟨⟨⟩, hr, rfl⟩ := returns_eq_ok hf
    have hreports := session.close_reports env
    rwa [hr] at hreports

/-- The streams of the frames that an operation returns are in the session it leaves. -/
theorem mem_keys_of_committed (h : Committed session request value m) {id : StreamId}
    (hne : share request (framesOf value) id ≠ []) : id ∈ m.streams.keys := by
  rw [h.share_eq id] at hne
  obtain ⟨frame, hframe⟩ := List.exists_mem_of_ne_nil _ hne
  obtain ⟨hmem, hid⟩ := List.mem_filter.mp hframe
  obtain rfl : frame.streamId = id := of_decide_eq_true hid
  have hupper := (h.numbers.range frame hmem).2
  rw [AssocMap.mem_keys_iff]
  cases hget : m.streams.get? frame.streamId with
  | some stream => exact ⟨stream, rfl⟩
  | none =>
    have hzero : nextSequenceOf m.streams frame.streamId = 0 := by
      rw [nextSequenceOf, hget]
      rfl
    omega

end UnderLock

/-- The session has the stream. -/
def Service.Has (s : Service) (sessionId : SessionId) (streamId : StreamId) : Prop :=
  ∃ session, s.sessions.repository.store.get? sessionId = some session ∧
    streamId ∈ session.streams.keys

/-- The statistics of the sessions count the frames that the events raised announce. -/
structure Service.Booked (s : Service) : Prop where
  known : ∀ id session, s.sessions.repository.store.get? id = some session →
    session.id = id ∧ session.pendingEvents = [] ∧ WellKeyed session.streams
  counted : ∀ id, announced id s.raised =
    ((s.sessions.repository.store.get? id).map fun session => session.stats.totalFrames).getD 0

namespace Handling

/-- The call returns frames. -/
def Generated : Handling → Prop
  | .calling ⟨_, _, _, .returned (.ok (.frames _, _))⟩ => True
  | _ => False

/-- The frames of a session that a call has committed and not handed on. -/
def due (id : SessionId) : Handling → ℕ
  | .calling c =>
    (c.succeeded.map fun o => if o.sessionId = id then (framesOf o.value).length else 0).getD 0
  | _ => 0

/-- What the frames and events of a handler are worth. -/
def Carries (s : Service) : Handling → Prop
  | .saving _ session _ => session.stats.totalFrames = 0 ∧ session.streams = .empty
  | .calling c => ∀ o, c.succeeded = some o →
    (∀ id, announced id o.events = if o.sessionId = id then (framesOf o.value).length else 0) ∧
      ∀ id, share o.request (framesOf o.value) id ≠ [] → s.Has o.sessionId id
  | .publishing call => ∀ id, announced id call.unpublished = 0
  | _ => True

/-- What a step does to the sessions and their books. -/
inductive Effect (s : Service) (t : Handling) (s' : Service) (t' : Handling) : Prop
  | quiet (hstore : s'.sessions.repository.store = s.sessions.repository.store)
    (hraised : s'.raised = s.raised) (hdue : ∀ id, t'.due id = t.due id)
  | opens {session : StreamSession} (hget : s.sessions.repository.store.get? session.id = none)
    (hstore : s'.sessions.repository.store =
      s.sessions.repository.store.insert session.id session)
    (hraised : ∀ id, announced id s'.raised = announced id s.raised)
    (hdue : ∀ id, t'.due id = t.due id) (hpending : session.pendingEvents = [])
    (htotal : session.stats.totalFrames = 0) (hstreams : session.streams = .empty)
  | commits {session m : StreamSession} {frameCount : ℕ}
    (hget : s.sessions.repository.store.get? session.id = some session)
    (hstore : s'.sessions.repository.store =
      s.sessions.repository.store.insert session.id m.takeEvents.2)
    (hraised : ∀ id, announced id s'.raised =
      announced id s.raised + if session.id = id then frameCount else 0)
    (hdue : ∀ id, t.due id = 0 ∧ t'.due id = if session.id = id then frameCount else 0)
    (hreports : session.Reports frameCount m) (hcontinues : session.Continues m)
    (hkeyed : WellKeyed m.streams)

section Effect
variable {s s' : Service} {t t' u : Handling}

theorem Effect.booked (hs : s.Booked) (h : Effect s t s' t') : s'.Booked := by
  cases h with
  | quiet hstore hraised hdue =>
    constructor
    · rw [hstore]
      exact hs.known
    · rw [hstore, hraised]
      exact hs.counted
  | @opens session hget hstore hraised hdue hpending htotal hstreams =>
    constructor
    · intro id session' hget'
      rw [hstore, AssocMap.get?_insert] at hget'
      split_ifs at hget' with hid
      · obtain rfl : session = session' := Option.some.inj hget'
        refine ⟨hid.symm, hpending, fun streamId stream hstream => ?_⟩
        rw [hstreams] at hstream
        cases hstream
      · exact hs.known id session' hget'
    · intro id
      have hcounted := hs.counted id
      rw [hraised, hcounted, hstore, AssocMap.get?_insert]
      split_ifs with hid
      · rw [hid, hget, Option.map_some, Option.getD_some, htotal]
        rfl
      · rfl
  | @commits session m frameCount hget hstore hraised hdue hreports hcontinues hkeyed =>
    constructor
    · intro id session' hget'
      rw [hstore, AssocMap.get?_insert] at hget'
      split_ifs at hget' with hid
      · obtain rfl : m.takeEvents.2 = session' := Option.some.inj hget'
        exact ⟨hreports.id.trans hid.symm, rfl, hkeyed⟩
      · exact hs.known id session' hget'
    · intro id
      have hcounted := hs.counted id
      rw [hraised, hcounted, hstore, AssocMap.get?_insert]
      by_cases hid : id = session.id
      · rw [if_pos hid, if_pos hid.symm, hid, hget]
        exact hreports.totalFrames.symm
      · rw [if_neg hid, if_neg (Ne.symm hid), Nat.add_zero]

theorem Effect.has (h : Effect s t s' t') {sessionId : SessionId} {streamId : StreamId}
    (hhas : s.Has sessionId streamId) : s'.Has sessionId streamId := by
  obtain ⟨session', hget', hmem⟩ := hhas
  cases h with
  | quiet hstore => exact ⟨session', hstore ▸ hget', hmem⟩
  | @opens session hget hstore =>
    refine ⟨session', ?_, hmem⟩
    rw [hstore, AssocMap.get?_insert, if_neg, hget']
    intro hid
    rw [hid, hget] at hget'
    cases hget'
  | @commits session m frameCount hget hstore hraised hdue hreports hcontinues hkeyed =>
    rw [Service.Has, hstore, AssocMap.get?_insert]
    split_ifs with hid
    · rw [hid, hget] at hget'
      obtain rfl : session = session' := Option.some.inj hget'
      obtain ⟨stream, hstream⟩ := AssocMap.mem_keys_iff.mp hmem
      obtain ⟨stream', hstream', -⟩ := hcontinues.exists_stream hstream
      exact ⟨_, rfl, AssocMap.mem_keys_iff.mpr ⟨stream', hstream'⟩⟩
    · exact ⟨session', hget', hmem⟩

/-- Frames are due as soon as they are announced. -/
theorem Effect.due (h : Effect s t s' t') (id : SessionId) :
    t'.due id + announced id s.raised = t.due id + announced id s'.raised := by
  cases h with
  | quiet hstore hraised hdue => rw [hraised, hdue]
  | opens hget hstore hraised hdue => rw [hraised, hdue]
  | commits hget hstore hraised hdue =>
    obtain ⟨hbefore, hafter⟩ := hdue id
    rw [hbefore, hafter, hraised]
    omega

theorem Carries.grows (hu : Carries s u)
    (h : ∀ sessionId streamId, s.Has sessionId streamId → s'.Has sessionId streamId) :
    Carries s' u := by
  cases u with
  | calling c =>
    intro o ho
    obtain ⟨hannounced, hplaced⟩ := hu o ho
    exact ⟨hannounced, fun id hne => h _ _ (hplaced id hne)⟩
  | _ => exact hu

theorem carries_of_begins (h : t.Begins) : Carries s t := by
  cases t with
  | opening => trivial
  | calling c =>
    intro o ho
    rw [AtomicCall.succeeded, show c.phase = .called from h] at ho
    cases ho
  | _ => exact h.elim

theorem fresh_newSession {env env' : SessionEnv} {command : CreateSessionCommand}
    {id : SessionId} {now : DateTime} {session : StreamSession}
    (h : newSession env env' command id now = some (.ok (), session)) :
    session.stats.totalFrames = 0 ∧ session.streams = .empty := by
  unfold newSession StreamSession.withTimeProvider at h
  cases hexpires : now.addSeconds? command.config.sessionTimeoutSeconds.toInt64.toInt with
  | none =>
    rw [hexpires] at h
    cases h
  | some expiresAt =>
    rw [hexpires] at h
    cases hinfo : command.clientInfo with
    | none =>
      rw [hinfo] at h
      cases h
      exact ⟨rfl, rfl⟩
    | some clientInfo =>
      rw [hinfo] at h
      cases h
      exact ⟨rfl, rfl⟩

theorem effect_repository {c c' : AtomicCall} {sessions' : Journaled} (hs : s.Booked)
    (hextracted : c.Extracted) (hc : Carries s (.calling c))
    (h : JournaledStep s.sessions c sessions' c') :
    Effect s (.calling c) { s with sessions := sessions' } (.calling c') ∧
      Carries { s with sessions := sessions' } (.calling c') := by
  obtain ⟨hid, hrequest, heffect⟩ := h.1.effect
  cases heffect with
  | quiet hstore hsucceeded hphase =>
    have hjournal := journal_of_quiet h hphase
    refine ⟨.quiet hstore ?_ fun id => ?_, fun o ho => ?_⟩
    · rw [Service.raised, hjournal]
      rfl
    · rw [due, due, hsucceeded]
    · rw [hsucceeded] at ho
      obtain ⟨hannounced, hplaced⟩ := hc o ho
      refine ⟨hannounced, fun id hne => ?_⟩
      rw [Service.Has, hstore]
      exact hplaced id hne
  | @took env f session m value hlock hget hfresh hf hmutates hstore hbefore hphase =>
    obtain ⟨hsession, hnone, hkeyed⟩ := hs.known _ session hget
    have hreports := reports_of_underLock hlock hf
    have hcommitted := committed_of_underLock hkeyed hlock hextracted hfresh hf
    obtain ⟨events, hpending, hannounced⟩ := hreports.pending
    rw [hnone, List.nil_append] at hpending
    rw [← hpending] at hannounced
    have hafter : c'.succeeded = some ⟨c.sessionId, c.request, value, m.pendingEvents⟩ := by
      rw [AtomicCall.succeeded, hphase, hid, hrequest]
    rw [← hsession] at hget hstore
    refine ⟨.commits hget hstore (fun id => ?_) (fun id => ⟨?_, ?_⟩) hreports hmutates.continues
      hcommitted.keyed, fun o ho => ?_⟩
    · rw [raised_append (journal_of_took h (hsession ▸ hstore) hphase), announced_append, hannounced]
    · rw [due, hbefore]
      rfl
    · rw [due, hafter, hsession]
      rfl
    · rw [hafter] at ho
      cases ho
      refine ⟨fun id => ?_, fun id hne => ?_⟩
      · rw [hannounced, hsession]
      · refine ⟨m.takeEvents.2, ?_, mem_keys_of_committed hcommitted hne⟩
        rw [hstore, hsession, AssocMap.get?_insert_self]

theorem Step.effect (hs : Accounts s) (ht : Relies s t) (hb : s.Booked) (hc : Carries s t)
    (hgenerated : ¬ t.Generated) (h : Step s t s' t') : Effect s t s' t' ∧ Carries s' t' := by
  cases h with
  | activate env env' id now h =>
    obtain ⟨htotal, hstreams⟩ := fresh_newSession h
    exact ⟨.quiet rfl rfl fun _ => rfl, htotal, hstreams⟩
  | inactive => exact ⟨.quiet rfl rfl fun _ => rfl, trivial⟩
  | @save handle session events hid =>
    obtain ⟨hpending, time, rfl⟩ := ht
    obtain ⟨htotal, hstreams⟩ := hc
    refine ⟨.opens hid rfl (fun id => ?_) (fun _ => rfl) hpending htotal hstreams, fun id => rfl⟩
    have hraised : (saved s handle session [.sessionActivated session.id time]).raised.Perm
        (.sessionActivated session.id time :: s.raised) := raised_saved hs hid
    exact (announced_perm hraised).trans (Nat.zero_add _)
  | repository h => exact effect_repository hb ht.1.extracted hc h
  | @taken handle sessionId request value events =>
    have hvalue : framesOf value = [] := by
      cases value with
      | frames frames => exact absurd trivial hgenerated
      | _ => rfl
    obtain ⟨hannounced, -⟩ := hc _ rfl
    refine ⟨.quiet rfl rfl fun id => ?_, fun id => ?_⟩
    · simp [due, AtomicCall.succeeded, hvalue]
    · refine (hannounced id).trans ?_
      rw [hvalue]
      exact ite_self 0
  | refuse => exact ⟨.quiet rfl rfl fun _ => rfl, trivial⟩
  | publish h =>
    refine ⟨.quiet rfl rfl fun _ => rfl, fun id => ?_⟩
    have hle := announced_le id (h.unpublished_le ht.2)
    have hzero := hc id
    omega

end Effect

end Handling

end PJS.SessionCommandHandler
