import PJS.Session.Events

/-! The frames that a session counts, and the frames that its events announce: every method adds
the same number to both. -/
namespace PJS

namespace DomainEvent

/-- The frames that an event announces for a session. -/
def frameCount (sessionId : SessionId) : DomainEvent → ℕ
  | .framesBatched id frameCount _ => if id = sessionId then frameCount else 0
  | _ => 0

/-- The frames that events announce for a session. -/
def announced (sessionId : SessionId) (events : List DomainEvent) : ℕ :=
  (events.map (frameCount sessionId)).sum

variable {sessionId : SessionId}

@[simp] theorem announced_nil : announced sessionId [] = 0 := rfl

@[simp] theorem announced_append (events events' : List DomainEvent) :
    announced sessionId (events ++ events') =
      announced sessionId events + announced sessionId events' := by
  rw [announced, List.map_append, List.sum_append]
  rfl

@[simp] theorem announced_singleton (event : DomainEvent) :
    announced sessionId [event] = event.frameCount sessionId := List.sum_singleton

/-- `announced`, of events in any order. -/
def announcedHom (sessionId : SessionId) : Multiset DomainEvent →+ ℕ :=
  Multiset.sumAddMonoidHom.comp (Multiset.mapAddMonoidHom (frameCount sessionId))

theorem announcedHom_coe (events : List DomainEvent) :
    announcedHom sessionId events = announced sessionId events := Multiset.sum_coe _

theorem announced_perm {events events' : List DomainEvent} (h : events.Perm events') :
    announced sessionId events = announced sessionId events' := (h.map _).sum_eq

theorem announced_le (sessionId : SessionId) {events events' : List DomainEvent}
    (h : (events : Multiset DomainEvent) ≤ events') :
    announced sessionId events ≤ announced sessionId events' := by
  obtain ⟨rest, hrest⟩ := Multiset.le_iff_exists_add.mp h
  have hsum := congrArg (announcedHom sessionId) hrest
  rw [map_add, announcedHom_coe, announcedHom_coe] at hsum
  omega

end DomainEvent

namespace StreamSession

/-- What lies between two states of a session: so many frames more are counted, and the events
raised announce as many. -/
structure Reports (session : StreamSession) (frameCount : ℕ) (session' : StreamSession) : Prop where
  id : session'.id = session.id
  totalFrames : session'.stats.totalFrames = session.stats.totalFrames + frameCount
  pending : ∃ events, session'.pendingEvents = session.pendingEvents ++ events ∧
    ∀ sessionId, DomainEvent.announced sessionId events =
      if session.id = sessionId then frameCount else 0

section Reports
variable {session session₁ session₂ : StreamSession} {frameCount frameCount' : ℕ}

/-- Whatever else changes. -/
theorem Reports.silent (hid : session₁.id = session.id)
    (htotal : session₁.stats.totalFrames = session.stats.totalFrames)
    (hp : session₁.pendingEvents = session.pendingEvents) : session.Reports 0 session₁ :=
  ⟨hid, htotal, [], by rw [hp, List.append_nil], by simp⟩

theorem Reports.trans (h : session.Reports frameCount session₁)
    (h' : session₁.Reports frameCount' session₂) :
    session.Reports (frameCount + frameCount') session₂ := by
  obtain ⟨hid, htotal, events, hp, hannounced⟩ := h
  obtain ⟨hid', htotal', events', hp', hannounced'⟩ := h'
  refine ⟨hid'.trans hid, by omega, events ++ events', ?_, fun sessionId => ?_⟩
  · rw [hp', hp, List.append_assoc]
  · rw [DomainEvent.announced_append, hannounced, hannounced', hid]
    split_ifs
    · rfl
    · rfl

theorem Reports.after_silent (h : session.Reports 0 session₁)
    (h' : session₁.Reports frameCount session₂) : session.Reports frameCount session₂ := by
  have hboth := h.trans h'
  rwa [Nat.zero_add] at hboth

/-- One more event, which announces no frames. -/
theorem Reports.snoc {event : DomainEvent} (h : session.Reports frameCount session₁)
    (hid : session₂.id = session₁.id)
    (htotal : session₂.stats.totalFrames = session₁.stats.totalFrames)
    (hp : session₂.pendingEvents = session₁.pendingEvents ++ [event])
    (hq : ∀ sessionId, event.frameCount sessionId = 0) : session.Reports frameCount session₂ := by
  have hlast : session₁.Reports 0 session₂ := by
    refine ⟨hid, htotal, [event], hp, fun sessionId => ?_⟩
    rw [DomainEvent.announced_singleton, hq, ite_self]
  exact h.trans hlast

end Reports

section Lifecycle
variable (env : SessionEnv) (session : StreamSession)

theorem createStream_reports (data : DataDocument) :
    session.Reports 0 (session.createStream env data).2 := by
  unfold createStream
  split_ifs
  · exact .silent rfl rfl rfl
  · exact .silent rfl rfl rfl
  · exact Reports.snoc (.silent rfl rfl rfl) rfl rfl rfl fun _ => rfl

/-- A method of one stream reports nothing by itself. -/
theorem withStream_reports {α : Type} (id : StreamId) (f : Stream → DomainResult α × Stream) :
    session.Reports 0 (session.withStream id f).2 := by
  unfold withStream
  split
  · exact .silent rfl rfl rfl
  · exact .silent rfl rfl rfl

theorem updateStreamConfig_reports (id : StreamId) (config : StreamConfig) :
    session.Reports 0 (session.updateStreamConfig env id config).2 := by
  unfold updateStreamConfig
  have h := session.withStream_reports id fun stream => stream.updateConfig env.toEnv config
  generalize session.withStream id _ = r at h ⊢
  obtain ⟨_ | _, session₁⟩ := r
  · exact h
  · exact h.snoc rfl rfl rfl fun _ => rfl

theorem createStreamWithConfig_reports (data : DataDocument) (config : Option StreamConfig) :
    session.Reports 0 (session.createStreamWithConfig env data config).2 := by
  unfold createStreamWithConfig
  have h := session.createStream_reports env data
  generalize session.createStream env data = r at h ⊢
  obtain ⟨_ | id, session₁⟩ := r
  · exact h
  · cases config with
    | none => exact h
    | some config =>
      have h' := session₁.updateStreamConfig_reports (afterCreate env) id config
      simp only
      generalize session₁.updateStreamConfig (afterCreate env) id config = r at h' ⊢
      obtain ⟨_ | _, session₂⟩ := r
      · exact h.trans h'
      · exact h.trans h'

theorem startStream_reports (id : StreamId) :
    session.Reports 0 (session.startStream env id).2 := by
  unfold startStream
  have h := session.withStream_reports id fun stream => stream.startStreaming env.toEnv
  generalize session.withStream id _ = r at h ⊢
  obtain ⟨_ | _, session₁⟩ := r
  · exact h
  · exact h.snoc rfl rfl rfl fun _ => rfl

theorem completeStream_reports (id : StreamId) :
    session.Reports 0 (session.completeStream env id).2 := by
  unfold completeStream
  have h := session.withStream_reports id (completeTimed env.toEnv)
  generalize session.withStream id _ = r at h ⊢
  obtain ⟨_ | duration, session₁⟩ := r
  · exact h
  · cases duration with
    | none => exact h.snoc rfl rfl rfl fun _ => rfl
    | some durationMs => exact h.snoc rfl rfl rfl fun _ => rfl

theorem close_reports : session.Reports 0 (session.close env).2 := by
  unfold close
  split
  · exact Reports.snoc (.silent rfl rfl rfl) rfl rfl rfl fun _ => rfl
  · exact .silent rfl rfl rfl

end Lifecycle

section Frames
variable (env : SessionEnv) {session m : StreamSession} {frames : List Frame}

/-- A batch without frames raises no event. -/
theorem recordFrames_reports (session : StreamSession) (frameCount bytes : ℕ) :
    session.Reports frameCount (session.recordFrames env frameCount bytes) := by
  unfold recordFrames
  simp only
  split_ifs with hnone
  · subst hnone
    exact .silent rfl rfl rfl
  · refine ⟨rfl, rfl, [_], rfl, fun sessionId => ?_⟩
    rw [DomainEvent.announced_singleton]
    rfl

theorem commitPatchFramesForStream_reports {id : StreamId} {patches : List (FramePatch × Priority)}
    {maxFrames : ℕ}
    (h : session.commitPatchFramesForStream env id patches maxFrames = (.ok frames, m)) :
    session.Reports frames.length m := by
  unfold commitPatchFramesForStream at h
  have hstream := session.withStream_reports id (commitMeasured env.toEnv patches maxFrames)
  generalize session.withStream id _ = r at h hstream
  obtain ⟨_ | ⟨committed, bytes⟩, session₁⟩ := r
  · cases h
  · cases h
    exact hstream.after_silent (session₁.recordFrames_reports env _ _)

theorem commitPriorityFrames_reports {extracted : Extracted} {batchSize : ℕ}
    (h : session.commitPriorityFrames env extracted batchSize = (.ok frames, m)) :
    session.Reports frames.length m := by
  unfold commitPriorityFrames at h
  split_ifs at h
  · cases h
  · set kept := survivors (session.candidates extracted) batchSize
    have hstreams : session.Reports 0 { session with
        streams := (finalizeCandidates env.toEnv session.streams kept).2 } := .silent rfl rfl rfl
    cases h
    exact hstreams.after_silent (recordFrames_reports _ _ _ _)

end Frames

end StreamSession

end PJS
