import PJS.Lib.Pool
import PJS.Session.Events
import PJS.Session.Materials

/-! `GatInMemoryStreamRepository`: the sessions that a repository shares with its clones, the
statistics each of them caches, and the steps of the `*_atomic` operations. -/
namespace PJS

/-- Cached session statistics. -/
structure CachedSessionStats where
  totalFrames : ℕ
  computedAtSecs : ℕ
deriving DecidableEq

def statsCacheTtlSecs : ℕ := 5

def CachedSessionStats.isValid (cached : CachedSessionStats) (now : ℕ) : Bool :=
  now - cached.computedAtSecs < statsCacheTtlSecs

/-- A repository and its clones. They share the store; each has its own cache. The system clock is
in seconds. -/
structure GatInMemoryStreamRepository where
  store : AssocMap SessionId StreamSession
  statsCache : ℕ → AssocMap SessionId CachedSessionStats
  clones : ℕ
  clock : ℕ

/-- A method that succeeds has the effect its cases give. -/
theorem StreamSession.took_of_eq_ok {session m : StreamSession} {α : Type}
    {r : DomainResult α × StreamSession} {entry : Ledger.Entry} {a : α}
    (h : (∃ e, r = (.error e, session)) ∨ ∃ a m', r = (.ok a, m') ∧ session.Took entry m')
    (hr : r = (.ok a, m)) : session.Took entry m := by
  rcases h with ⟨e, he⟩ | ⟨a', m', hok, htook⟩
  · rw [hr] at he
    cases he
  · rw [hr] at hok
    cases hok
    exact htook

namespace GatInMemoryStreamRepository

/-- One repository, with these sessions and an empty cache. -/
def ofStore (store : AssocMap SessionId StreamSession) (clock : ℕ) : GatInMemoryStreamRepository :=
  ⟨store, fun _ => .empty, 1, clock⟩

def sessionNotFound (sessionId : SessionId) : DomainError :=
  .sessionNotFound s!"Session {sessionId.toString} not found"

def invalidateStatsCache (repository : GatInMemoryStreamRepository) (handle : ℕ)
    (sessionId : SessionId) : GatInMemoryStreamRepository :=
  { repository with
    statsCache := Function.update repository.statsCache handle
      ((repository.statsCache handle).erase sessionId) }

/-- Apply `f` to the stored session under the lock of its entry. -/
def atomicSessionUpdate {α : Type} (repository : GatInMemoryStreamRepository)
    (sessionId : SessionId) (f : StreamSession → DomainResult α × StreamSession) :
    DomainResult α × GatInMemoryStreamRepository :=
  match repository.store.get? sessionId with
  | none => (.error (sessionNotFound sessionId), repository)
  | some session =>
    let (result, session) := f session
    (result, { repository with store := repository.store.insert sessionId session })

/-- A mutation that succeeds drains the session's events. -/
def drained {α : Type} (f : StreamSession → DomainResult α × StreamSession)
    (session : StreamSession) : DomainResult (α × List DomainEvent) × StreamSession :=
  match f session with
  | (.error e, session) => (.error e, session)
  | (.ok a, session) => let (events, session) := session.takeEvents; (.ok (a, events), session)

/-- The `*_atomic` operations. -/
inductive Request where
  | createStream (sourceData : DataDocument) (config : Option StreamConfig)
  | startStream (streamId : StreamId)
  | completeStream (streamId : StreamId)
  | createStreamPatchFrames (streamId : StreamId) (priorityThreshold : Priority) (maxFrames : ℕ)
  | batchGenerateFrames (priorityThreshold : Priority) (maxFrames : ℕ)
  | closeSession

inductive Phase where
  | called
  /-- The snapshot of the session, and the patches extracted from it. -/
  | extractedPatches (snapshot : StreamSession) (patches : List (FramePatch × Priority))
  | extractedStreams (snapshot : StreamSession) (extracted : StreamSession.Extracted)
  /-- The session is updated; the cached statistics are still to be dropped. -/
  | updated (value : Value) (events : List DomainEvent)
  | returned (result : DomainResult (Value × List DomainEvent))

def Phase.ofResult : DomainResult (Value × List DomainEvent) → Phase
  | .ok (value, events) => .updated value events
  | .error e => .returned (.error e)

/-- A call of an operation through one of the clones. -/
structure AtomicCall where
  handle : ℕ
  sessionId : SessionId
  request : Request
  phase : Phase

def AtomicCall.Begins (c : AtomicCall) : Prop := c.phase = .called

def returns {α : Type} (f : α → Value) (r : DomainResult α × StreamSession) :
    DomainResult Value × StreamSession := (r.1.map f, r.2)

/-- What an operation does under the lock. -/
def Request.underLock (env : SessionEnv) :
    Request → Phase → Option (StreamSession → DomainResult Value × StreamSession)
  | .createStream sourceData config, .called =>
    some fun session => returns .streamId (session.createStreamWithConfig env sourceData config)
  | .startStream streamId, .called =>
    some fun session => returns (fun _ => .unit) (session.startStream env streamId)
  | .completeStream streamId, .called =>
    some fun session => returns (fun _ => .unit) (session.completeStream env streamId)
  | .createStreamPatchFrames streamId _ maxFrames, .extractedPatches _ patches =>
    some fun session =>
      returns .frames (session.commitPatchFramesForStream env streamId patches maxFrames)
  | .batchGenerateFrames _ maxFrames, .extractedStreams _ extracted =>
    some fun session => returns .frames (session.commitPriorityFrames env extracted maxFrames)
  | .closeSession, .called => some fun session => returns (fun _ => .unit) (session.close env)
  | _, _ => none

/-- The steps of an operation. Frames are generated from a snapshot: one step reads the session
and extracts, a later one takes the lock. The identifier that `StreamId::new` draws is new. -/
inductive AtomicCall.Step (repository : GatInMemoryStreamRepository) :
    AtomicCall → GatInMemoryStreamRepository → AtomicCall → Prop
  | absent {handle : ℕ} {sessionId : SessionId} {request : Request}
    (hrequest : ∀ env, request.underLock env .called = none)
    (hget : repository.store.get? sessionId = none) :
    Step repository ⟨handle, sessionId, request, .called⟩ repository
      ⟨handle, sessionId, request, .returned (.error (sessionNotFound sessionId))⟩
  | extractPatches {handle : ℕ} {sessionId : SessionId} {streamId : StreamId}
    {priorityThreshold : Priority} {maxFrames : ℕ} {session : StreamSession}
    {patches : List (FramePatch × Priority)}
    (hget : repository.store.get? sessionId = some session)
    (hextract : session.extractPrioritizedPatchesForStream streamId priorityThreshold =
      .ok patches) :
    Step repository
      ⟨handle, sessionId, .createStreamPatchFrames streamId priorityThreshold maxFrames, .called⟩
      repository
      ⟨handle, sessionId, .createStreamPatchFrames streamId priorityThreshold maxFrames,
        .extractedPatches session patches⟩
  | refuse {handle : ℕ} {sessionId : SessionId} {streamId : StreamId}
    {priorityThreshold : Priority} {maxFrames : ℕ} {session : StreamSession} {e : DomainError}
    (hget : repository.store.get? sessionId = some session)
    (hextract : session.extractPrioritizedPatchesForStream streamId priorityThreshold =
      .error e) :
    Step repository
      ⟨handle, sessionId, .createStreamPatchFrames streamId priorityThreshold maxFrames, .called⟩
      repository
      ⟨handle, sessionId, .createStreamPatchFrames streamId priorityThreshold maxFrames,
        .returned (.error e)⟩
  | extractStreams {handle : ℕ} {sessionId : SessionId} {priorityThreshold : Priority}
    {maxFrames : ℕ} {session : StreamSession} (env : SessionEnv)
    (hget : repository.store.get? sessionId = some session) :
    Step repository
      ⟨handle, sessionId, .batchGenerateFrames priorityThreshold maxFrames, .called⟩
      repository
      ⟨handle, sessionId, .batchGenerateFrames priorityThreshold maxFrames, .extractedStreams
        session (session.extractPrioritizedPatchesForActiveStreams env priorityThreshold)⟩
  | update {handle : ℕ} {sessionId : SessionId} {request : Request} {phase : Phase}
    {f : StreamSession → DomainResult Value × StreamSession} (env : SessionEnv)
    (hlock : request.underLock env phase = some f)
    (hfresh : ∀ session, repository.store.get? sessionId = some session →
      env.uuid ∉ session.streams.keys) :
    Step repository ⟨handle, sessionId, request, phase⟩
      (repository.atomicSessionUpdate sessionId (drained f)).2
      ⟨handle, sessionId, request,
        .ofResult (repository.atomicSessionUpdate sessionId (drained f)).1⟩
  | invalidate {handle : ℕ} {sessionId : SessionId} {request : Request} {value : Value}
    {events : List DomainEvent} :
    Step repository ⟨handle, sessionId, request, .updated value events⟩
      (repository.invalidateStatsCache handle sessionId)
      ⟨handle, sessionId, request, .returned (.ok (value, events))⟩

section UnderLock
variable {env : SessionEnv} {request : Request} {phase : Phase}
  {f : StreamSession → DomainResult Value × StreamSession}

/-- A mutation that fails changes nothing; one that succeeds adds events, and keeps what patches
are made from. -/
structure Mutates (session m : StreamSession) : Prop where
  pending : ∃ raised, m.pendingEvents = session.pendingEvents ++ raised
  continues : session.Continues m

theorem returns_cases {α : Type} {g : α → Value} {r : DomainResult α × StreamSession}
    {session : StreamSession} {P : α → StreamSession → Prop}
    (h : (∃ e, r = (.error e, session)) ∨ ∃ a m, r = (.ok a, m) ∧ P a m)
    (hpending : ∃ raised, r.2.pendingEvents = session.pendingEvents ++ raised)
    (hcontinues : session.Continues r.2) :
    (∃ e, returns g r = (.error e, session)) ∨
      ∃ value m, returns g r = (.ok value, m) ∧ Mutates session m := by
  rcases h with ⟨e, rfl⟩ | ⟨a, m, rfl, -⟩
  · exact Or.inl ⟨e, rfl⟩
  · exact Or.inr ⟨g a, m, rfl, hpending, hcontinues⟩

theorem returns_eq_ok {α : Type} {g : α → Value} {r : DomainResult α × StreamSession}
    {value : Value} {m : StreamSession} (h : returns g r = (.ok value, m)) :
    ∃ a, r = (.ok a, m) ∧ value = g a := by
  obtain ⟨e | a, m'⟩ := r
  · cases h
  · cases h
    exact ⟨a, rfl, rfl⟩

theorem pending_of_raised {session m : StreamSession} {moves : List (StreamId × StreamState)}
    (h : session.Raised moves m) :
    ∃ raised, m.pendingEvents = session.pendingEvents ++ raised := by
  obtain ⟨⟨raised, hraised, -⟩, -⟩ := h
  exact ⟨raised, hraised⟩

theorem underLock_cases (h : request.underLock env phase = some f) {session : StreamSession}
    (hfresh : env.uuid ∉ session.streams.keys) :
    (∃ e, f session = (.error e, session)) ∨
      ∃ value m, f session = (.ok value, m) ∧ Mutates session m := by
  cases request with
  | createStream sourceData config =>
    cases phase <;> cases h
    exact returns_cases (session.createStreamWithConfig_cases env sourceData config)
      (pending_of_raised (session.createStreamWithConfig_raised env sourceData config))
      (session.continues_createStreamWithConfig env sourceData config hfresh)
  | startStream streamId =>
    cases phase <;> cases h
    exact returns_cases (session.startStream_cases env streamId)
      (pending_of_raised (session.startStream_raised env streamId))
      (StreamSession.continues_of_eq (session.materials_startStream env streamId))
  | completeStream streamId =>
    cases phase <;> cases h
    exact returns_cases (session.completeStream_cases env streamId)
      (pending_of_raised (session.completeStream_raised env streamId))
      (StreamSession.continues_of_eq (session.materials_completeStream env streamId))
  | createStreamPatchFrames streamId priorityThreshold maxFrames =>
    cases phase with
    | extractedPatches snapshot patches =>
      cases h
      refine returns_cases (P := fun _ _ => True) ?_
        (pending_of_raised
          (session.commitPatchFramesForStream_raised env streamId patches maxFrames))
        (StreamSession.continues_of_eq
          (session.materials_commitPatchFramesForStream env streamId patches maxFrames))
      rcases StreamSession.commitPatchFramesForStream_cases env session streamId patches maxFrames
        with ⟨hfail, -⟩ | ⟨-, frames, m, -, -, hok, -⟩
      · exact Or.inl hfail
      · exact Or.inr ⟨frames, m, hok, trivial⟩
    | _ => cases h
  | batchGenerateFrames priorityThreshold maxFrames =>
    cases phase with
    | extractedStreams snapshot extracted =>
      cases h
      refine returns_cases (P := fun _ _ => True) ?_
        (pending_of_raised (session.commitPriorityFrames_raised env extracted maxFrames))
        (StreamSession.continues_of_eq
          (session.materials_commitPriorityFrames env extracted maxFrames))
      rcases StreamSession.commitPriorityFrames_cases env session extracted maxFrames with
        ⟨-, hfail⟩ | ⟨-, frames, m, hok, -⟩
      · exact Or.inl ⟨_, hfail⟩
      · exact Or.inr ⟨frames, m, hok, trivial⟩
    | _ => cases h
  | closeSession =>
    cases phase <;> cases h
    refine returns_cases (P := fun _ _ => True) ?_ ?_
      (StreamSession.continues_of_eq (session.materials_close env))
    · rcases session.close_cases env with ⟨-, hfail⟩ | ⟨a, m, hok, -⟩
      · exact Or.inl hfail
      · exact Or.inr ⟨a, m, hok, trivial⟩
    · unfold StreamSession.close
      split
      · exact ⟨_, rfl⟩
      · exact ⟨[], (List.append_nil _).symm⟩

end UnderLock

section Steps
variable {repository repository' : GatInMemoryStreamRepository} {c c' : AtomicCall}

/-- What a call has extracted from the snapshot it remembers. -/
def AtomicCall.Extracted (c : AtomicCall) : Prop :=
  match c.phase, c.request with
  | .extractedPatches snapshot patches, .createStreamPatchFrames streamId priorityThreshold _ =>
    snapshot.extractPrioritizedPatchesForStream streamId priorityThreshold = .ok patches
  | .extractedStreams snapshot extracted, .batchGenerateFrames priorityThreshold _ =>
    ∃ env₀, extracted =
      snapshot.extractPrioritizedPatchesForActiveStreams env₀ priorityThreshold
  | _, _ => True

/-- The snapshot a call remembers. -/
def AtomicCall.snapshot (c : AtomicCall) : Option StreamSession :=
  match c.phase with
  | .extractedPatches snapshot _ | .extractedStreams snapshot _ => some snapshot
  | _ => none

/-- What an operation that succeeded returned. -/
structure Outcome where
  sessionId : SessionId
  request : Request
  value : Value
  events : List DomainEvent

/-- What a call that has held the lock with success returns. -/
def AtomicCall.succeeded (c : AtomicCall) : Option Outcome :=
  match c.phase with
  | .updated value events | .returned (.ok (value, events)) =>
    some ⟨c.sessionId, c.request, value, events⟩
  | _ => none

theorem update_cases {sessionId : SessionId} {request : Request} {phase : Phase} {env : SessionEnv}
    {f : StreamSession → DomainResult Value × StreamSession}
    (hlock : request.underLock env phase = some f)
    (hfresh : ∀ session, repository.store.get? sessionId = some session →
      env.uuid ∉ session.streams.keys) :
    (∃ e, repository.atomicSessionUpdate sessionId (drained f) = (.error e, repository)) ∨
    ∃ session value m, repository.store.get? sessionId = some session ∧
      f session = (.ok value, m) ∧ Mutates session m ∧
      repository.atomicSessionUpdate sessionId (drained f) = (.ok (value, m.pendingEvents),
        { repository with store := repository.store.insert sessionId m.takeEvents.2 }) := by
  unfold atomicSessionUpdate
  cases hget : repository.store.get? sessionId with
  | none => exact Or.inl ⟨_, rfl⟩
  | some session =>
    rcases underLock_cases hlock (hfresh session hget) with ⟨e, hf⟩ | ⟨value, m, hf, hmutates⟩
    · left
      refine ⟨e, ?_⟩
      simp only [drained, hf, AssocMap.insert_of_get? hget]
    · right
      refine ⟨session, value, m, rfl, hf, hmutates, ?_⟩
      simp only [drained, hf]
      rfl

/-- A step leaves the sessions alone, or runs an operation on one of them under the lock. -/
inductive AtomicCall.Effect (repository : GatInMemoryStreamRepository) (c : AtomicCall)
    (repository' : GatInMemoryStreamRepository) (c' : AtomicCall) : Prop
  | quiet (hstore : repository'.store = repository.store) (hsucceeded : c'.succeeded = c.succeeded)
    (hphase : ∀ value events, c'.phase ≠ .updated value events) (hextracted : c'.Extracted)
    (hsnapshot : ∀ snapshot, c'.snapshot = some snapshot →
      repository.store.get? c.sessionId = some snapshot)
  | took {env : SessionEnv} {f : StreamSession → DomainResult Value × StreamSession}
    {session m : StreamSession} {value : Value}
    (hlock : c.request.underLock env c.phase = some f)
    (hget : repository.store.get? c.sessionId = some session)
    (hfresh : env.uuid ∉ session.streams.keys) (hf : f session = (.ok value, m))
    (hmutates : Mutates session m)
    (hstore : repository'.store = repository.store.insert c.sessionId m.takeEvents.2)
    (hbefore : c.succeeded = none) (hphase : c'.phase = .updated value m.pendingEvents)

theorem extracted_of_snapshot (h : c.snapshot = none) : c.Extracted := by
  obtain ⟨handle, sessionId, request, phase⟩ := c
  cases phase with
  | extractedPatches | extractedStreams => cases h
  | _ => exact trivial

theorem succeeded_of_underLock {env : SessionEnv}
    {f : StreamSession → DomainResult Value × StreamSession}
    (hlock : c.request.underLock env c.phase = some f) : c.succeeded = none := by
  obtain ⟨handle, sessionId, request, phase⟩ := c
  cases phase with
  | called | extractedPatches | extractedStreams => rfl
  | updated | returned => cases request <;> cases hlock

theorem AtomicCall.Step.effect (h : Step repository c repository' c') :
    c'.sessionId = c.sessionId ∧ c'.request = c.request ∧
      Effect repository c repository' c' := by
  cases h with
  | absent hrequest hget =>
    exact ⟨rfl, rfl, .quiet rfl rfl (fun _ _ h => (by cases h)) trivial fun _ h => (by cases h)⟩
  | extractPatches hget hextract =>
    refine ⟨rfl, rfl, .quiet rfl rfl (fun _ _ h => (by cases h)) hextract fun _ hs => ?_⟩
    exact hget.trans hs
  | refuse hget hextract =>
    exact ⟨rfl, rfl, .quiet rfl rfl (fun _ _ h => (by cases h)) trivial fun _ h => (by cases h)⟩
  | extractStreams env hget =>
    refine ⟨rfl, rfl, .quiet rfl rfl (fun _ _ h => (by cases h)) ⟨env, rfl⟩ fun _ hs => ?_⟩
    exact hget.trans hs
  | @update handle sessionId request phase f env hlock hfresh =>
    refine ⟨rfl, rfl, ?_⟩
    have hbefore := succeeded_of_underLock (c := ⟨handle, sessionId, request, phase⟩) hlock
    rcases update_cases hlock hfresh with ⟨e, he⟩ | ⟨session, value, m, hget, hf, hmutates, hok⟩
    · rw [he]
      exact .quiet rfl hbefore.symm (fun _ _ h => (by cases h)) trivial fun _ h => (by cases h)
    · rw [hok]
      exact .took hlock hget (hfresh session hget) hf hmutates rfl hbefore rfl
  | invalidate =>
    exact ⟨rfl, rfl, .quiet rfl rfl (fun _ _ h => (by cases h)) trivial fun _ h => (by cases h)⟩

end Steps

end GatInMemoryStreamRepository

end PJS
