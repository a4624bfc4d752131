import PJS.Repository.Repository

/-! The statistics that `get_session_health` reports, and the caches they come from: the cache of
a repository is filled from a snapshot of the session, dropped by the operations that go through
this repository, and copied when the repository is cloned. -/
namespace PJS

/-- The frames of all streams of the session. -/
def StreamSession.streamFrames (session : StreamSession) : ℕ :=
  session.streams.total fun stream => stream.stats.totalFrames

structure SessionHealthSnapshot where
  sessionId : SessionId
  isHealthy : Bool
  activeStreams : ℕ
  totalFrames : ℕ
  lastActivity : DateTime
  errorRate : Float
  metrics : List (String × Float)

namespace GatInMemoryStreamRepository

/-- The total of a cached entry that is present and still valid. -/
def cachedTotal (repository : GatInMemoryStreamRepository) (handle : ℕ) (sessionId : SessionId) :
    Option ℕ :=
  match (repository.statsCache handle).get? sessionId with
  | some cached => if cached.isValid repository.clock then some cached.totalFrames else none
  | none => none

/-- Update or insert the cache entry. -/
def cacheTotal (repository : GatInMemoryStreamRepository) (handle : ℕ) (sessionId : SessionId)
    (totalFrames : ℕ) : GatInMemoryStreamRepository :=
  { repository with
    statsCache := Function.update repository.statsCache handle
      ((repository.statsCache handle).insert sessionId ⟨totalFrames, repository.clock⟩) }

/-- A clone shares the store, and takes a copy of the cache. -/
def clone (repository : GatInMemoryStreamRepository) (handle : ℕ) : GatInMemoryStreamRepository :=
  { repository with
    statsCache := Function.update repository.statsCache repository.clones
      (repository.statsCache handle)
    clones := repository.clones + 1 }

/-- The snapshot of the health of a session, with the total it was given. -/
def healthSnapshot (sessionId : SessionId) (session : StreamSession) (health : SessionHealth)
    (totalFrames : ℕ) : SessionHealthSnapshot :=
  let failedStreams := Float.ofNat health.failedStreams
  let totalStreams := Float.ofNat session.streams.size
  { sessionId
    isHealthy := health.isHealthy
    activeStreams := health.activeStreams
    totalFrames
    lastActivity := session.updatedAt
    errorRate := if 0 < totalStreams then failedStreams / totalStreams else 0
    metrics := [("active_streams", Float.ofNat health.activeStreams),
      ("total_bytes", Float.ofNat session.stats.totalBytes),
      ("recent_avg_duration_ms", session.stats.recentAvgDurationMs)] }

inductive SavePhase
  | called
  | invalidated
  | returned

inductive HealthPhase
  | called
  /-- The snapshot of the session, before the cache is looked up. -/
  | read (session : StreamSession) (health : SessionHealth)
  /-- No valid entry was found, and the total of the snapshot is to be cached. -/
  | missed (session : StreamSession) (health : SessionHealth)
  | returned (result : DomainResult SessionHealthSnapshot)

/-- A call through one of the clones, the clone of one, or a reading of the system clock. -/
inductive Operation
  | atomic (c : AtomicCall)
  | saveSession (handle : ℕ) (session : StreamSession) (phase : SavePhase)
  | getSessionHealth (handle : ℕ) (sessionId : SessionId) (phase : HealthPhase)
  | clone (handle : ℕ) (made : Option ℕ)
  | clock (now : ℕ) (done : Bool)

namespace Operation

/-- One access of a map for each step. -/
inductive Step (repository : GatInMemoryStreamRepository) :
    Operation → GatInMemoryStreamRepository → Operation → Prop
  | atomic {c c' : AtomicCall} {repository' : GatInMemoryStreamRepository}
    (hhandle : c.handle < repository.clones) (h : AtomicCall.Step repository c repository' c') :
    Step repository (.atomic c) repository' (.atomic c')
  | invalidate {handle : ℕ} {session : StreamSession} (hhandle : handle < repository.clones) :
    Step repository (.saveSession handle session .called)
      (repository.invalidateStatsCache handle session.id)
      (.saveSession handle session .invalidated)
  | insert {handle : ℕ} {session : StreamSession} :
    Step repository (.saveSession handle session .invalidated)
      { repository with store := repository.store.insert session.id session }
      (.saveSession handle session .returned)
  | absent {handle : ℕ} {sessionId : SessionId} (hhandle : handle < repository.clones)
    (hget : repository.store.get? sessionId = none) :
    Step repository (.getSessionHealth handle sessionId .called) repository
      (.getSessionHealth handle sessionId (.returned (.error (sessionNotFound sessionId))))
  | read {handle : ℕ} {sessionId : SessionId} {session : StreamSession} (env : SessionEnv)
    (hhandle : handle < repository.clones)
    (hget : repository.store.get? sessionId = some session) :
    Step repository (.getSessionHealth handle sessionId .called) repository
      (.getSessionHealth handle sessionId (.read session (session.healthCheck env)))
  | hit {handle totalFrames : ℕ} {sessionId : SessionId} {session : StreamSession}
    {health : SessionHealth}
    (hcached : repository.cachedTotal handle session.id = some totalFrames) :
    Step repository (.getSessionHealth handle sessionId (.read session health)) repository
      (.getSessionHealth handle sessionId
        (.returned (.ok (healthSnapshot sessionId session health totalFrames))))
  | miss {handle : ℕ} {sessionId : SessionId} {session : StreamSession} {health : SessionHealth}
    (hcached : repository.cachedTotal handle session.id = none) :
    Step repository (.getSessionHealth handle sessionId (.read session health)) repository
      (.getSessionHealth handle sessionId (.missed session health))
  | cache {handle : ℕ} {sessionId : SessionId} {session : StreamSession} {health : SessionHealth} :
    Step repository (.getSessionHealth handle sessionId (.missed session health))
      (repository.cacheTotal handle session.id session.streamFrames)
      (.getSessionHealth handle sessionId
        (.returned (.ok (healthSnapshot sessionId session health session.streamFrames))))
  | clone {handle : ℕ} (hhandle : handle < repository.clones) :
    Step repository (.clone handle none) (repository.clone handle)
      (.clone handle (some repository.clones))
  | clock {now : ℕ} :
    Step repository (.clock now false) { repository with clock := now } (.clock now true)

/-- The operation has not taken a step. -/
def isNew : Operation → Bool
  | .atomic c => match c.phase with
    | .called => true
    | _ => false
  | .saveSession _ _ phase => match phase with
    | .called => true
    | _ => false
  | .getSessionHealth _ _ phase => match phase with
    | .called => true
    | _ => false
  | .clone _ made => made.isNone
  | .clock _ done => !done

end Operation

/-- The repository, and the sessions it stored at every instant of the run, now last. -/
structure Timed where
  repository : GatInMemoryStreamRepository
  instants : List (AssocMap SessionId StreamSession)

/-- An operation, the instant at which it took its first step, and the number of instants there
were when it took its last. -/
structure TimedCall where
  operation : Operation
  since : ℕ
  upTo : ℕ

def TimedCall.Begins (t : TimedCall) : Prop := t.operation.isNew = true

/-- Every step leads to the next instant. -/
def TimedStep (s : Timed) (t : TimedCall) (s' : Timed) (t' : TimedCall) : Prop :=
  Operation.Step s.repository t.operation s'.repository t'.operation ∧
  s'.instants = s.instants ++ [s'.repository.store] ∧
  t'.since = (if t.operation.isNew then s.instants.length - 1 else t.since) ∧
  t'.upTo = s.instants.length

/-- At an instant from one on and before another the streams of the session had that total. -/
def Timed.Within (s : Timed) (since upTo : ℕ) (sessionId : SessionId) (total : ℕ) : Prop :=
  ∃ i store session, since ≤ i ∧ i < upTo ∧ s.instants[i]? = some store ∧
    store.get? sessionId = some session ∧ session.streamFrames = total

/-- One repository with these sessions. -/
def timed (store : AssocMap SessionId StreamSession) (clock : ℕ) : Timed :=
  ⟨ofStore store clock, [store]⟩

end GatInMemoryStreamRepository

end PJS
