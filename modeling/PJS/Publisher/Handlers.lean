import PJS.Publisher.Retention
import PJS.Repository.Atomicity

/-! The events of commands that are handled at the same time: raised by a session, taken from it
under the lock of its entry, and published by the handler. Between the lock and the publisher only
the handler has them. -/
namespace PJS

open Relation GatInMemoryStreamRepository

/-- Create new session. -/
structure CreateSessionCommand where
  config : SessionConfig
  clientInfo : Option String
  userAgent : Option String
  ipAddress : Option String

/-- Store a session; the entry of the handle's cache goes first. -/
def GatInMemoryStreamRepository.saveSession (repository : GatInMemoryStreamRepository) (handle : ℕ)
    (session : StreamSession) : GatInMemoryStreamRepository :=
  { repository.invalidateStatsCache handle session.id with
    store := repository.store.insert session.id session }

/-- Operations leave no events behind. -/
theorem GatInMemoryStreamRepository.Replay.drained {first session : StreamSession}
    {entries : List Entry} {raised : List DomainEvent} (h : Replay first entries raised session)
    (hfirst : first.pendingEvents = []) : session.pendingEvents = [] := by
  cases h with
  | nil => exact hfirst
  | snoc => rfl

namespace InMemoryEventPublisher.Call
variable {ε : Type*} {s s' : History ε} {c c' : Call ε}

/-- What the call has not stored yet. -/
def unpublished (c : Call ε) : List ε :=
  match c.phase with
  | .reserving => c.events
  | .inserting pending => pending.filterMap (c.events[·]?)
  | _ => []

/-- No position is inserted twice. -/
def Once (c : Call ε) : Prop := ∀ pending, c.phase = .inserting pending → pending.Nodup

theorem filterMap_range (events : List ε) :
    (List.range events.length).filterMap (events[·]?) = events := by
  induction events with
  | nil => rfl
  | cons event events ih =>
    rw [List.length_cons, List.range_succ_eq_map, List.filterMap_cons, List.filterMap_map]
    exact congrArg (event :: ·) ih

/-- Taking one position out takes its event out. -/
theorem filterMap_filter_ne {events : List ε} {pending : List ℕ} (hn : pending.Nodup)
    {position : ℕ} (hp : position ∈ pending) {event : ε} (he : events[position]? = some event) :
    ((pending.filterMap (events[·]?) : List ε) : Multiset ε) =
      event ::ₘ ((pending.filter (· ≠ position)).filterMap (events[·]?) : List ε) := by
  have hperm : pending.Perm (position :: pending.filter (· ≠ position)) := by
    have herase : pending.filter (· ≠ position) = pending.erase position := by
      rw [hn.erase_eq_filter]
      exact List.filter_congr fun i _ => Bool.eq_iff_iff.mpr (by simp)
    rw [herase]
    exact List.perm_cons_erase hp
  rw [Multiset.cons_coe, Multiset.coe_eq_coe]
  have hmapped := hperm.filterMap (events[·]?)
  rwa [List.filterMap_cons_some he] at hmapped

/-- A step stores what it takes off the call. -/
theorem Step.unpublished (hc : c.Once) (h : Step s c s' c') :
    c'.Once ∧ (c.unpublished : Multiset ε) + (s.published.map (·.event) : List ε) =
      c'.unpublished + (s'.published.map (·.event) : List ε) := by
  cases h with
  | @reserve events base =>
    refine ⟨fun pending hp => ?_, ?_⟩
    · cases hp
      exact List.nodup_range
    · simp only [Call.unpublished, filterMap_range]
  | @insert events base position pending event id hpending hevent hid =>
    have hn := hc pending rfl
    refine ⟨fun pending' hp => ?_, ?_⟩
    · cases hp
      exact hn.filter _
    · simp only [Call.unpublished, History.store, List.map_append, List.map_cons, List.map_nil]
      rw [filterMap_filter_ne hn hpending hevent, ← Multiset.coe_add, Multiset.cons_add,
        ← Multiset.add_cons, Multiset.coe_singleton, add_comm (Multiset.ofList _) {event},
        Multiset.singleton_add]
  | underCapacity | overCapacity | visit | sort | remove =>
    exact ⟨fun _ hp => (by cases hp), rfl⟩

theorem Step.unpublished_le (hc : c.Once) (h : Step s c s' c') :
    (c'.unpublished : Multiset ε) ≤ c.unpublished := by
  have hsum := (h.unpublished hc).2
  have hgrown : (s.published.map (·.event) : Multiset ε) ≤
      (s'.published.map (·.event) : List ε) := by
    cases h with
    | insert =>
      rw [History.store, List.map_append, ← Multiset.coe_add]
      exact Multiset.le_add_right _ _
    | _ => exact le_rfl
  refine le_of_add_le_add_right (a := (s'.published.map (·.event) : Multiset ε)) ?_
  rw [← hsum]
  exact add_le_add_right hgrown _

end InMemoryEventPublisher.Call

namespace SessionCommandHandler

/-- The repository and the publisher that the handlers share, and every session as it was saved
first, with the events that came with it. -/
structure Service where
  sessions : Journaled
  publisher : InMemoryEventPublisher.History DomainEvent
  opened : AssocMap SessionId (StreamSession × List DomainEvent)

/-- The events that sessions have raised and handlers have taken. -/
def Service.raised (s : Service) : List DomainEvent :=
  s.opened.values.flatMap Prod.snd ++ s.sessions.journal.flatMap fun e => e.events

/-- The session that the command asks for, active. -/
def newSession (env env' : SessionEnv) (command : CreateSessionCommand) (id : SessionId)
    (now : DateTime) : Option (DomainResult Unit × StreamSession) := do
  let session ← StreamSession.withTimeProvider command.config id now
  let session := match command.clientInfo with
    | some clientInfo => session.setClientInfo env clientInfo command.userAgent command.ipAddress
    | none => session
  return session.activate env'

/-- A handler whose command is valid, up to the end of its publication. -/
inductive Handling where
  | opening (handle : ℕ) (command : CreateSessionCommand)
  | saving (handle : ℕ) (session : StreamSession) (events : List DomainEvent)
  | calling (c : AtomicCall)
  | publishing (call : InMemoryEventPublisher.Call DomainEvent)
  | refused (e : DomainError)

namespace Handling

/-- The steps of a handler. `Uuid::new_v4` gives a new session an identifier of its own. -/
inductive Step (s : Service) : Handling → Service → Handling → Prop
  | activate {handle : ℕ} {command : CreateSessionCommand} {session : StreamSession}
    (env env' : SessionEnv) (id : SessionId) (now : DateTime)
    (h : newSession env env' command id now = some (.ok (), session)) :
    Step s (.opening handle command) s
      (.saving handle session.takeEvents.2 session.takeEvents.1)
  | inactive {handle : ℕ} {command : CreateSessionCommand} {session : StreamSession}
    {e : DomainError} (env env' : SessionEnv) (id : SessionId) (now : DateTime)
    (h : newSession env env' command id now = some (.error e, session)) :
    Step s (.opening handle command) s (.refused e)
  | save {handle : ℕ} {session : StreamSession} {events : List DomainEvent}
    (hid : s.sessions.repository.store.get? session.id = none) :
    Step s (.saving handle session events)
      { s with
        sessions := { s.sessions with
          repository := s.sessions.repository.saveSession handle session }
        opened := s.opened.insert session.id (session, events) }
      (.publishing (.publishBatch events))
  | repository {c c' : AtomicCall} {sessions' : Journaled}
    (h : JournaledStep s.sessions c sessions' c') :
    Step s (.calling c) { s with sessions := sessions' } (.calling c')
  | taken {handle : ℕ} {sessionId : SessionId} {request : GatInMemoryStreamRepository.Request}
    {value : Value} {events : List DomainEvent} :
    Step s (.calling ⟨handle, sessionId, request, .returned (.ok (value, events))⟩) s
      (.publishing (.publishBatch events))
  | refuse {handle : ℕ} {sessionId : SessionId} {request : GatInMemoryStreamRepository.Request}
    {e : DomainError} :
    Step s (.calling ⟨handle, sessionId, request, .returned (.error e)⟩) s (.refused e)
  | publish {call call' : InMemoryEventPublisher.Call DomainEvent}
    {publisher' : InMemoryEventPublisher.History DomainEvent}
    (h : InMemoryEventPublisher.Call.Step s.publisher call publisher' call') :
    Step s (.publishing call) { s with publisher := publisher' } (.publishing call')

def Begins : Handling → Prop
  | .opening _ _ => True
  | .calling c => c.Begins
  | _ => False

/-- The handler has published its events, or had none. -/
def Ended : Handling → Prop
  | .publishing call => call.Done
  | .refused _ => True
  | _ => False

/-- No session, no event, no handler. -/
def idle (clock : ℕ) : Pool Service Handling :=
  ⟨⟨⟨ofStore .empty clock, []⟩, ⟨.new, []⟩, .empty⟩, []⟩

/-- The events that only the handler has. -/
def held : Handling → List DomainEvent
  | .calling c => (c.succeeded.map Outcome.events).getD []
  | .publishing call => call.unpublished
  | _ => []

section Invariant
variable {s s' : Service} {t t' u : Handling}

/-- A new session has raised one event, and it was taken. -/
def Activated (session : StreamSession) (events : List DomainEvent) : Prop :=
  session.pendingEvents = [] ∧ ∃ time, events = [.sessionActivated session.id time]

/-- The sessions are what their operations made of them since they were saved first. -/
structure Accounts (s : Service) : Prop where
  faithful : Faithful (s.opened.mapVal Prod.fst) s.sessions
  unopened : ∀ id, s.opened.get? id = none → s.sessions.entries id = []
  opened : ∀ id first events, s.opened.get? id = some (first, events) →
    first.id = id ∧ Activated first events
  publisher : s.publisher.Sound

/-- What a handler relies on. -/
def Relies (s : Service) : Handling → Prop
  | .saving _ session events => Activated session events
  | .calling c => Remembers (s.opened.mapVal Prod.fst) s.sessions c ∧
      (c.snapshot.isSome → (s.opened.get? c.sessionId).isSome)
  | .publishing call => call.Sound s.publisher ∧ call.Once
  | _ => True

/-- The blocks of sequences that two handlers have reserved do not overlap. -/
def Apart : Handling → Handling → Prop
  | .publishing call, .publishing call' => call.Apart call'
  | _, _ => True

theorem Apart.symm (h : t.Apart u) : u.Apart t := by
  cases t with
  | publishing call =>
    cases u with
    | publishing call' => exact InMemoryEventPublisher.outline.symm h
    | _ => trivial
  | _ => cases u <;> trivial

theorem isSome_opened (hs : Accounts s) {id : SessionId} {session : StreamSession}
    (hget : s.sessions.repository.store.get? id = some session) : (s.opened.get? id).isSome := by
  rw [Option.isSome_iff_ne_none]
  intro hnone
  have habsent := hs.faithful.absent id (by rw [AssocMap.get?_mapVal, hnone, Option.map_none])
  rw [hget] at habsent
  cases habsent

/-- A call that begins to publish disturbs nobody. -/
theorem apart_publishBatch (hu : Relies s u) (events : List DomainEvent) :
    Apart (.publishing (.publishBatch events)) u := by
  cases u with
  | publishing call =>
    exact InMemoryEventPublisher.outline.symm
      (InMemoryEventPublisher.outline.begins_apart ⟨events, rfl⟩ hu.1)
  | _ => trivial

theorem relies_publishBatch (hs : Accounts s) (events : List DomainEvent) :
    Relies s (.publishing (.publishBatch events)) :=
  ⟨InMemoryEventPublisher.outline.begins hs.publisher ⟨events, rfl⟩, fun _ hp => by cases hp⟩

section Saving
variable {handle : ℕ} {session : StreamSession} {events : List DomainEvent}

/-- The state after a session was saved. -/
def saved (s : Service) (handle : ℕ) (session : StreamSession) (events : List DomainEvent) :
    Service :=
  { s with
    sessions := { s.sessions with
      repository := s.sessions.repository.saveSession handle session }
    opened := s.opened.insert session.id (session, events) }

theorem opened_none (hs : Accounts s)
    (hid : s.sessions.repository.store.get? session.id = none) :
    s.opened.get? session.id = none := by
  cases hget : s.opened.get? session.id with
  | none => rfl
  | some e =>
    obtain ⟨-, current, hcurrent, -⟩ := hs.faithful.replay session.id e.1
      (by rw [AssocMap.get?_mapVal, hget, Option.map_some])
    rw [hid] at hcurrent
    cases hcurrent

theorem accounts_saved (hs : Accounts s)
    (hid : s.sessions.repository.store.get? session.id = none)
    (hactivated : Activated session events) : Accounts (saved s handle session events) := by
  have hnone := opened_none hs hid
  have hstore : ∀ id, (saved s handle session events).sessions.repository.store.get? id =
      if id = session.id then some session else s.sessions.repository.store.get? id :=
    fun id => AssocMap.get?_insert _ _ _ _
  have hopened : ∀ id, (saved s handle session events).opened.get? id =
      if id = session.id then some (session, events) else s.opened.get? id :=
    fun id => AssocMap.get?_insert _ _ _ _
  refine ⟨⟨fun id h => ?_, fun id first h => ?_⟩, fun id h => ?_, fun id first events' h => ?_,
    hs.publisher⟩
  · rw [AssocMap.get?_mapVal, hopened] at h
    by_cases heq : id = session.id
    · rw [if_pos heq] at h
      cases h
    · rw [if_neg heq] at h
      rw [hstore, if_neg heq]
      exact hs.faithful.absent id (by rw [AssocMap.get?_mapVal, h])
  · rw [AssocMap.get?_mapVal, hopened] at h
    rw [hstore]
    split_ifs at h ⊢ with heq
    · obtain rfl : session = first := Option.some.inj h
      have hentries : (saved s handle session events).sessions.entries id = [] := by
        rw [heq]
        exact hs.unopened session.id hnone
      rw [hentries]
      refine ⟨[], session, rfl, .nil, fun past hpast => ?_⟩
      rw [List.map_nil, List.mem_singleton] at hpast
      rw [hpast]
      exact StreamSession.continues_refl session
    · exact hs.faithful.replay id first (by rw [AssocMap.get?_mapVal, h])
  · rw [hopened] at h
    split_ifs at h with heq
    exact hs.unopened id h
  · rw [hopened] at h
    split_ifs at h with heq
    · cases h
      exact ⟨heq.symm, hactivated⟩
    · exact hs.opened id first events' h

theorem relies_saved (hs : Accounts s)
    (hid : s.sessions.repository.store.get? session.id = none) (hu : Relies s u) :
    Relies (saved s handle session events) u := by
  cases u with
  | calling c =>
    obtain ⟨⟨hextracted, hpast⟩, hsome⟩ := hu
    have hother : c.snapshot.isSome → c.sessionId ≠ session.id := fun h heq => by
      have hopened := hsome h
      rw [heq, opened_none hs hid] at hopened
      cases hopened
    have hget : c.snapshot.isSome →
        (saved s handle session events).opened.get? c.sessionId = s.opened.get? c.sessionId :=
      fun h => by
        change (s.opened.insert session.id (session, events)).get? c.sessionId = _
        rw [AssocMap.get?_insert, if_neg (hother h)]
    refine ⟨⟨hextracted, fun snapshot hsnapshot first hfirst => ?_⟩, fun h => ?_⟩
    · have h : c.snapshot.isSome := by rw [hsnapshot]; rfl
      rw [AssocMap.get?_mapVal, hget h] at hfirst
      exact hpast snapshot hsnapshot first (by rw [AssocMap.get?_mapVal, hfirst])
    · rw [hget h]
      exact hsome h
  | _ => exact hu

end Saving

theorem activated_newSession {env env' : SessionEnv} {command : CreateSessionCommand}
    {id : SessionId} {now : DateTime} {session : StreamSession}
    (h : newSession env env' command id now = some (.ok (), session)) :
    Activated session.takeEvents.2 session.takeEvents.1 := by
  refine ⟨rfl, env'.now 1, ?_⟩
  unfold newSession StreamSession.withTimeProvider at h
  cases hexpires : now.addSeconds? command.config.sessionTimeoutSeconds.toInt64.toInt with
  | none =>
    rw [hexpires] at h
    cases h
  | some expiresAt =>
    rw [hexpires] at h
    cases hinfo : command.clientInfo with
    | none =>
      rw [hinfo] at h
      cases h
      rfl
    | some clientInfo =>
      rw [hinfo] at h
      cases h
      rfl

/-- A step of a call on the repository. -/
theorem accounts_repository {c c' : AtomicCall} {sessions' : Journaled} (hs : Accounts s)
    (hc : Relies s (.calling c)) (h : JournaledStep s.sessions c sessions' c') :
    Accounts { s with sessions := sessions' } ∧
      Relies { s with sessions := sessions' } (.calling c') := by
  obtain ⟨hid, -, heffect⟩ := h.1.effect
  have hremembers := h.remembers hs.faithful
  cases heffect with
  | quiet hstore hsucceeded hphase hextracted hsnapshot =>
    have hjournal := journal_of_quiet h hphase
    refine ⟨⟨h.faithful hs.faithful hc.1, fun id hnone => ?_, hs.opened, hs.publisher⟩,
      hremembers, fun hsome => ?_⟩
    · rw [Journaled.entries, hjournal]
      exact hs.unopened id hnone
    · obtain ⟨snapshot, hsome⟩ := Option.isSome_iff_exists.mp hsome
      rw [hid]
      exact isSome_opened hs (hsnapshot snapshot hsome)
  | @took env f session m value hlock hget hfresh hf hmutates hstore hbefore hphase =>
    have hjournal := journal_of_took h hstore hphase
    refine ⟨⟨h.faithful hs.faithful hc.1, fun id hnone => ?_, hs.opened, hs.publisher⟩,
      hremembers, fun hsome => ?_⟩
    · have hne : c.sessionId ≠ id := by
        rintro rfl
        have hopened := isSome_opened hs hget
        rw [hnone] at hopened
        cases hopened
      rw [entries_append sessions' hjournal, if_neg hne, List.append_nil]
      exact hs.unopened id hnone
    · rw [AtomicCall.snapshot, hphase] at hsome
      cases hsome

theorem relies_repository {c c' : AtomicCall} {sessions' : Journaled}
    (h : JournaledStep s.sessions c sessions' c') (hu : Relies s u) :
    Relies { s with sessions := sessions' } u := by
  cases u with
  | calling d => exact ⟨h.keeps hu.1, hu.2⟩
  | _ => exact hu

theorem outline : Pool.Outline Begins Step Accounts Relies Apart where
  symm := Apart.symm
  begins := fun {s t} _ ht => by
    cases t with
    | opening => trivial
    | calling c =>
      have hnone : c.snapshot = none := by rw [AtomicCall.snapshot, show c.phase = .called from ht]
      refine ⟨⟨extracted_of_snapshot hnone, fun snapshot h => ?_⟩, fun h => ?_⟩
      · rw [hnone] at h
        cases h
      · rw [hnone] at h
        cases h
    | _ => exact ht.elim
  begins_apart := fun {s t u} ht _ => by
    cases t with
    | publishing => exact ht.elim
    | _ => cases u <;> trivial
  own := fun {s t s' t'} hs ht h => by
    cases h with
    | activate env env' id now h => exact ⟨hs, activated_newSession h⟩
    | inactive => exact ⟨hs, trivial⟩
    | @save handle session events hid =>
      have hsaved : Accounts (saved s handle session events) := accounts_saved hs hid ht
      exact ⟨hsaved, relies_publishBatch hsaved _⟩
    | repository h => exact accounts_repository hs ht h
    | taken => exact ⟨hs, relies_publishBatch hs _⟩
    | refuse => exact ⟨hs, trivial⟩
    | publish h =>
      obtain ⟨hsound, hcall⟩ := InMemoryEventPublisher.outline.own hs.publisher ht.1 h
      exact ⟨{ hs with publisher := hsound }, hcall, (h.unpublished ht.2).1⟩
  other := fun {s t s' t' u} hs ht hu hapart h => by
    cases h with
    | activate | inactive | refuse => exact ⟨hu, by cases u <;> trivial⟩
    | @save handle session events hid =>
      have hother : Relies (saved s handle session events) u := relies_saved hs hid hu
      exact ⟨hother, apart_publishBatch hother _⟩
    | repository h => exact ⟨relies_repository h hu, by cases u <;> trivial⟩
    | taken => exact ⟨hu, apart_publishBatch hu _⟩
    | publish h =>
      cases u with
      | publishing call =>
        obtain ⟨hcall, hstill⟩ :=
          InMemoryEventPublisher.outline.other hs.publisher ht.1 hu.1 hapart h
        exact ⟨⟨hcall, hu.2⟩, hstill⟩
      | _ => exact ⟨hu, trivial⟩

end Invariant

section Raised
variable {s : Service}

/-- A session that is saved first comes with its events. -/
theorem raised_saved (hs : Accounts s) {handle : ℕ} {session : StreamSession}
    {events : List DomainEvent} (hid : s.sessions.repository.store.get? session.id = none) :
    (saved s handle session events).raised.Perm (events ++ s.raised) := by
  have hvalues : (s.opened.insert session.id (session, events)).values =
      s.opened.values ++ [(session, events)] :=
    AssocMap.values_insert_of_none (opened_none hs hid) _
  change ((s.opened.insert session.id (session, events)).values.flatMap Prod.snd ++
    s.sessions.journal.flatMap fun e => e.events).Perm _
  rw [hvalues, List.flatMap_append, List.flatMap_singleton, Service.raised, ← List.append_assoc]
  exact List.perm_append_comm.append_right _

theorem raised_append {sessions' : Journaled} {e : Entry}
    (h : sessions'.journal = s.sessions.journal ++ [e]) :
    Service.raised { s with sessions := sessions' } = s.raised ++ e.events := by
  rw [Service.raised, h, List.flatMap_append, List.flatMap_singleton, ← List.append_assoc]
  rfl

end Raised

section Runs
variable {clock : ℕ} {p q : Pool Service Handling}

/-- What a handler gives up is what the publisher gets; what it gets is what was raised. -/
theorem Step.held {s s' : Service} {t t' : Handling} (hs : Accounts s) (ht : Relies s t)
    (h : Step s t s' t') (rest : Multiset DomainEvent)
    (hP : (t.held : Multiset DomainEvent) + rest + (s.publisher.published.map (·.event) : List _) =
      (s.raised : Multiset DomainEvent)) :
    (t'.held : Multiset DomainEvent) + rest + (s'.publisher.published.map (·.event) : List _) =
      (s'.raised : Multiset DomainEvent) := by
  cases h with
  | activate | inactive => exact hP
  | @save handle session events hid =>
    have hraised : ((saved s handle session events).raised : Multiset DomainEvent) =
        (events : Multiset DomainEvent) + s.raised :=
      Multiset.coe_eq_coe.mpr (raised_saved hs hid)
    refine Eq.trans ?_ hraised.symm
    rw [← hP, show (Handling.saving handle session events).held = [] from rfl,
      show (Handling.publishing (.publishBatch events)).held = events from rfl, Multiset.coe_nil,
      zero_add, add_assoc]
  | @repository c c' sessions' h =>
    obtain ⟨hid, hrequest, heffect⟩ := h.1.effect
    cases heffect with
    | quiet hstore hsucceeded hphase =>
      have hjournal := journal_of_quiet h hphase
      rw [Handling.held, hsucceeded, Service.raised, hjournal]
      exact hP
    | @took env f session m value hlock hget hfresh hf hmutates hstore hbefore hphase =>
      have hjournal := journal_of_took h hstore hphase
      have hafter : c'.succeeded = some ⟨c.sessionId, c.request, value, m.pendingEvents⟩ := by
        rw [AtomicCall.succeeded, hphase, hid, hrequest]
      rw [Handling.held, hbefore, Option.map_none, Option.getD_none, Multiset.coe_nil,
        zero_add] at hP
      rw [Handling.held, hafter, Option.map_some, Option.getD_some, raised_append hjournal,
        ← Multiset.coe_add, add_assoc, hP, add_comm]
  | taken => exact hP
  | refuse => exact hP
  | @publish call call' publisher' h =>
    have hstep := (h.unpublished ht.2).2
    rw [Handling.held, add_right_comm] at hP ⊢
    exact (congrArg (· + rest) hstep.symm).trans hP

theorem accounts_idle (clock : ℕ) : Accounts (idle clock).shared where
  faithful := faithful_ofStore .empty clock
  unopened _ _ := rfl
  opened _ _ _ h := by cases h
  publisher := InMemoryEventPublisher.sound_new

theorem holds_of_reachable (h : ReflTransGen (Pool.Step Begins Step) (idle clock) p) :
    Pool.Holds Accounts Relies Apart p :=
  outline.reachable (Pool.holds_nil (accounts_idle clock)) h

theorem held_of_begins {t : Handling} (h : t.Begins) : t.held = [] := by
  cases t with
  | opening => rfl
  | calling c => rw [held, AtomicCall.succeeded, show c.phase = .called from h]; rfl
  | _ => exact h.elim

theorem held_of_ended {t : Handling} (h : t.Ended) : t.held = [] := by
  cases t with
  | publishing call => rw [held, InMemoryEventPublisher.Call.unpublished, show call.phase = _ from h]
  | refused => rfl
  | _ => exact h.elim

theorem raised_of_reachable (h : ReflTransGen (Pool.Step Begins Step) (idle clock) p) :
    (p.calls.map fun t => (t.held : Multiset DomainEvent)).sum +
      (p.shared.publisher.published.map (·.event) : List _) =
        (p.shared.raised : Multiset DomainEvent) := by
  induction h with
  | refl => rfl
  | tail hreach hstep ih =>
    refine Pool.sum_step (fun t : Handling => (t.held : Multiset DomainEvent))
      (fun (s : Service) held => held + (s.publisher.published.map (·.event) : List _) =
        (s.raised : Multiset DomainEvent)) (fun t ht => ?_)
      (fun s t s' t' rest hs ht h hP => h.held hs ht rest hP) (holds_of_reachable hreach) hstep ih
    change (t.held : Multiset DomainEvent) = 0
    rw [held_of_begins ht, Multiset.coe_nil]

/-- Handlers may interleave in any way: at any time every event that a session has raised is
published once, or one handler has it; none is left in a session, none comes from elsewhere. When
all handlers have ended, what is published is what the sessions raised, each by its operations one
after another. The events of one handler have consecutive sequences, in their order. -/
theorem published_of_reachable (h : ReflTransGen (Pool.Step Begins Step) (idle clock) p) :
    ((p.calls.map fun t => (t.held : Multiset DomainEvent)).sum +
      (p.shared.publisher.published.map (·.event) : List _) =
        (p.shared.raised : Multiset DomainEvent)) ∧
    ((∀ t ∈ p.calls, t.Ended) →
      (p.shared.publisher.published.map (·.event)).Perm p.shared.raised) ∧
    (p.shared.publisher.published.map (·.sequence)).Nodup ∧
    (∀ call, .publishing call ∈ p.calls → call.Done →
      ∀ position event, call.events[position]? = some event → ∃ e ∈ p.shared.publisher.published,
        e.event = event ∧ e.sequence = call.baseSequence + position) ∧
    ∀ id session, p.shared.sessions.repository.store.get? id = some session →
      session.pendingEvents = [] ∧
      ∃ first time, p.shared.opened.get? id = some (first, [.sessionActivated id time]) ∧
        Replay first (p.shared.sessions.entries id)
          ((p.shared.sessions.entries id).flatMap fun e => e.events) session := by
  have hholds := holds_of_reachable h
  have hraised := raised_of_reachable h
  refine ⟨hraised, fun hended => ?_, hholds.shared.publisher.distinct,
    fun call hcall hdone position event he => ?_, fun id session hget => ?_⟩
  · have hnone : (p.calls.map fun t => (t.held : Multiset DomainEvent)).sum = 0 := by
      refine List.sum_eq_zero fun m hm => ?_
      obtain ⟨t, ht, rfl⟩ := List.mem_map.mp hm
      rw [held_of_ended (hended t ht), Multiset.coe_nil]
    rw [hnone, zero_add] at hraised
    exact Multiset.coe_eq_coe.mp hraised
  · refine ((hholds.calls _ hcall).1.stored (by rw [hdone]; simp) position event he).resolve_left ?_
    rintro ⟨pending, hphase, -⟩
    rw [hdone] at hphase
    cases hphase
  · obtain ⟨⟨first, events⟩, hopened⟩ :=
      Option.isSome_iff_exists.mp (isSome_opened hholds.shared hget)
    obtain ⟨raised, current, hcurrent, hreplay, -⟩ := hholds.shared.faithful.replay id first
      (by rw [AssocMap.get?_mapVal, hopened, Option.map_some])
    obtain rfl : session = current := Option.some.inj (hget.symm.trans hcurrent)
    obtain ⟨rfl, hdrained, time, rfl⟩ := hholds.shared.opened id first events hopened
    have hpending := hreplay.drained hdrained
    have hevents := hreplay.events
    rw [hdrained, hpending, List.nil_append, List.append_nil] at hevents
    refine ⟨hpending, first, time, hopened, ?_⟩
    rw [List.flatMap_def, ← hevents]
    exact hreplay

/-- A session is opened, and a stream is created in it. -/
def activated : StreamSession := (StreamSession.atEpoch.activate sampleEnv).2.takeEvents.2

def activation : DomainEvent := .sessionActivated ⟨0⟩ .epoch

def creation : DomainEvent := .streamCreated ⟨0⟩ ⟨2⟩ .epoch

def creating : AtomicCall := ⟨0, ⟨0⟩, .createStream Stream.userDocument none, .called⟩

def withSession : Service := saved (idle 0).shared 0 activated [activation]

def withStream : Service :=
  { withSession with sessions := withSession.sessions.after creating }

/-- The stream's event is published before the session's. -/
def overtaken : Pool Service Handling :=
  let sessions : Journaled :=
    { withStream.sessions with
      repository := withStream.sessions.repository.invalidateStatsCache 0 ⟨0⟩ }
  let log : InMemoryEventPublisher.History DomainEvent :=
    (InMemoryEventPublisher.History.store ⟨⟨.empty, 2⟩, []⟩ ⟨7, creation, 0⟩).store
      ⟨8, activation, 1⟩
  ⟨⟨sessions, log, withStream.opened⟩,
    [.publishing ⟨[activation], 1, .removing []⟩, .publishing ⟨[creation], 0, .removing []⟩]⟩

/-- A handler that publishes one event, alone. -/
theorem publishes_one (l r : List Handling) (sessions : Journaled)
    (opened : AssocMap SessionId (StreamSession × List DomainEvent)) (event : DomainEvent)
    (log : InMemoryEventPublisher.History DomainEvent) {id : EventId}
    (hid : ∀ stored ∈ log.published, stored.id ≠ id)
    (hsize : (log.eventLog.insert id ⟨id, event, log.nextSequence⟩).size ≤ eventLogCapacity) :
    ReflTransGen (Pool.Step Begins Step)
      ⟨⟨sessions, log, opened⟩, l ++ .publishing (.publishBatch [event]) :: r⟩
      ⟨⟨sessions, .store { log with nextSequence := log.nextSequence + 1 }
        ⟨id, event, log.nextSequence⟩, opened⟩,
        l ++ .publishing ⟨[event], log.nextSequence, .removing []⟩ :: r⟩ := by
  let reserved : InMemoryEventPublisher.History DomainEvent :=
    { log with nextSequence := log.nextSequence + 1 }
  let stored := reserved.store ⟨id, event, log.nextSequence⟩
  have hreserve : InMemoryEventPublisher.Call.Step log (.publishBatch [event]) reserved
      ⟨[event], log.nextSequence, .inserting [0]⟩ := .reserve
  have hinsert : InMemoryEventPublisher.Call.Step reserved
      ⟨[event], log.nextSequence, .inserting [0]⟩ stored
      ⟨[event], log.nextSequence, .inserting []⟩ := .insert (List.mem_singleton_self 0) rfl hid
  have hdone : InMemoryEventPublisher.Call.Step stored
      ⟨[event], log.nextSequence, .inserting []⟩ stored
      ⟨[event], log.nextSequence, .removing []⟩ := .underCapacity hsize
  exact .head (.step (.publish hreserve))
    (.head (.step (.publish hinsert)) (.single (.step (.publish hdone))))

theorem reaches_overtaken : ReflTransGen (Pool.Step Begins Step) (idle 0) overtaken := by
  have hactivate : Step (idle 0).shared (.opening 0 ⟨.default, none, none, none⟩) (idle 0).shared
      (.saving 0 activated [activation]) := .activate sampleEnv sampleEnv ⟨0⟩ .epoch rfl
  have hsave : Step (idle 0).shared (.saving 0 activated [activation]) withSession
      (.publishing (.publishBatch [activation])) := .save rfl
  have hcreate : JournaledStep withSession.sessions creating withStream.sessions
      ⟨0, ⟨0⟩, creating.request, .updated (.streamId ⟨2⟩) [creation]⟩ :=
    step_after rfl (by decide +kernel)
  let sessions : Journaled :=
    { withStream.sessions with
      repository := withStream.sessions.repository.invalidateStatsCache 0 ⟨0⟩ }
  have hinvalidate : JournaledStep withStream.sessions
      ⟨0, ⟨0⟩, creating.request, .updated (.streamId ⟨2⟩) [creation]⟩ sessions
      ⟨0, ⟨0⟩, creating.request, .returned (.ok (.streamId ⟨2⟩, [creation]))⟩ :=
    ⟨.invalidate, (List.append_nil _).symm⟩
  have hcreation := @publishes_one [.publishing (.publishBatch [activation])] [] sessions
    withStream.opened creation ⟨.new, []⟩ 7 (by simp) (by decide)
  have hactivation := @publishes_one [] [.publishing ⟨[creation], 0, .removing []⟩] sessions
    withStream.opened activation (.store ⟨⟨.empty, 1⟩, []⟩ ⟨7, creation, 0⟩) 8 (by decide)
    (by decide +kernel)
  refine .head (.start (show Begins (.opening 0 ⟨.default, none, none, none⟩) from trivial)) ?_
  refine .head (.step (l := []) (r := []) hactivate) ?_
  refine .head (.step (l := []) (r := []) hsave) ?_
  refine .head (.start (show Begins (.calling creating) from rfl)) ?_
  refine .head (.step (l := [_]) (r := []) (.repository hcreate)) ?_
  refine .head (.step (l := [_]) (r := []) (.repository hinvalidate)) ?_
  refine .head (.step (l := [_]) (r := []) .taken) ?_
  exact hcreation.trans hactivation

theorem published_of_reachable_overtaken :
    overtaken.shared.publisher.published.map (·.event) = [creation, activation] ∧
    overtaken.shared.raised = [activation, creation] ∧
    (overtaken.shared.publisher.published.map (·.event)).Perm overtaken.shared.raised :=
  ⟨rfl, by decide +kernel, (published_of_reachable reaches_overtaken).2.1 (by
    simp only [overtaken, List.mem_cons, List.not_mem_nil, or_false]
    rintro t (rfl | rfl) <;> rfl)⟩

end Runs

end Handling

end SessionCommandHandler

end PJS
