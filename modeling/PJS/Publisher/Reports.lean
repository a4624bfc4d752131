import PJS.Publisher.Books

/-! The frames of a session in three places: its statistics count them, its events announce them,
and the frame store has them. Handlers commit frames, publish the events, and append the frames,
one after another; whatever handlers run at the same time, the store is never ahead of the events,
nor the events of the statistics. -/
namespace PJS.SessionCommandHandler

open Relation GatInMemoryStreamRepository DomainEvent

section Groups
variable {request : GatInMemoryStreamRepository.Request} {frames : List Frame}
  {groups : List (StreamId × List Frame)}

theorem total_buckets (frames : List Frame) :
    (buckets frames).total List.length = frames.length := by
  have hloop : ∀ (m : AssocMap StreamId (List Frame)),
      (frames.foldl (fun buckets frame => buckets.insert frame.streamId
        ((buckets.get? frame.streamId).getD [] ++ [frame])) m).total List.length =
      m.total List.length + frames.length := by
    induction frames with
    | nil => exact fun _ => rfl
    | cons frame frames ih =>
      intro m
      rw [List.foldl_cons, ih, List.length_cons]
      cases hget : m.get? frame.streamId with
      | none =>
        rw [AssocMap.total_insert_of_none hget, Option.getD_none, List.nil_append,
          List.length_singleton]
        omega
      | some group =>
        have htotal := AssocMap.total_insert_of_get? hget (group ++ [frame]) List.length
        rw [List.length_append, List.length_singleton] at htotal
        rw [Option.getD_some]
        omega
  exact (hloop .empty).trans (Nat.zero_add _)

/-- Grouping loses no frame. -/
theorem length_of_groups (h : Groups request frames groups) :
    (groups.map fun g => g.2.length).sum = frames.length := by
  cases h with
  | one => exact List.sum_singleton
  | many h =>
    rw [(h.map fun g => g.2.length).sum_eq, ← total_buckets frames, AssocMap.total,
      AssocMap.values, List.map_map]
    rfl

theorem share_ne_nil_of_groups (h : Groups request frames groups) {g : StreamId × List Frame}
    (hmem : g ∈ groups) (hne : g.2 ≠ []) : share request frames g.1 ≠ [] := by
  rw [← ofStream_of_groups h, ofStream]
  intro hnil
  have hg : g ∈ groups.filter fun g' => g'.1 = g.1 :=
    List.mem_filter.mpr ⟨hmem, decide_eq_true rfl⟩
  exact hne (List.flatMap_eq_nil_iff.mp hnil g hg)

end Groups

/-- Frames that a handler of the session has appended to the history of the stream. -/
structure Appended where
  sessionId : SessionId
  streamId : StreamId
  frames : List Frame

/-- The service with its frame store, and what was appended so far. -/
structure Server where
  service : Service
  store : InMemoryFrameStore
  appends : List Appended

/-- A handler, up to its end. A handler that generates frames has more to do when its events are
published. -/
inductive Serving where
  | handling (t : Handling)
  | announcing (sessionId : SessionId) (request : GatInMemoryStreamRepository.Request)
    (frames : List Frame) (call : InMemoryEventPublisher.Call DomainEvent)
  | appending (sessionId : SessionId) (groups : List (StreamId × List Frame))
    (call : InMemoryEventPublisher.Call DomainEvent)

namespace Serving

/-- The steps of a handler: it publishes before it appends, and appends group after group. -/
inductive Step (s : Server) : Serving → Server → Serving → Prop
  | handle {t t' : Handling} {service' : Service} (h : Handling.Step s.service t service' t')
    (hgenerated : ¬ t.Generated) :
    Step s (.handling t) { s with service := service' } (.handling t')
  | generated {handle : ℕ} {sessionId : SessionId}
    {request : GatInMemoryStreamRepository.Request} {frames : List Frame}
    {events : List DomainEvent} :
    Step s
      (.handling (.calling ⟨handle, sessionId, request, .returned (.ok (.frames frames, events))⟩))
      s (.announcing sessionId request frames (.publishBatch events))
  | publish {sessionId : SessionId} {request : GatInMemoryStreamRepository.Request}
    {frames : List Frame} {call call' : InMemoryEventPublisher.Call DomainEvent}
    {publisher' : InMemoryEventPublisher.History DomainEvent}
    (h : InMemoryEventPublisher.Call.Step s.service.publisher call publisher' call') :
    Step s (.announcing sessionId request frames call)
      { s with service := { s.service with publisher := publisher' } }
      (.announcing sessionId request frames call')
  | published {sessionId : SessionId} {request : GatInMemoryStreamRepository.Request}
    {frames : List Frame} {groups : List (StreamId × List Frame)}
    {call : InMemoryEventPublisher.Call DomainEvent} (hdone : call.Done)
    (h : Groups request frames groups) :
    Step s (.announcing sessionId request frames call) s (.appending sessionId groups call)
  | append {sessionId : SessionId} {streamId : StreamId} {group : List Frame}
    {groups : List (StreamId × List Frame)} {call : InMemoryEventPublisher.Call DomainEvent} :
    Step s (.appending sessionId ((streamId, group) :: groups) call)
      { s with
        store := s.store.appendFrames streamId group
        appends := s.appends ++ [⟨sessionId, streamId, group⟩] }
      (.appending sessionId groups call)

def Begins : Serving → Prop
  | .handling t => t.Begins
  | _ => False

/-- The handler has published its events and appended its frames, or was refused. -/
def Ended : Serving → Prop
  | .handling t => t.Ended
  | .appending _ [] _ => True
  | _ => False

/-- The handler, as far as its events go. -/
def toHandling : Serving → Handling
  | .handling t => t
  | .announcing _ _ _ call | .appending _ _ call => .publishing call

/-- No session, no event, no frame, no handler. -/
def idle (clock maxFramesPerStream : ℕ) : Pool Server Serving :=
  ⟨⟨(Handling.idle clock).shared, .withCapacity maxFramesPerStream, []⟩, []⟩

end Serving

/-- The frames that were appended to the history of a stream. -/
def appendedTo (appends : List Appended) (streamId : StreamId) : List Frame :=
  (appends.filter fun a => a.streamId = streamId).flatMap Appended.frames

/-- How many frames the handlers of a session have appended. -/
def appendedFor (appends : List Appended) (sessionId : SessionId) : ℕ :=
  ((appends.filter fun a => a.sessionId = sessionId).map fun a => a.frames.length).sum

section Appends
variable {appends : List Appended}

theorem appendedTo_concat (a : Appended) (streamId : StreamId) :
    appendedTo (appends ++ [a]) streamId =
      appendedTo appends streamId ++ if a.streamId = streamId then a.frames else [] := by
  rw [appendedTo, List.filter_append, List.flatMap_append]
  by_cases hid : a.streamId = streamId <;> simp [hid, appendedTo]

theorem appendedFor_concat (a : Appended) (sessionId : SessionId) :
    appendedFor (appends ++ [a]) sessionId =
      appendedFor appends sessionId + if a.sessionId = sessionId then a.frames.length else 0 := by
  rw [appendedFor, List.filter_append, List.map_append, List.sum_append]
  by_cases hid : a.sessionId = sessionId <;> simp [hid, appendedFor]

/-- What was appended to some histories was appended for a session, if they are the histories of
its streams. -/
theorem sum_appendedTo {streamIds : List StreamId} (hnodup : streamIds.Nodup) {id : SessionId}
    (h : ∀ a ∈ appends, a.frames ≠ [] → (a.streamId ∈ streamIds ↔ a.sessionId = id)) :
    (streamIds.map fun streamId => (appendedTo appends streamId).length).sum =
      appendedFor appends id := by
  induction appends using List.reverseRecOn with
  | nil => simp [appendedTo, appendedFor]
  | append_singleton appends a ih =>
    have hrest := ih fun a' ha' => h a' (List.mem_append_left _ ha')
    have hlength : ∀ streamId, (appendedTo (appends ++ [a]) streamId).length =
        (appendedTo appends streamId).length +
          if streamId = a.streamId then a.frames.length else 0 := by
      intro streamId
      rw [appendedTo_concat, List.length_append]
      by_cases hid : a.streamId = streamId
      · rw [if_pos hid, if_pos hid.symm]
      · rw [if_neg hid, if_neg (Ne.symm hid), List.length_nil]
    have hone : (streamIds.map fun streamId =>
        if streamId = a.streamId then a.frames.length else 0).sum =
          if a.streamId ∈ streamIds then a.frames.length else 0 := by
      rw [← List.sum_toFinset _ hnodup, Finset.sum_ite_eq']
      simp only [List.mem_toFinset]
    simp only [hlength]
    rw [List.sum_map_add, hrest, hone, appendedFor_concat]
    by_cases hframes : a.frames = []
    · simp [hframes]
    · simp [h a (by simp) hframes]

end Appends

namespace Serving

/-- The frames of a session that a handler has committed and not appended. -/
def due (id : SessionId) : Serving → ℕ
  | .handling t => t.due id
  | .announcing sessionId _ frames _ => if sessionId = id then frames.length else 0
  | .appending sessionId groups _ =>
    if sessionId = id then (groups.map fun g => g.2.length).sum else 0

/-- What a handler has not published is worth no more than what it has to append, and that goes to
streams of its session. -/
def Carries (s : Server) : Serving → Prop
  | .handling t => t.Carries s.service
  | .announcing sessionId request frames call =>
    (∀ id, announced id call.unpublished ≤ if sessionId = id then frames.length else 0) ∧
      ∀ id, share request frames id ≠ [] → s.service.Has sessionId id
  | .appending sessionId groups call =>
    call.unpublished = [] ∧ ∀ g ∈ groups, g.2 ≠ [] → s.service.Has sessionId g.1

/-- The books are right, and the store has the latest of what was appended. -/
structure Kept (s : Server) : Prop where
  booked : s.service.Booked
  homed : ∀ a ∈ s.appends, a.frames ≠ [] → s.service.Has a.sessionId a.streamId
  retained : ∀ streamId, s.store.history streamId =
    Feed.retained s.store.maxFramesPerStream (appendedTo s.appends streamId)

section Invariant
variable {s s' : Server} {t t' u : Serving}

theorem Step.toHandling (h : Step s t s' t') :
    Handling.Step s.service t.toHandling s'.service t'.toHandling ∨
      s'.service = s.service ∧ t'.toHandling = t.toHandling := by
  cases h with
  | handle h => exact .inl h
  | generated => exact .inl .taken
  | publish h => exact .inl (.publish h)
  | published => exact .inr ⟨rfl, rfl⟩
  | append => exact .inr ⟨rfl, rfl⟩

/-- Sessions keep their streams, and a step appends what it takes off the handler. -/
structure Moves (s : Server) (t : Serving) (s' : Server) (t' : Serving) : Prop where
  has : ∀ sessionId streamId, s.service.Has sessionId streamId → s'.service.Has sessionId streamId
  due : ∀ id, t'.due id + appendedFor s'.appends id + announced id s.service.raised =
    t.due id + appendedFor s.appends id + announced id s'.service.raised

theorem Kept.append (hs : Kept s) {sessionId : SessionId} {streamId : StreamId} {group : List Frame}
    (hgroup : group ≠ [] → s.service.Has sessionId streamId) :
    Kept { s with
      store := s.store.appendFrames streamId group
      appends := s.appends ++ [⟨sessionId, streamId, group⟩] } := by
  refine ⟨hs.booked, fun a ha hne => ?_, fun id => ?_⟩
  · rcases List.mem_append.mp ha with ha | ha
    · exact hs.homed a ha hne
    · obtain rfl := List.mem_singleton.mp ha
      exact hgroup hne
  · rw [InMemoryFrameStore.history_appendFrames, appendedTo_concat,
      InMemoryFrameStore.maxFramesPerStream_appendFrames]
    by_cases hid : id = streamId
    · rw [if_pos hid, if_pos hid.symm, hid, hs.retained,
        Feed.foldl_push_retained s.store.pos]
    · rw [if_neg hid, if_neg (Ne.symm hid), List.append_nil]
      exact hs.retained id

theorem Step.keeps (hs : Handling.Accounts s.service)
    (ht : Handling.Relies s.service t.toHandling) (hk : Kept s) (hc : Carries s t)
    (h : Step s t s' t') : Kept s' ∧ Carries s' t' ∧ Moves s t s' t' := by
  cases h with
  | @handle t t' service' h hgenerated =>
    obtain ⟨heffect, hcarries⟩ := h.effect hs ht hk.booked hc hgenerated
    refine ⟨⟨heffect.booked hk.booked, fun a ha hne => heffect.has (hk.homed a ha hne),
      hk.retained⟩, hcarries, fun _ _ => heffect.has, fun id => ?_⟩
    have hdue : Handling.due id t' + announced id s.service.raised =
        Handling.due id t + announced id service'.raised := heffect.due id
    simp only [due]
    omega
  | generated =>
    obtain ⟨hannounced, hplaced⟩ := hc _ rfl
    exact ⟨hk, ⟨fun id => (hannounced id).le, hplaced⟩, fun _ _ h => h, fun id => rfl⟩
  | publish h =>
    refine ⟨⟨⟨hk.booked.known, hk.booked.counted⟩, hk.homed, hk.retained⟩,
      ⟨fun id => ?_, hc.2⟩, fun _ _ h => h, fun id => rfl⟩
    exact (announced_le id (h.unpublished_le ht.2)).trans (hc.1 id)
  | @published sessionId request frames groups call hdone h =>
    refine ⟨hk, ⟨?_, fun g hg hne => hc.2 g.1 (share_ne_nil_of_groups h hg hne)⟩,
      fun _ _ h => h, fun id => ?_⟩
    · rw [InMemoryEventPublisher.Call.unpublished, show call.phase = _ from hdone]
    · rw [due, due, length_of_groups h]
  | @append sessionId streamId group groups call =>
    have hgroup := hc.2 (streamId, group) List.mem_cons_self
    refine ⟨hk.append hgroup, ⟨hc.1, fun g hg => hc.2 g (List.mem_cons_of_mem _ hg)⟩,
      fun _ _ h => h, fun id => ?_⟩
    rw [due, due, List.map_cons, List.sum_cons, appendedFor_concat]
    dsimp only
    split_ifs
    · omega
    · omega

theorem Carries.grows (hu : Carries s u)
    (h : ∀ sessionId streamId, s.service.Has sessionId streamId →
      s'.service.Has sessionId streamId) : Carries s' u := by
  cases u with
  | handling u => exact Handling.Carries.grows hu h
  | announcing sessionId request frames call => exact ⟨hu.1, fun id hne => h _ _ (hu.2 id hne)⟩
  | appending sessionId groups call => exact ⟨hu.1, fun g hg hne => h _ _ (hu.2 g hg hne)⟩

theorem outline : Pool.Outline Begins Step
    (fun s => Handling.Accounts s.service ∧ Kept s)
    (fun s t => Handling.Relies s.service t.toHandling ∧ Carries s t)
    fun t u => t.toHandling.Apart u.toHandling := by
  refine Handling.outline.refine Server.service toHandling (fun t ht => ?_)
    (fun s t s' t' h => h.toHandling) (fun s t ht => ?_)
    (fun s t s' t' hs ht hk hc h => ?_) fun s t s' t' u hs ht hk hc hu h => ?_
  · cases t with
    | handling t => exact ht
    | _ => exact ht.elim
  · cases t with
    | handling t => exact Handling.carries_of_begins ht
    | _ => exact ht.elim
  · obtain ⟨hkept, hcarries, -⟩ := h.keeps hs ht hk hc
    exact ⟨hkept, hcarries⟩
  · obtain ⟨-, -, hmoves⟩ := h.keeps hs ht hk hc
    exact hu.grows hmoves.has

/-- The events that a handler has not published announce frames that it has not appended. -/
theorem Carries.held_le (hc : Carries s t) (id : SessionId) :
    announced id t.toHandling.held ≤ t.due id := by
  cases t with
  | handling t =>
    cases t with
    | calling c =>
      change announced id ((c.succeeded.map Outcome.events).getD []) ≤ Handling.due id (.calling c)
      rw [Handling.due]
      cases ho : c.succeeded with
      | none => exact le_rfl
      | some o => exact ((hc o ho).1 id).le
    | publishing call => exact (hc id).le
    | _ => exact le_rfl
  | announcing sessionId request frames call => exact hc.1 id
  | appending sessionId groups call =>
    change announced id call.unpublished ≤ _
    rw [hc.1]
    exact Nat.zero_le _

end Invariant

section Runs
variable {clock maxFramesPerStream : ℕ} {p : Pool Server Serving}

theorem holds_of_reachable
    (h : ReflTransGen (Pool.Step Begins Step) (idle clock maxFramesPerStream) p) :
    Pool.Holds (fun s => Handling.Accounts s.service ∧ Kept s)
      (fun s t => Handling.Relies s.service t.toHandling ∧ Carries s t)
      (fun t u => t.toHandling.Apart u.toHandling) p := by
  refine outline.reachable (Pool.holds_nil ⟨Handling.accounts_idle clock, ?_⟩) h
  exact ⟨⟨fun id session hget => (by cases hget), fun id => rfl⟩, fun a ha => (by cases ha),
    fun streamId => List.drop_nil.symm⟩

/-- What is due and what was appended are what the sessions have announced. -/
theorem due_of_reachable (id : SessionId)
    (h : ReflTransGen (Pool.Step Begins Step) (idle clock maxFramesPerStream) p) :
    (p.calls.map (due id)).sum + appendedFor p.shared.appends id =
      announced id p.shared.service.raised := by
  induction h with
  | refl => rfl
  | tail hreach hstep ih =>
    refine Pool.sum_step (due id)
      (fun (s : Server) due => due + appendedFor s.appends id = announced id s.service.raised)
      (fun t ht => ?_) (fun s t s' t' rest hs ht h hP => ?_) (holds_of_reachable hreach) hstep ih
    · cases t with
      | handling t =>
        cases t with
        | calling c => rw [due, Handling.due, AtomicCall.succeeded, show c.phase = _ from ht]; rfl
        | opening => rfl
        | _ => exact ht.elim
      | _ => exact ht.elim
    · obtain ⟨-, -, hmoves⟩ := h.keeps hs.1 ht.1 hs.2 ht.2
      have hdue := hmoves.due id
      omega

/-- What is held and what was published are what the sessions have announced. -/
theorem held_of_reachable (id : SessionId)
    (h : ReflTransGen (Pool.Step Begins Step) (idle clock maxFramesPerStream) p) :
    (p.calls.map fun t => announced id t.toHandling.held).sum +
      announced id (p.shared.service.publisher.published.map (·.event)) =
        announced id p.shared.service.raised := by
  have hraised : (p.calls.map fun t => (t.toHandling.held : Multiset DomainEvent)).sum +
      (p.shared.service.publisher.published.map (·.event) : List _) =
        (p.shared.service.raised : Multiset DomainEvent) := by
    induction h with
    | refl => rfl
    | tail hreach hstep ih =>
      refine Pool.sum_step (fun t : Serving => (t.toHandling.held : Multiset DomainEvent))
        (fun (s : Server) held => held + (s.service.publisher.published.map (·.event) : List _) =
          (s.service.raised : Multiset DomainEvent)) (fun t ht => ?_)
        (fun s t s' t' rest hs ht h hP => ?_) (holds_of_reachable hreach) hstep ih
      · cases t with
        | handling t =>
          change (t.held : Multiset DomainEvent) = 0
          rw [Handling.held_of_begins ht, Multiset.coe_nil]
        | _ => exact ht.elim
      · rcases h.toHandling with h | ⟨hservice, hhandling⟩
        · exact h.held hs.1 ht.1 rest hP
        · rw [hservice, hhandling]
          exact hP
  have hsum := congrArg (announcedHom id) hraised
  rw [map_add, map_list_sum, List.map_map] at hsum
  exact hsum

theorem due_of_ended {id : SessionId} {t : Serving} (h : t.Ended) : t.due id = 0 := by
  cases t with
  | handling t =>
    cases t with
    | publishing | refused => rfl
    | _ => exact h.elim
  | announcing => exact h.elim
  | appending sessionId groups call =>
    cases groups with
    | nil => exact ite_self 0
    | cons => exact h.elim

/-- Handlers may interleave in any way, and stop anywhere: the events that are published never
announce more frames than the session counts, and the frame store never has more than are announced.
When all handlers have ended, the three agree, as far as the histories retain what is appended. -/
theorem announced_of_reachable {id : SessionId}
    (h : ReflTransGen (Pool.Step Begins Step) (idle clock maxFramesPerStream) p)
    {session : StreamSession}
    (hget : p.shared.service.sessions.repository.store.get? id = some session) :
    let published := announced id (p.shared.service.publisher.published.map (·.event))
    let stored := (session.streams.keys.map fun streamId =>
      (p.shared.store.history streamId).length).sum
    published ≤ session.stats.totalFrames ∧
    ((∀ t ∈ p.calls, t.Ended) → published = session.stats.totalFrames) ∧
    -- identifiers of streams are unique
    ((∀ other, other ≠ id → ∀ streamId ∈ session.streams.keys,
        ¬ p.shared.service.Has other streamId) →
      stored ≤ published ∧
      ((∀ t ∈ p.calls, t.Ended) → published ≤ p.shared.store.maxFramesPerStream →
        stored = published)) := by
  intro published stored
  obtain ⟨⟨-, hkept⟩, hcalls, -⟩ := holds_of_reachable h
  have hdue := due_of_reachable id h
  have hheld := held_of_reachable id h
  have hcounted := hkept.booked.counted id
  rw [hget, Option.map_some, Option.getD_some] at hcounted
  have hle : (p.calls.map fun t => announced id t.toHandling.held).sum ≤
      (p.calls.map (due id)).sum :=
    List.sum_le_sum fun t ht => (hcalls t ht).2.held_le id
  have hended : (∀ t ∈ p.calls, t.Ended) → (p.calls.map (due id)).sum = 0 := by
    intro hended
    refine List.sum_eq_zero fun n hn => ?_
    obtain ⟨t, ht, rfl⟩ := List.mem_map.mp hn
    exact due_of_ended (hended t ht)
  refine ⟨by omega, fun hall => ?_, fun hunique => ?_⟩
  · have hzero := hended hall
    omega
  · have happended : (session.streams.keys.map fun streamId =>
        (appendedTo p.shared.appends streamId).length).sum = appendedFor p.shared.appends id := by
      refine sum_appendedTo session.streams.nodup fun a ha hne => ?_
      obtain ⟨session', hget', hmem⟩ := hkept.homed a ha hne
      constructor
      · intro hkeys
        by_contra hother
        exact hunique a.sessionId hother a.streamId hkeys ⟨session', hget', hmem⟩
      · intro hid
        rw [hid, hget] at hget'
        cases hget'
        exact hmem
    have hlength : ∀ streamId, (p.shared.store.history streamId).length =
        min p.shared.store.maxFramesPerStream (appendedTo p.shared.appends streamId).length := by
      intro streamId
      rw [hkept.retained, Feed.length_retained]
    have hstored : stored ≤ appendedFor p.shared.appends id := by
      rw [← happended]
      exact List.sum_le_sum fun streamId _ => by
        rw [hlength]
        exact min_le_right _ _
    refine ⟨by omega, fun hall hcap => ?_⟩
    have hzero := hended hall
    have hsame : stored = appendedFor p.shared.appends id := by
      rw [← happended]
      refine congrArg List.sum (List.map_congr_left fun streamId hmem => ?_)
      have hone : (appendedTo p.shared.appends streamId).length ≤
          appendedFor p.shared.appends id := by
        rw [← happended]
        exact List.single_le_sum (by simp) _ (List.mem_map_of_mem hmem)
      rw [hlength]
      omega
    omega

end Runs

section Halfway

open SessionCommandHandler.Task (generated obtained)

/-- The session has its first stream. -/
def created : Journaled × AtomicCall :=
  let result := Handling.withSession.sessions.repository.atomicSessionUpdate ⟨0⟩ (drained
    fun session => returns .streamId
      (session.createStreamWithConfig (.still ⟨1⟩ .epoch) Stream.userDocument none))
  let call : AtomicCall := ⟨0, ⟨0⟩, Handling.creating.request, .ofResult result.1⟩
  (⟨result.2, call.logged result.2 none⟩, call)

def starting : AtomicCall := ⟨0, ⟨0⟩, .startStream ⟨1⟩, .called⟩

/-- A call for one frame of the stream, after its snapshot. -/
def oneFrame (s : Journaled) : AtomicCall :=
  let session := (s.repository.store.get? ⟨0⟩).getD Handling.activated
  ⟨0, ⟨0⟩, .createStreamPatchFrames ⟨1⟩ .minimum 1, .extractedPatches session
    ((session.extractPrioritizedPatchesForStream ⟨1⟩ .minimum).toOption.getD [])⟩

/-- The call has held the lock and dropped the statistics. -/
def afterwards (s : Journaled) (c : AtomicCall) : Journaled :=
  { s.after c with
    repository := (s.after c).repository.invalidateStatsCache c.handle c.sessionId }

/-- A handler of frames runs from its snapshot to where it publishes. -/
theorem reaches_announcing {l r : List Serving} {s : Server} {c : AtomicCall}
    {f : StreamSession → DomainResult Value × StreamSession} {events : List DomainEvent}
    (hlock : c.request.underLock sampleEnv c.phase = some f)
    (hfresh : (s.service.sessions.repository.store.get? c.sessionId).all fun session =>
      sampleEnv.uuid ∉ session.streams.keys)
    (hgenerated : (generated s.service.sessions.repository c).map Prod.snd = some events) :
    ReflTransGen (Pool.Step Begins Step) ⟨s, l ++ .handling (.calling c) :: r⟩
      ⟨{ s with service := { s.service with sessions := afterwards s.service.sessions c } },
        l ++ .announcing c.sessionId c.request (obtained s.service.sessions.repository c)
          (.publishBatch events) :: r⟩ := by
  have hstep := step_after hlock hfresh
  have hphase : (c.locked s.service.sessions.repository).2.phase =
      .updated (.frames (obtained s.service.sessions.repository c)) events := by
    unfold obtained
    unfold generated at hgenerated ⊢
    split at hgenerated
    · rename_i frames events' heq
      obtain rfl : events' = events := Option.some.inj hgenerated
      rw [heq]
      rfl
    · cases hgenerated
  have hcall : (c.locked s.service.sessions.repository).2 = { c with
      phase := .updated (.frames (obtained s.service.sessions.repository c)) events } := by
    rw [← hphase]
    unfold AtomicCall.locked
    split
    · rfl
    · rfl
  have hwaiting : ¬ (Handling.calling c).Generated := by
    have hnone := succeeded_of_underLock hlock
    unfold Handling.Generated
    split
    · rename_i heq
      cases heq
      cases hnone
    · exact id
  rw [hcall] at hstep
  have hinvalidate : JournaledStep (s.service.sessions.after c) { c with
      phase := .updated (.frames (obtained s.service.sessions.repository c)) events }
      (afterwards s.service.sessions c) { c with
        phase := .returned (.ok (.frames (obtained s.service.sessions.repository c), events)) } :=
    ⟨.invalidate, (List.append_nil _).symm⟩
  refine .head (.step (.handle (.repository hstep) hwaiting)) ?_
  refine .head (.step (.handle (.repository hinvalidate) id)) ?_
  exact .single (.step .generated)

def batched : DomainEvent := .framesBatched ⟨0⟩ 1 .epoch

def started : Journaled := created.1.after starting

def first : Journaled := afterwards started (oneFrame started)

/-- One handler has published the event of its frame and not appended the frame; another has
committed a frame and not published. -/
def halfway : Pool Server Serving :=
  let log : InMemoryEventPublisher.History DomainEvent := .store ⟨⟨.empty, 1⟩, []⟩ ⟨7, batched, 0⟩
  ⟨⟨⟨first.after (oneFrame first), log, Handling.withSession.opened⟩, .withCapacity 2, []⟩,
    [.handling (.publishing (.publishBatch [Handling.activation])),
      .handling (.calling created.2),
      .handling (.calling (starting.locked created.1.repository).2),
      .announcing ⟨0⟩ (oneFrame started).request (obtained started.repository (oneFrame started))
        ⟨[batched], 0, .removing []⟩,
      .handling (.calling ((oneFrame first).locked first.repository).2)]⟩

theorem begins_calling {c : AtomicCall} (h : c.Begins) : Begins (.handling (.calling c)) := h

/-- A handler of one frame has its snapshot. -/
theorem reaches_oneFrame {l : List Serving} {s : Server}
    (hextract : JournaledStep s.service.sessions
      { oneFrame s.service.sessions with phase := .called } s.service.sessions
      (oneFrame s.service.sessions)) :
    ReflTransGen (Pool.Step Begins Step) ⟨s, l⟩
      ⟨s, l ++ [.handling (.calling (oneFrame s.service.sessions))]⟩ := by
  let called : AtomicCall := { oneFrame s.service.sessions with phase := .called }
  refine .head (.start (begins_calling (show called.Begins from rfl))) ?_
  exact .single (.step (r := []) (.handle (.repository hextract) id))

theorem reaches_halfway : ReflTransGen (Pool.Step Begins Step) (idle 0 2) halfway := by
  have hactivate : Handling.Step (Handling.idle 0).shared
      (.opening 0 ⟨.default, none, none, none⟩) (Handling.idle 0).shared
      (.saving 0 Handling.activated [Handling.activation]) :=
    .activate sampleEnv sampleEnv ⟨0⟩ .epoch rfl
  have hsave : Handling.Step (Handling.idle 0).shared
      (.saving 0 Handling.activated [Handling.activation]) Handling.withSession
      (.publishing (.publishBatch [Handling.activation])) := .save rfl
  have hfresh : (Handling.withSession.sessions.repository.store.get? ⟨0⟩).all
      fun session => (⟨1⟩ : StreamId) ∉ session.streams.keys := by decide +kernel
  have hlock : Handling.creating.request.underLock (.still ⟨1⟩ .epoch) Handling.creating.phase =
      some fun session => returns .streamId
        (session.createStreamWithConfig (.still ⟨1⟩ .epoch) Stream.userDocument none) := rfl
  have hcreate : JournaledStep Handling.withSession.sessions Handling.creating created.1 created.2 :=
    ⟨.update _ hlock (fresh_of_all hfresh), rfl⟩
  have hstart : JournaledStep created.1 starting started
      (starting.locked created.1.repository).2 := step_after rfl (by decide +kernel)
  refine .head (.start (show Begins (.handling (.opening 0 ⟨.default, none, none, none⟩)) from
    trivial)) ?_
  refine .head (.step (l := []) (r := []) (.handle hactivate id)) ?_
  refine .head (.step (l := []) (r := []) (.handle hsave id)) ?_
  refine .head (.start (begins_calling (show Handling.creating.Begins from rfl))) ?_
  refine .head (.step (l := [_]) (r := []) (.handle (.repository hcreate) id)) ?_
  refine .head (.start (begins_calling (show starting.Begins from rfl))) ?_
  refine .head (.step (l := [_, _]) (r := []) (.handle (.repository hstart) id)) ?_
  refine (reaches_oneFrame ⟨.extractPatches rfl rfl, (List.append_nil _).symm⟩).trans ?_
  have hgenerated : (generated started.repository (oneFrame started)).map Prod.snd =
      some [batched] := by decide +kernel
  refine (reaches_announcing (l := [_, _, _]) (r := []) rfl (by decide +kernel)
    hgenerated).trans ?_
  let announcing : Server :=
    ⟨{ Handling.withSession with sessions := first }, .withCapacity 2, []⟩
  have hreserve : InMemoryEventPublisher.Call.Step announcing.service.publisher
      (.publishBatch [batched]) ⟨⟨.empty, 1⟩, []⟩ ⟨[batched], 0, .inserting [0]⟩ := .reserve
  have hinsert : InMemoryEventPublisher.Call.Step ⟨⟨.empty, 1⟩, []⟩
      ⟨[batched], 0, .inserting [0]⟩ halfway.shared.service.publisher
      ⟨[batched], 0, .inserting []⟩ := .insert (List.mem_singleton_self 0) rfl (by simp)
  have hdone : InMemoryEventPublisher.Call.Step halfway.shared.service.publisher
      ⟨[batched], 0, .inserting []⟩ halfway.shared.service.publisher
      ⟨[batched], 0, .removing []⟩ := .underCapacity (by decide +kernel)
  refine .head (.step (l := [_, _, _]) (r := []) (.publish hreserve)) ?_
  refine .head (.step (l := [_, _, _]) (r := []) (.publish hinsert)) ?_
  refine .head (.step (l := [_, _, _]) (r := []) (.publish hdone)) ?_
  refine (reaches_oneFrame ⟨.extractPatches rfl rfl, (List.append_nil _).symm⟩).trans ?_
  have hcommit : JournaledStep first (oneFrame first) (first.after (oneFrame first))
      ((oneFrame first).locked first.repository).2 := step_after rfl (by decide +kernel)
  exact .single (.step (l := [_, _, _, _]) (r := []) (.handle (.repository hcommit) id))

theorem announced_of_reachable_halfway :
    ∃ session, halfway.shared.service.sessions.repository.store.get? ⟨0⟩ = some session ∧
      session.stats.totalFrames = 2 ∧
      announced ⟨0⟩ (halfway.shared.service.publisher.published.map (·.event)) = 1 ∧
      (session.streams.keys.map fun streamId =>
        (halfway.shared.store.history streamId).length).sum = 0 ∧
      announced ⟨0⟩ (halfway.shared.service.publisher.published.map (·.event)) ≤
        session.stats.totalFrames ∧
      (session.streams.keys.map fun streamId =>
        (halfway.shared.store.history streamId).length).sum ≤
          announced ⟨0⟩ (halfway.shared.service.publisher.published.map (·.event)) := by
  have hkeys : halfway.shared.service.sessions.repository.store.keys = [⟨0⟩] := by decide +kernel
  refine ⟨_, rfl, by decide +kernel, rfl, by decide +kernel, ?_, ?_⟩
  · exact (announced_of_reachable reaches_halfway rfl).1
  · refine ((announced_of_reachable reaches_halfway rfl).2.2 fun other hne streamId _ hhas => ?_).1
    obtain ⟨session, hget, -⟩ := hhas
    have hmem : other ∈ halfway.shared.service.sessions.repository.store.keys :=
      AssocMap.mem_keys_iff.mpr ⟨session, hget⟩
    rw [hkeys, List.mem_singleton] at hmem
    exact hne hmem

end Halfway

end Serving

end PJS.SessionCommandHandler
