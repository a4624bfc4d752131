import PJS.Lib.Assoc
import PJS.Lib.Lists
import PJS.Lib.Pool

/-! The bounded event log of `InMemoryEventPublisher`, with the steps of the calls of `publish` and
`publish_batch` that run on it at the same time. -/
namespace PJS

/-- A fresh UUID. -/
abbrev EventId := BitVec 128

/-- The record of a published event; its type, session, time and metadata are the event's. -/
structure StoredEvent (ε : Type*) where
  id : EventId
  event : ε
  sequence : ℕ
deriving DecidableEq

def eventLogCapacity : ℕ := 10000

def eventLogEvictTarget : ℕ := 9000

structure InMemoryEventPublisher (ε : Type*) where
  eventLog : AssocMap EventId (StoredEvent ε)
  nextSequence : ℕ

namespace InMemoryEventPublisher

variable {ε : Type*}

def new : InMemoryEventPublisher ε := ⟨AssocMap.empty, 0⟩

/-- The `limit` events of the log with the highest sequences, newest first. -/
def recentEvents (publisher : InMemoryEventPublisher ε) (limit : ℕ) : List (StoredEvent ε) :=
  (Lists.sortDesc (·.sequence) publisher.eventLog.values).take limit

/-- The keys that an eviction removes, lowest sequence first, from the snapshot it collected. -/
def excess (bySequence : List (EventId × ℕ)) : List EventId :=
  let sorted := bySequence.insertionSort fun a b => a.2 ≤ b.2
  (sorted.take (bySequence.length - eventLogEvictTarget)).map Prod.fst

/-- The publisher, and every event it has stored. -/
structure History (ε : Type*) extends InMemoryEventPublisher ε where
  published : List (StoredEvent ε)

/-- Insert a record into the log. -/
def History.store (s : History ε) (stored : StoredEvent ε) : History ε :=
  { s with
    eventLog := s.eventLog.insert stored.id stored
    published := s.published ++ [stored] }

inductive Phase where
  | reserving
  /-- The positions of the batch that are not in the log yet. -/
  | inserting (pending : List ℕ)
  /-- The keys of the log when the iteration began, and what it has visited. -/
  | collecting (start : List EventId) (bySequence : List (EventId × ℕ))
  | removing (keys : List EventId)

/-- A call of `publish` or `publish_batch`. -/
structure Call (ε : Type*) where
  events : List ε
  baseSequence : ℕ
  phase : Phase

namespace Call

def publishBatch (events : List ε) : Call ε := ⟨events, 0, .reserving⟩

def publish (event : ε) : Call ε := publishBatch [event]

def Done (c : Call ε) : Prop := c.phase = .removing []

/-- The atomic steps of a call. `Uuid::new_v4` gives a fresh identifier. The iterator of the map
visits every entry at most once, and every entry that stays in the map meanwhile. -/
inductive Step (s : History ε) : Call ε → History ε → Call ε → Prop
  | reserve {events : List ε} {base : ℕ} :
    Step s ⟨events, base, .reserving⟩ { s with nextSequence := s.nextSequence + events.length }
      ⟨events, s.nextSequence, .inserting (List.range events.length)⟩
  | insert {events : List ε} {base position : ℕ} {pending : List ℕ} {event : ε} {id : EventId}
      (hpending : position ∈ pending) (hevent : events[position]? = some event)
      (hid : ∀ stored ∈ s.published, stored.id ≠ id) :
    Step s ⟨events, base, .inserting pending⟩ (s.store ⟨id, event, base + position⟩)
      ⟨events, base, .inserting (pending.filter (· ≠ position))⟩
  | underCapacity {events : List ε} {base : ℕ} (h : s.eventLog.size ≤ eventLogCapacity) :
    Step s ⟨events, base, .inserting []⟩ s ⟨events, base, .removing []⟩
  | overCapacity {events : List ε} {base : ℕ} (h : eventLogCapacity < s.eventLog.size) :
    Step s ⟨events, base, .inserting []⟩ s ⟨events, base, .collecting s.eventLog.keys []⟩
  | visit {events : List ε} {base : ℕ} {start : List EventId} {bySequence : List (EventId × ℕ)}
      {id : EventId} {stored : StoredEvent ε} (hstored : s.eventLog.get? id = some stored)
      (hnew : id ∉ bySequence.map Prod.fst) :
    Step s ⟨events, base, .collecting start bySequence⟩ s
      ⟨events, base, .collecting start (bySequence ++ [(id, stored.sequence)])⟩
  | sort {events : List ε} {base : ℕ} {start : List EventId} {bySequence : List (EventId × ℕ)}
      (hall : ∀ id ∈ start, id ∈ s.eventLog.keys → id ∈ bySequence.map Prod.fst) :
    Step s ⟨events, base, .collecting start bySequence⟩ s
      ⟨events, base, .removing (excess bySequence)⟩
  | remove {events : List ε} {base : ℕ} {id : EventId} {keys : List EventId} :
    Step s ⟨events, base, .removing (id :: keys)⟩ { s with eventLog := s.eventLog.erase id }
      ⟨events, base, .removing keys⟩

def Starts (c : Call ε) : Prop := ∃ events, c = publishBatch events

end Call

/-- A publisher and its calls. -/
abbrev System (ε : Type*) := Pool (History ε) (Call ε)

namespace System

def new : System ε := ⟨⟨.new, []⟩, []⟩

def Step : System ε → System ε → Prop := Pool.Step Call.Starts Call.Step

def Idle (p : System ε) : Prop := ∀ c ∈ p.calls, c.Done

end System

end InMemoryEventPublisher

end PJS
