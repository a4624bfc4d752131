import PJS.Domain.Basic
import PJS.Lib.Assoc
import PJS.Lib.Pool

/-! The in-memory dictionary store: training samples are collected for each session, and a session
with enough of them has its dictionary trained once. Calls of `train_if_ready` and `register` and
sweeps run at the same time; every access to shared memory is a step of its own. -/
namespace PJS

/-- Training samples that make a corpus. -/
def nTrain : ℕ := 32

def maxTrainingSampleSize : ℕ := 1024 * 1024

def totalCorpusByteBudget : ℕ := 128 * 1024 * 1024

/-- A `tokio::sync::OnceCell`. -/
inductive OnceCell (δ : Type*) where
  | empty
  /-- A call holds the permit and runs its initializer. -/
  | initializing
  | initialized (value : δ)

structure SessionDictState (δ : Type*) where
  corpus : List (List UInt8)
  /-- The mutex of the corpus is held. -/
  locked : Bool
  dict : OnceCell δ
  lastAccess : ℕ
  pendingCorpusBytes : ℕ

def SessionDictState.new {δ : Type*} (nowMillis : ℕ) : SessionDictState δ :=
  ⟨[], false, .empty, nowMillis, 0⟩

/-- The store. A session's state is behind a pointer, which calls keep while they run. -/
structure InMemoryDictionaryStore (δ : Type*) where
  sessions : AssocMap SessionId ℕ
  states : ℕ → SessionDictState δ
  /-- The number of states allocated so far. -/
  allocated : ℕ
  corpusBytesInFlight : ℕ

namespace InMemoryDictionaryStore

variable {δ : Type*}

def new : InMemoryDictionaryStore δ := ⟨AssocMap.empty, fun _ => .new 0, 0, 0⟩

def modify (s : InMemoryDictionaryStore δ) (a : ℕ)
    (f : SessionDictState δ → SessionDictState δ) : InMemoryDictionaryStore δ :=
  { s with states := Function.update s.states a (f (s.states a)) }

/-- Put a fresh state behind a new pointer and track it as the session's. -/
def allocate (s : InMemoryDictionaryStore δ) (sessionId : SessionId) (nowMillis : ℕ) :
    InMemoryDictionaryStore δ :=
  { s with
    sessions := s.sessions.insert sessionId s.allocated
    states := Function.update s.states s.allocated (.new nowMillis)
    allocated := s.allocated + 1 }

theorem states_modify (s : InMemoryDictionaryStore δ) (a b : ℕ)
    (f : SessionDictState δ → SessionDictState δ) :
    (s.modify a f).states b = if b = a then f (s.states a) else s.states b :=
  Function.update_apply s.states a _ b

@[simp] theorem states_modify_self (s : InMemoryDictionaryStore δ) (a : ℕ)
    (f : SessionDictState δ → SessionDictState δ) : (s.modify a f).states a = f (s.states a) := by
  rw [states_modify, if_pos rfl]

theorem states_allocate (s : InMemoryDictionaryStore δ) (sessionId : SessionId)
    (nowMillis b : ℕ) : (s.allocate sessionId nowMillis).states b =
      if b = s.allocated then .new nowMillis else s.states b :=
  Function.update_apply s.states s.allocated _ b

/-- Where a run of `release_corpus_bytes` stands. -/
inductive Releasing where
  | start
  | trying (current : ℕ)
  | done
deriving DecidableEq

/-- A step of `release_corpus_bytes`; the weak exchange may fail even when the counter is as
expected. -/
inductive Releasing.Step (amount counter : ℕ) : Releasing → ℕ → Releasing → Prop
  | nothing (h : amount = 0) : Step amount counter .start counter .done
  | load (h : amount ≠ 0) : Step amount counter .start counter (.trying counter)
  | exchange : Step amount counter (.trying counter) (counter - amount) .done
  | retry {current : ℕ} : Step amount counter (.trying current) counter (.trying counter)

/-- What a call wants from a session's state. -/
inductive Use (δ : Type*) where
  | train (sample : List UInt8)
  | register (dict : δ)

inductive Call (δ : Type*) where
  /-- `session_state`: the entry of the map, then the access time. -/
  | session (sessionId : SessionId) (use : Use δ)
  | touch (a : ℕ) (use : Use δ)
  | check (a : ℕ) (sample : List UInt8)
  /-- Waiting for the mutex of the corpus. -/
  | lock (a : ℕ) (sample : List UInt8)
  | locked (a : ℕ) (sample : List UInt8)
  | reserved (a : ℕ) (sample : List UInt8) (globalReserved : ℕ)
  | push (a : ℕ) (sample : List UInt8)
  | undo (a amount : ℕ) (r : Releasing)
  | full (a : ℕ)
  | take (a reservedBytes : ℕ)
  /-- Waiting for the permit of the dictionary, with a live reservation guard. -/
  | wait (a reservedBytes : ℕ) (snapshot : List (List UInt8))
  | training (a reservedBytes : ℕ) (snapshot : List (List UInt8))
  /-- The drop of the reservation guard. -/
  | release (reservedBytes : ℕ) (r : Releasing)
  | set (a : ℕ) (dict : δ)
  | sweep (ttlMillis : ℕ)
  /-- An iteration has the entries that were there when it began, and the sessions it has visited. -/
  | retain (now ttlMillis : ℕ) (start : List (SessionId × ℕ)) (visited : List SessionId)
  | sum (start : List (SessionId × ℕ)) (visited : List SessionId) (liveTotal : ℕ)
  | store (liveTotal : ℕ)
  | returned

namespace Call

inductive Step (s : InMemoryDictionaryStore δ) :
    Call δ → InMemoryDictionaryStore δ → Call δ → Prop
  | found {sessionId : SessionId} {use : Use δ} {a : ℕ} (h : s.sessions.get? sessionId = some a) :
    Step s (.session sessionId use) s (.touch a use)
  | created {sessionId : SessionId} {use : Use δ} {now : ℕ}
      (h : s.sessions.get? sessionId = none) :
    Step s (.session sessionId use) (s.allocate sessionId now) (.touch s.allocated use)
  /-- The bomb detector rejects the dictionary to register. -/
  | reject {sessionId : SessionId} {dict : δ} :
    Step s (.session sessionId (.register dict)) s .returned
  | touchTrain {a now : ℕ} {sample : List UInt8} :
    Step s (.touch a (.train sample)) (s.modify a fun st => { st with lastAccess := now })
      (.check a sample)
  | touchRegister {a now : ℕ} {dict : δ} :
    Step s (.touch a (.register dict)) (s.modify a fun st => { st with lastAccess := now })
      (.set a dict)
  | trained {a : ℕ} {sample : List UInt8} {dict : δ} (h : (s.states a).dict = .initialized dict) :
    Step s (.check a sample) s .returned
  | untrained {a : ℕ} {sample : List UInt8}
      (h : ∀ dict, (s.states a).dict ≠ .initialized dict) :
    Step s (.check a sample) s (.lock a sample)
  | acquire {a : ℕ} {sample : List UInt8} (h : (s.states a).locked = false) :
    Step s (.lock a sample) (s.modify a fun st => { st with locked := true }) (.locked a sample)
  | cancelLock {a : ℕ} {sample : List UInt8} : Step s (.lock a sample) s .returned
  | reserve {a : ℕ} {sample : List UInt8} (hlen : (s.states a).corpus.length < nTrain)
      (hsize : sample.length ≤ maxTrainingSampleSize) :
    Step s (.locked a sample)
      { s with corpusBytesInFlight := s.corpusBytesInFlight + sample.length }
      (.reserved a sample (s.corpusBytesInFlight + sample.length))
  | skip {a : ℕ} {sample : List UInt8}
      (h : ¬ ((s.states a).corpus.length < nTrain ∧ sample.length ≤ maxTrainingSampleSize)) :
    Step s (.locked a sample) s (.full a)
  | accept {a globalReserved : ℕ} {sample : List UInt8}
      (h : globalReserved ≤ totalCorpusByteBudget) :
    Step s (.reserved a sample globalReserved)
      (s.modify a fun st =>
        { st with pendingCorpusBytes := st.pendingCorpusBytes + sample.length })
      (.push a sample)
  | refuse {a globalReserved : ℕ} {sample : List UInt8}
      (h : totalCorpusByteBudget < globalReserved) :
    Step s (.reserved a sample globalReserved) s (.undo a sample.length .start)
  | push {a : ℕ} {sample : List UInt8} :
    Step s (.push a sample) (s.modify a fun st => { st with corpus := st.corpus ++ [sample] })
      (.full a)
  | undo {a amount counter : ℕ} {r r' : Releasing}
      (h : Releasing.Step amount s.corpusBytesInFlight r counter r') :
    Step s (.undo a amount r) { s with corpusBytesInFlight := counter } (.undo a amount r')
  | undone {a amount : ℕ} : Step s (.undo a amount .done) s (.full a)
  | below {a : ℕ} (h : (s.states a).corpus.length < nTrain) :
    Step s (.full a) (s.modify a fun st => { st with locked := false }) .returned
  | swap {a : ℕ} (h : nTrain ≤ (s.states a).corpus.length) :
    Step s (.full a) (s.modify a fun st => { st with pendingCorpusBytes := 0 })
      (.take a (s.states a).pendingCorpusBytes)
  | take {a reservedBytes : ℕ} :
    Step s (.take a reservedBytes)
      (s.modify a fun st => { st with corpus := [], locked := false })
      (.wait a reservedBytes (s.states a).corpus)
  | ready {a reservedBytes : ℕ} {snapshot : List (List UInt8)} {dict : δ}
      (h : (s.states a).dict = .initialized dict) :
    Step s (.wait a reservedBytes snapshot) s (.release reservedBytes .start)
  | permit {a reservedBytes : ℕ} {snapshot : List (List UInt8)}
      (h : (s.states a).dict = .empty) :
    Step s (.wait a reservedBytes snapshot) (s.modify a fun st => { st with dict := .initializing })
      (.training a reservedBytes snapshot)
  | cancelWait {a reservedBytes : ℕ} {snapshot : List (List UInt8)} :
    Step s (.wait a reservedBytes snapshot) s (.release reservedBytes .start)
  | finish {a reservedBytes : ℕ} {snapshot : List (List UInt8)} {dict : δ} :
    Step s (.training a reservedBytes snapshot)
      (s.modify a fun st => { st with dict := .initialized dict }) (.release reservedBytes .start)
  /-- The training fails, its dictionary is rejected, or the call is cancelled. -/
  | abandon {a reservedBytes : ℕ} {snapshot : List (List UInt8)} :
    Step s (.training a reservedBytes snapshot) (s.modify a fun st => { st with dict := .empty })
      (.release reservedBytes .start)
  | release {reservedBytes counter : ℕ} {r r' : Releasing}
      (h : Releasing.Step reservedBytes s.corpusBytesInFlight r counter r') :
    Step s (.release reservedBytes r) { s with corpusBytesInFlight := counter }
      (.release reservedBytes r')
  | released {reservedBytes : ℕ} : Step s (.release reservedBytes .done) s .returned
  | set {a : ℕ} {dict : δ} (h : (s.states a).dict = .empty) :
    Step s (.set a dict) (s.modify a fun st => { st with dict := .initialized dict }) .returned
  /-- The cell is initialized, or a training holds its permit. -/
  | setIgnored {a : ℕ} {dict : δ} (h : (s.states a).dict ≠ .empty) :
    Step s (.set a dict) s .returned
  | sweep {now ttlMillis : ℕ} :
    Step s (.sweep ttlMillis) s (.retain now ttlMillis s.sessions.entries [])
  | keep {now ttlMillis a : ℕ} {start : List (SessionId × ℕ)} {visited : List SessionId}
      {sessionId : SessionId}
      (hnew : sessionId ∉ visited) (ha : s.sessions.get? sessionId = some a)
      (h : now - (s.states a).lastAccess < ttlMillis) :
    Step s (.retain now ttlMillis start visited) s
      (.retain now ttlMillis start (sessionId :: visited))
  | evict {now ttlMillis a : ℕ} {start : List (SessionId × ℕ)} {visited : List SessionId}
      {sessionId : SessionId}
      (hnew : sessionId ∉ visited) (ha : s.sessions.get? sessionId = some a)
      (h : ttlMillis ≤ now - (s.states a).lastAccess) :
    Step s (.retain now ttlMillis start visited)
      { s with sessions := s.sessions.erase sessionId }
      (.retain now ttlMillis start (sessionId :: visited))
  /-- An entry that was there all the time is visited; one put in meanwhile may be passed over. -/
  | retained {now ttlMillis : ℕ} {start : List (SessionId × ℕ)} {visited : List SessionId}
      (h : ∀ e ∈ start, s.sessions.get? e.1 = some e.2 → e.1 ∈ visited) :
    Step s (.retain now ttlMillis start visited) s (.sum s.sessions.entries [] 0)
  | add {a liveTotal : ℕ} {start : List (SessionId × ℕ)} {visited : List SessionId}
      {sessionId : SessionId} (hnew : sessionId ∉ visited)
      (ha : s.sessions.get? sessionId = some a) :
    Step s (.sum start visited liveTotal) s
      (.sum start (sessionId :: visited) (liveTotal + (s.states a).pendingCorpusBytes))
  | summed {liveTotal : ℕ} {start : List (SessionId × ℕ)} {visited : List SessionId}
      (h : ∀ e ∈ start, s.sessions.get? e.1 = some e.2 → e.1 ∈ visited) :
    Step s (.sum start visited liveTotal) s (.store liveTotal)
  | store {liveTotal : ℕ} :
    Step s (.store liveTotal) { s with corpusBytesInFlight := liveTotal } .returned

/-- A call of `train_if_ready` or `register`. -/
def Uses (c : Call δ) : Prop := ∃ sessionId use, c = .session sessionId use

/-- A call of `train_if_ready` or `register`, or a sweep. -/
def UsesOrSweeps (c : Call δ) : Prop := c.Uses ∨ ∃ ttlMillis, c = .sweep ttlMillis

end Call

/-- A store and its calls. -/
abbrev Calls (δ : Type*) := Pool (InMemoryDictionaryStore δ) (Call δ)

namespace Calls

def new : Calls δ := ⟨.new, []⟩

end Calls

end InMemoryDictionaryStore

end PJS
