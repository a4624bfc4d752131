import PJS.Lib.Trace
import PJS.Session.StreamSession

/-! What a session keeps books of. A ledger has one row per stream and the session's counters;
its entries are the state changes a session can go through, each under the condition that makes
it legal. The results say which balances legal entries keep. -/
namespace PJS

/-- Preparing or streaming. -/
def StreamState.isActive : StreamState → Bool
  | .preparing | .streaming => true
  | _ => false

/-- The account of one stream. -/
structure Row where
  state : StreamState
  nextSequence : ℕ
  frames : ℕ
  -- the frames counted by type
  typed : ℕ
  bytes : ℕ

namespace Row

def fresh : Row := ⟨.preparing, 1, 0, 0, 0⟩

def emit (bytes : ℕ) (r : Row) : Row :=
  { r with
    nextSequence := r.nextSequence + 1
    frames := r.frames + 1
    typed := r.typed + 1
    bytes := r.bytes + bytes }

def cancel (r : Row) : Row := if r.state.isActive then { r with state := .cancelled } else r

/-- One if the stream is active, to be summed. -/
def active (r : Row) : ℕ := if r.state.isActive then 1 else 0

/-- One if the stream was cancelled, to be summed. -/
def cancelled (r : Row) : ℕ := if r.state = .cancelled then 1 else 0

theorem active_cancel (r : Row) : r.cancel.active = 0 := by
  cases h : r.state <;> simp [active, cancel, h, StreamState.isActive]

@[simp] theorem active_eq_zero_iff {r : Row} : r.active = 0 ↔ r.state.isActive = false := by
  simp [active]

theorem active_of_isActive {r : Row} (h : r.state.isActive = true) : r.active = 1 := by
  simp [active, h]

theorem cancelled_of_isActive {r : Row} (h : r.state.isActive = true) : r.cancelled = 0 := by
  cases hs : r.state <;> simp_all [cancelled, StreamState.isActive]

theorem cancel_of_not_isActive {r : Row} (h : r.state.isActive = false) : r.cancel = r := by
  simp [cancel, h]

end Row

structure Ledger where
  phase : SessionState
  rows : AssocMap StreamId Row
  created : ℕ
  active : ℕ
  completed : ℕ
  failed : ℕ
  frames : ℕ
  bytes : ℕ

namespace Ledger

def initial : Ledger := ⟨.initializing, .empty, 0, 0, 0, 0, 0, 0⟩

inductive Entry where
  | activate
  | create (id : StreamId)
  | start (id : StreamId)
  | complete (id : StreamId)
  | fail (id : StreamId)
  | emit (id : StreamId) (sequence bytes : ℕ)
  | close
  | wipe

/-- When an entry is legal. -/
def Allowed (l : Ledger) : Entry → Prop
  | .activate => l.phase = .initializing
  | .create _ => l.phase = .active
  | .start id => ∃ r, l.rows.get? id = some r ∧ r.state = .preparing
  | .complete id => ∃ r, l.rows.get? id = some r ∧ r.state = .streaming
  | .fail id => ∃ r, l.rows.get? id = some r ∧ r.state.isActive = true
  | .emit id sequence _ =>
    ∃ r, l.rows.get? id = some r ∧ r.state = .streaming ∧ sequence = r.nextSequence
  | .close => l.phase = .active
  | .wipe => True

def post (l : Ledger) : Entry → Ledger
  | .activate => { l with phase := .active }
  | .create id => { l with
      rows := l.rows.insert id .fresh, created := l.created + 1, active := l.active + 1 }
  | .start id => { l with rows := l.rows.modify id fun r => { r with state := .streaming } }
  | .complete id => { l with
      rows := l.rows.modify id fun r => { r with state := .completed }
      active := l.active - 1
      completed := l.completed + 1 }
  | .fail id => { l with
      rows := l.rows.modify id fun r => { r with state := .failed }
      active := l.active - 1
      failed := l.failed + 1 }
  | .emit id _ bytes => { l with
      rows := l.rows.modify id (Row.emit bytes)
      frames := l.frames + 1
      bytes := l.bytes + bytes }
  | .close => { l with phase := .completed, rows := l.rows.mapVal Row.cancel }
  | .wipe => { l with phase := .failed, rows := .empty }

/-- Legal entries from one ledger to another. -/
abbrev Steps (l : Ledger) (es : List Entry) (l' : Ledger) : Prop := Trace Allowed post l es l'

variable {l l' : Ledger} {es : List Entry}

section Endings

/-- Only an active session has active streams. -/
def Idle (l : Ledger) : Prop :=
  l.phase ≠ .active → ∀ id r, l.rows.get? id = some r → r.state.isActive = false

theorem Idle.phase_eq (h : l.Idle) {id : StreamId} {r : Row} (hr : l.rows.get? id = some r)
    (ha : r.state.isActive = true) : l.phase = .active := by
  by_contra hp
  rw [h hp id r hr] at ha
  cases ha

/-- But for an activation and a forced close, a legal entry needs an active session. -/
theorem Idle.phase_of_allowed (h : l.Idle) {e : Entry} (he : l.Allowed e) (ha : e ≠ .activate)
    (hw : e ≠ .wipe) : l.phase = .active := by
  cases e with
  | activate => exact absurd rfl ha
  | create id => exact he
  | start id =>
    obtain ⟨r, hr, hs⟩ := he
    exact h.phase_eq hr (by rw [hs]; rfl)
  | complete id =>
    obtain ⟨r, hr, hs⟩ := he
    exact h.phase_eq hr (by rw [hs]; rfl)
  | fail id =>
    obtain ⟨r, hr, hs⟩ := he
    exact h.phase_eq hr hs
  | emit id sequence bytes =>
    obtain ⟨r, hr, hs, -⟩ := he
    exact h.phase_eq hr (by rw [hs]; rfl)
  | close => exact he
  | wipe => exact absurd rfl hw

theorem Idle.post (h : l.Idle) {e : Entry} (he : l.Allowed e) : (l.post e).Idle := by
  intro hp
  cases e with
  | activate => exact absurd rfl hp
  | close =>
    intro id r hr
    change (l.rows.mapVal Row.cancel).get? id = some r at hr
    rw [AssocMap.get?_mapVal, Option.map_eq_some_iff] at hr
    obtain ⟨q, -, rfl⟩ := hr
    exact Row.active_eq_zero_iff.mp q.active_cancel
  | wipe =>
    intro id r hr
    cases hr
  | _ => exact absurd (h.phase_of_allowed he (by simp) (by simp)) hp

theorem idle_of_steps (h : Steps initial es l) : l.Idle :=
  h.invariant (fun _ _ _ he hi => hi.post he) fun _ _ _ hr => by cases hr

/-- Closed, by request or by force. -/
def Ended (l : Ledger) : Prop := l.phase = .completed ∨ l.phase = .failed

/-- Once a session has ended, all that can still happen to it is a forced close. -/
theorem Ended.eq_wipe (h : l.Ended) (hi : l.Idle) {e : Entry} (he : l.Allowed e) : e = .wipe := by
  have hactivate : e ≠ .activate := by
    rintro rfl
    rcases h with h | h <;> cases h.symm.trans he
  by_contra hwipe
  have hactive := hi.phase_of_allowed he hactivate hwipe
  rcases h with h | h <;> cases h.symm.trans hactive

theorem Ended.steps (h : l.Ended) (hi : l.Idle) (hs : Steps l es l') :
    l'.Ended ∧ l'.Idle ∧ ∀ e ∈ es, e = .wipe := by
  induction hs with
  | nil => exact ⟨h, hi, by simp⟩
  | snoc _ he ih =>
    obtain ⟨hend, hidle, hall⟩ := ih
    have hwipe := hend.eq_wipe hidle he
    refine ⟨?_, hidle.post he, ?_⟩
    · rw [hwipe]
      exact Or.inr rfl
    · simpa [or_imp, forall_and] using ⟨hall, hwipe⟩

/-- A session that was closed by force stays failed. -/
theorem ne_wipe_of_steps (h : Steps initial es l) (hp : l.phase ≠ .failed) :
    ∀ e ∈ es, e ≠ .wipe := by
  induction h with
  | nil => simp
  | @snoc es t e hs he ih =>
    have hwipe : e ≠ .wipe := by
      rintro rfl
      exact hp rfl
    have ht : t.phase ≠ .failed := by
      intro hfailed
      cases e with
      | activate => cases hfailed.symm.trans he
      | close => cases hfailed.symm.trans he
      | wipe => exact hwipe rfl
      | _ => exact hp hfailed
    simpa [or_imp, forall_and] using ⟨ih ht, hwipe⟩

end Endings

section Freshness

/-- The identifiers that entries create. -/
def createdIds (es : List Entry) : List StreamId :=
  es.filterMap fun
    | .create id => some id
    | _ => none

/-- Legal, and a created stream gets an identifier that no row has. -/
def FreshlyAllowed (l : Ledger) (e : Entry) : Prop :=
  l.Allowed e ∧ ∀ id, e = .create id → l.rows.get? id = none

theorem mem_createdIds_of_get? (h : Steps initial es l) {id : StreamId} {r : Row}
    (hr : l.rows.get? id = some r) : id ∈ createdIds es := by
  have hmodify : ∀ {rows : AssocMap StreamId Row} {j : StreamId} {f : Row → Row},
      (∃ r, (rows.modify j f).get? id = some r) → ∃ r, rows.get? id = some r := by
    rintro rows j f ⟨r, hr⟩
    rw [AssocMap.get?_modify] at hr
    split_ifs at hr
    · obtain ⟨q, hq, -⟩ := Option.map_eq_some_iff.mp hr
      exact ⟨q, hq⟩
    · exact ⟨r, hr⟩
  replace hr : ∃ r, l.rows.get? id = some r := ⟨r, hr⟩
  induction h with
  | nil => cases hr.choose_spec
  | @snoc es t e _ _ ih =>
    rw [createdIds, List.filterMap_append, List.mem_append]
    cases e with
    | create j =>
      obtain ⟨r, hr⟩ := hr
      by_cases hj : id = j
      · exact Or.inr (by simp [hj])
      · change (t.rows.insert j .fresh).get? id = some r at hr
        rw [AssocMap.get?_insert, if_neg hj] at hr
        exact Or.inl (ih ⟨r, hr⟩)
    | activate => exact Or.inl (ih hr)
    | start j => exact Or.inl (ih (hmodify hr))
    | complete j => exact Or.inl (ih (hmodify hr))
    | fail j => exact Or.inl (ih (hmodify hr))
    | emit j sequence bytes => exact Or.inl (ih (hmodify hr))
    | close =>
      obtain ⟨r, hr⟩ := hr
      change (t.rows.mapVal Row.cancel).get? id = some r at hr
      rw [AssocMap.get?_mapVal, Option.map_eq_some_iff] at hr
      exact Or.inl (ih (hr.imp fun _ h => h.1))
    | wipe => cases hr.choose_spec

theorem createdIds_append (es fs : List Entry) :
    createdIds (es ++ fs) = createdIds es ++ createdIds fs :=
  List.filterMap_append

theorem steps_fresh (h : Steps initial es l) (hn : (createdIds es).Nodup) :
    Trace FreshlyAllowed post initial es l := by
  induction h with
  | nil => exact .nil
  | @snoc es t e hs he ih =>
    rw [createdIds_append, List.nodup_append'] at hn
    refine (ih hn.1).snoc ⟨he, ?_⟩
    rintro id rfl
    by_contra hget
    obtain ⟨r, hr⟩ := Option.ne_none_iff_exists'.mp hget
    exact List.disjoint_left.mp hn.2.2 (mem_createdIds_of_get? hs hr) (by simp [createdIds])

end Freshness

section Numbering

/-- The sequence numbers emitted for a stream, in order. -/
def emitted (id : StreamId) (es : List Entry) : List ℕ :=
  es.filterMap fun
    | .emit j sequence _ => if j = id then some sequence else none
    | _ => none

theorem emitted_append (id : StreamId) (es fs : List Entry) :
    emitted id (es ++ fs) = emitted id es ++ emitted id fs :=
  List.filterMap_append

theorem emitted_emit (id j : StreamId) (sequence bytes : ℕ) :
    emitted id [.emit j sequence bytes] = if j = id then [sequence] else [] := by
  by_cases h : j = id <;> simp [emitted, h]

/-- The row counts `n` frames. -/
def Row.Counts (n : ℕ) (r : Row) : Prop :=
  r.nextSequence = 1 + n ∧ r.frames = n ∧ r.typed = n

/-- A stream's frames are numbered from one without a gap, and its row knows how many there are. -/
def Numbered (es : List Entry) (l : Ledger) (id : StreamId) : Prop :=
  emitted id es = List.range' 1 (emitted id es).length ∧
    ∀ r, l.rows.get? id = some r → Row.Counts (emitted id es).length r

theorem Row.Counts.cancel {n : ℕ} {r : Row} (h : Row.Counts n r) : Row.Counts n r.cancel := by
  unfold Row.cancel
  split_ifs
  · exact h
  · exact h

theorem counts_of_modify {rows : AssocMap StreamId Row} {id j : StreamId} {f : Row → Row} {n : ℕ}
    (hf : ∀ r, Row.Counts n r → Row.Counts n (f r))
    (h : ∀ r, rows.get? id = some r → Row.Counts n r) :
    ∀ r, (rows.modify j f).get? id = some r → Row.Counts n r := by
  intro r hr
  rw [AssocMap.get?_modify] at hr
  split_ifs at hr
  · obtain ⟨q, hq, rfl⟩ := Option.map_eq_some_iff.mp hr
    exact hf q (h q hq)
  · exact h r hr

theorem mem_createdIds_of_emitted (h : Steps initial es l) {id : StreamId}
    (he : emitted id es ≠ []) : id ∈ createdIds es := by
  induction h with
  | nil => exact absurd rfl he
  | @snoc es t e hs hallowed ih =>
    rw [createdIds_append, List.mem_append]
    rw [emitted_append] at he
    left
    by_cases hold : emitted id es = []
    · -- the emission is this entry, and a legal emission has a row
      rw [hold, List.nil_append] at he
      cases e with
      | emit j sequence bytes =>
        obtain ⟨r, hr, -⟩ := hallowed
        rw [emitted_emit] at he
        split_ifs at he with hj
        · exact mem_createdIds_of_get? hs (hj ▸ hr)
        · exact absurd rfl he
      | _ => exact absurd rfl he
    · exact ih hold

theorem numbered_of_steps (h : Steps initial es l) (hn : (createdIds es).Nodup) (id : StreamId) :
    Numbered es l id := by
  induction h with
  | nil => exact ⟨rfl, fun r hr => by cases hr⟩
  | @snoc es t e hs hallowed ih =>
    rw [createdIds_append, List.nodup_append'] at hn
    obtain ⟨hseq, hrow⟩ := ih hn.1
    unfold Numbered
    rw [emitted_append]
    cases e with
    | emit j sequence bytes =>
      obtain ⟨r, hr, -, hnext⟩ := hallowed
      by_cases hj : j = id
      · subst hj
        have hcounts := hrow r hr
        rw [emitted_emit, if_pos rfl, List.length_append, List.length_singleton]
        constructor
        · rw [List.range'_1_concat, ← hseq, hnext, hcounts.1]
        · intro q hq
          change (t.rows.modify j (Row.emit bytes)).get? j = some q at hq
          rw [AssocMap.get?_modify, if_pos rfl, hr, Option.map_some, Option.some.injEq] at hq
          obtain ⟨h₁, h₂, h₃⟩ := hcounts
          rw [← hq]
          exact ⟨by simp [Row.emit, h₁, Nat.add_assoc], by simp [Row.emit, h₂],
            by simp [Row.emit, h₃]⟩
      · rw [emitted_emit, if_neg hj, List.append_nil]
        refine ⟨hseq, fun q hq => hrow q ?_⟩
        change (t.rows.modify j (Row.emit bytes)).get? id = some q at hq
        rwa [AssocMap.get?_modify, if_neg (Ne.symm hj)] at hq
    | create j =>
      rw [show emitted id [.create j] = [] from rfl, List.append_nil]
      refine ⟨hseq, fun q hq => ?_⟩
      change (t.rows.insert j .fresh).get? id = some q at hq
      rw [AssocMap.get?_insert] at hq
      split_ifs at hq with hj
      · -- a new identifier has emitted nothing yet
        have hnew : emitted id es = [] := by
          by_contra he
          exact List.disjoint_left.mp hn.2.2 (mem_createdIds_of_emitted hs he)
            (by simp [createdIds, hj])
        cases hq
        rw [hnew]
        exact ⟨rfl, rfl, rfl⟩
      · exact hrow q hq
    | activate => simpa [emitted] using ⟨hseq, hrow⟩
    | start j => simpa [emitted] using ⟨hseq, counts_of_modify (fun _ h => h) hrow⟩
    | complete j => simpa [emitted] using ⟨hseq, counts_of_modify (fun _ h => h) hrow⟩
    | fail j => simpa [emitted] using ⟨hseq, counts_of_modify (fun _ h => h) hrow⟩
    | close =>
      rw [show emitted id [.close] = [] from rfl, List.append_nil]
      refine ⟨hseq, fun q hq => ?_⟩
      change (t.rows.mapVal Row.cancel).get? id = some q at hq
      rw [AssocMap.get?_mapVal, Option.map_eq_some_iff] at hq
      obtain ⟨r, hr, rfl⟩ := hq
      exact (hrow r hr).cancel
    | wipe =>
      rw [show emitted id [.wipe] = [] from rfl, List.append_nil]
      exact ⟨hseq, fun q hq => by cases hq⟩

end Numbering

section Balances

/-- The session's totals are those of its streams. -/
def Summed (l : Ledger) : Prop :=
  l.created = l.rows.size ∧ l.frames = l.rows.total Row.frames ∧ l.bytes = l.rows.total Row.bytes

theorem Summed.post (h : l.Summed) {e : Entry} (he : l.FreshlyAllowed e) (hw : e ≠ .wipe) :
    (l.post e).Summed := by
  obtain ⟨hc, hf, hb⟩ := h
  rw [AssocMap.size_eq_total] at hc
  -- a change of one row that keeps its counts keeps all totals
  have hmodify : ∀ {id : StreamId} {r : Row} {f : Row → Row}, l.rows.get? id = some r →
      (f r).frames = r.frames → (f r).bytes = r.bytes →
      l.created = (l.rows.modify id f).size ∧
        l.frames = (l.rows.modify id f).total Row.frames ∧
        l.bytes = (l.rows.modify id f).total Row.bytes := by
    intro id r f hr hfr hby
    have h₁ := AssocMap.total_modify hr f fun _ => 1
    have h₂ := AssocMap.total_modify hr f Row.frames
    have h₃ := AssocMap.total_modify hr f Row.bytes
    rw [AssocMap.size_eq_total]
    omega
  unfold Summed
  cases e with
  | activate => exact ⟨by rw [AssocMap.size_eq_total]; exact hc, hf, hb⟩
  | create id =>
    have hnew := he.2 id rfl
    have h₁ := AssocMap.total_insert_of_none hnew Row.fresh fun _ => 1
    have h₂ := AssocMap.total_insert_of_none hnew Row.fresh Row.frames
    have h₃ := AssocMap.total_insert_of_none hnew Row.fresh Row.bytes
    simp only [Ledger.post, AssocMap.size_eq_total, h₁, h₂, h₃]
    exact ⟨by rw [hc], hf, hb⟩
  | start id =>
    obtain ⟨r, hr, -⟩ := he.1
    exact hmodify hr rfl rfl
  | complete id =>
    obtain ⟨r, hr, -⟩ := he.1
    exact hmodify hr rfl rfl
  | fail id =>
    obtain ⟨r, hr, -⟩ := he.1
    exact hmodify hr rfl rfl
  | emit id sequence bytes =>
    obtain ⟨r, hr, -⟩ := he.1
    have h₁ := AssocMap.total_modify hr (Row.emit bytes) fun _ => 1
    have h₂ := AssocMap.total_modify hr (Row.emit bytes) Row.frames
    have h₃ := AssocMap.total_modify hr (Row.emit bytes) Row.bytes
    simp only [Row.emit] at h₁ h₂ h₃
    simp only [Ledger.post, AssocMap.size_eq_total]
    omega
  | close =>
    have hcancel : ∀ r : Row, r.cancel.frames = r.frames ∧ r.cancel.bytes = r.bytes := by
      intro r
      unfold Row.cancel
      split_ifs <;> exact ⟨rfl, rfl⟩
    simp only [Ledger.post, AssocMap.size_eq_total, AssocMap.total_mapVal, hcancel]
    exact ⟨hc, hf, hb⟩
  | wipe => exact absurd rfl hw

theorem summed_of_steps (h : Steps initial es l) (hn : (createdIds es).Nodup)
    (hw : ∀ e ∈ es, e ≠ .wipe) : l.Summed :=
  (steps_fresh h hn).invariant (fun _ e he hallowed hs => hs.post hallowed (hw e he))
    ⟨rfl, rfl, rfl⟩

/-- The counters of streams agree with the rows, and no stream was ever cancelled. -/
def Balanced (l : Ledger) : Prop :=
  l.active = l.rows.total Row.active ∧ l.rows.total Row.cancelled = 0 ∧
    l.created = l.active + l.completed + l.failed

/-- The entry ends the session. -/
def Entry.Ends (e : Entry) : Prop := e = .close ∨ e = .wipe

/-- Ending a session leaves no stream active, and the counters as they were. -/
theorem Entry.Ends.post {e : Entry} (h : e.Ends) :
    (l.post e).rows.total Row.active = 0 ∧ (l.post e).active = l.active := by
  rcases h with rfl | rfl
  · refine ⟨?_, rfl⟩
    simp only [Ledger.post, AssocMap.total_mapVal, Row.active_cancel]
    simp [AssocMap.total]
  · exact ⟨rfl, rfl⟩

/-- With no active stream there is nothing to cancel. -/
theorem mapVal_cancel {rows : AssocMap StreamId Row} (h : rows.total Row.active = 0) :
    rows.mapVal Row.cancel = rows := by
  rw [AssocMap.total_eq_zero_iff] at h
  refine AssocMap.mapVal_eq_self fun id r hr => ?_
  exact Row.cancel_of_not_isActive (Row.active_eq_zero_iff.mp (h id r hr))

/-- Moving an active stream to another state than cancelled. -/
theorem total_move {rows : AssocMap StreamId Row} {id : StreamId} {r : Row} (state : StreamState)
    (hr : rows.get? id = some r) (hactive : r.state.isActive = true) (hs : state ≠ .cancelled) :
    (rows.modify id fun r => { r with state }).total Row.active + 1 =
        rows.total Row.active + (if state.isActive then 1 else 0) ∧
      (rows.modify id fun r => { r with state }).total Row.cancelled =
        rows.total Row.cancelled := by
  have h₁ := AssocMap.total_modify hr (fun r => { r with state }) Row.active
  have h₂ := AssocMap.total_modify hr (fun r => { r with state }) Row.cancelled
  rw [Row.active_of_isActive hactive] at h₁
  rw [Row.cancelled_of_isActive hactive] at h₂
  refine ⟨h₁, ?_⟩
  simpa [Row.cancelled, hs] using h₂

theorem Balanced.post (h : l.Balanced) {e : Entry} (he : l.FreshlyAllowed e)
    (hends : e.Ends → l.rows.total Row.active = 0) : (l.post e).Balanced := by
  obtain ⟨ha, hx, hc⟩ := h
  unfold Balanced
  cases e with
  | activate => exact ⟨ha, hx, hc⟩
  | create id =>
    have hnew := he.2 id rfl
    have h₁ := AssocMap.total_insert_of_none hnew Row.fresh Row.active
    have h₂ := AssocMap.total_insert_of_none hnew Row.fresh Row.cancelled
    simp only [Ledger.post, h₁, h₂]
    refine ⟨by rw [ha]; rfl, hx, by omega⟩
  | start id =>
    obtain ⟨r, hr, hs⟩ := he.1
    have hactive : r.state.isActive = true := by rw [hs]; rfl
    have hmove := total_move .streaming hr hactive (by simp)
    simp only [StreamState.isActive, if_true] at hmove
    simp only [Ledger.post]
    omega
  | complete id =>
    obtain ⟨r, hr, hs⟩ := he.1
    have hactive : r.state.isActive = true := by rw [hs]; rfl
    have hmove := total_move .completed hr hactive (by simp)
    simp only [StreamState.isActive, Bool.false_eq_true, if_false] at hmove
    simp only [Ledger.post]
    omega
  | fail id =>
    obtain ⟨r, hr, hactive⟩ := he.1
    have hmove := total_move .failed hr hactive (by simp)
    simp only [StreamState.isActive, Bool.false_eq_true, if_false] at hmove
    simp only [Ledger.post]
    omega
  | emit id sequence bytes =>
    obtain ⟨r, hr, -⟩ := he.1
    have h₁ := AssocMap.total_modify hr (Row.emit bytes) Row.active
    have h₂ := AssocMap.total_modify hr (Row.emit bytes) Row.cancelled
    rw [show (r.emit bytes).active = r.active from rfl] at h₁
    rw [show (r.emit bytes).cancelled = r.cancelled from rfl] at h₂
    simp only [Ledger.post]
    omega
  | close =>
    simp only [Ledger.post, mapVal_cancel (hends (Or.inl rfl))]
    exact ⟨ha, hx, hc⟩
  | wipe => exact ⟨ha.trans (hends (Or.inr rfl)), rfl, hc⟩

end Balances

end Ledger

end PJS
