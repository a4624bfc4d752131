import PJS.Training.Budget

/-! Sweeps overwrite the counter with the sum they have read. The bytes of a training that is in
flight are not in the sum, and are taken off the counter all the same when the training ends. -/
namespace PJS.InMemoryDictionaryStore

open Relation

variable {δ : Type*} {s s' : InMemoryDictionaryStore δ} {c c' u : Call δ}

section Sums

namespace Call

/-- A sweep is past a state when its sum has visited the session, or has ended. -/
def Passed (s : InMemoryDictionaryStore δ) (a : ℕ) : Call δ → Prop
  | .sum _ visited _ => ∃ sessionId ∈ visited, s.sessions.get? sessionId = some a
  | .store _ => a ∈ s.sessions.values
  | _ => False

/-- What a sweep has summed up. -/
def total : Call δ → Option ℕ
  | .sum _ _ liveTotal | .store liveTotal => some liveTotal
  | _ => none

/-- The sum of a sweep covers what is pending in the states that it is past. -/
def Covers (s : InMemoryDictionaryStore δ) (c : Call δ) : Prop :=
  ∀ liveTotal, c.total = some liveTotal → ∀ A : Finset ℕ, (∀ a ∈ A, c.Passed s a) →
    s.pendingOf A ≤ liveTotal

/-- A step of another call puts no state behind a sweep, except one that it allocates. -/
theorem Step.passed (h : Call.Step s c s' c') {a : ℕ} (ha : u.Passed s' a) :
    u.Passed s a ∨ s.allocated ≤ a := by
  have hfound : ∀ sessionId, s'.sessions.get? sessionId = some a →
      s.sessions.get? sessionId = some a ∨ s.allocated ≤ a := by
    intro sessionId hget
    cases h with
    | created hnone =>
      change (s.sessions.insert _ _).get? sessionId = some a at hget
      rw [AssocMap.get?_insert] at hget
      split_ifs at hget
      · exact Or.inr (Option.some.inj hget).le
      · exact Or.inl hget
    | evict =>
      change (s.sessions.erase _).get? sessionId = some a at hget
      rw [AssocMap.get?_erase] at hget
      split_ifs at hget
      exact Or.inl hget
    | _ => exact Or.inl hget
  cases u with
  | sum start visited liveTotal =>
    obtain ⟨sessionId, hvisited, hget⟩ := ha
    exact (hfound sessionId hget).imp_left fun hget => ⟨sessionId, hvisited, hget⟩
  | store liveTotal =>
    obtain ⟨sessionId, hget⟩ := AssocMap.exists_get?_of_mem_values ha
    exact (hfound sessionId hget).imp_left AssocMap.mem_values_of_get?
  | _ => exact ha.elim

/-- A state gets more bytes only from a call that has admitted them. -/
theorem Step.pending_le (h : Call.Step s c s' c') {a : ℕ}
    (ha : c.pointer = some a → c.admittedBytes = 0) :
    (s'.states a).pendingCorpusBytes ≤ (s.states a).pendingCorpusBytes := by
  have hmodify : ∀ b f, (f (s.states b)).pendingCorpusBytes ≤ (s.states b).pendingCorpusBytes →
      ((s.modify b f).states a).pendingCorpusBytes ≤ (s.states a).pendingCorpusBytes := by
    intro b f hle
    rw [states_modify]
    split_ifs with heq
    · rw [heq]
      exact hle
    · exact le_rfl
  cases h with
  | created =>
    rw [states_allocate]
    split_ifs with heq
    · exact Nat.zero_le _
    · exact le_rfl
  | @accept b globalReserved sample hbudget =>
    rw [states_modify]
    split_ifs with heq
    · have hnone : sample.length = 0 := by
        have h := ha (congrArg some heq.symm)
        rwa [admittedBytes, if_pos hbudget] at h
      rw [heq]
      exact (Nat.add_le_add_left hnone.le _).trans_eq (Nat.add_zero _)
    · exact le_rfl
  | touchTrain | touchRegister | acquire | push | below | take | permit | finish | abandon | set =>
    exact hmodify _ _ le_rfl
  | swap => exact hmodify _ _ (Nat.zero_le _)
  | found | reject | trained | untrained | cancelLock | reserve | skip | refuse | undo | undone | ready
    | cancelWait | release | released | setIgnored | sweep | keep | evict | retained | add | summed
    | store => exact le_rfl

end Call

theorem pendingOf_mono {A B : Finset ℕ} (h : A ⊆ B) : s.pendingOf A ≤ s.pendingOf B :=
  Finset.sum_le_sum_of_subset h

/-- The sum of a sweep stays enough while no call is about to commit bytes behind it. -/
theorem Call.Covers.other (hu : u.Covers s) (h : Call.Step s c s' c') (hs : s.Sound)
    (hc : c.Valid s)
    (hpassed : ∀ a, u.Passed s a → c.pointer = some a → c.admittedBytes = 0) : u.Covers s' := by
  intro liveTotal htotal A hA
  have hold : ∀ a ∈ A.filter (· < s.allocated), u.Passed s a := fun a ha => by
    rw [Finset.mem_filter] at ha
    exact (h.passed (hA a ha.1)).resolve_right ha.2.not_ge
  have hnew : ∑ a ∈ A with ¬ a < s.allocated, (s'.states a).pendingCorpusBytes = 0 :=
    Finset.sum_eq_zero fun a ha => h.fresh hs hc (Nat.le_of_not_lt (Finset.mem_filter.mp ha).2)
  calc s'.pendingOf A = s'.pendingOf (A.filter (· < s.allocated)) := by
        rw [pendingOf, ← Finset.sum_filter_add_sum_filter_not A (· < s.allocated), hnew, Nat.add_zero]
        rfl
    _ ≤ s.pendingOf (A.filter (· < s.allocated)) :=
        Finset.sum_le_sum fun a ha => h.pending_le (hpassed a (hold a ha))
    _ ≤ liveTotal := hu liveTotal htotal _ hold

/-- A sum has visited every session that has bytes pending. -/
def Call.Complete (s : InMemoryDictionaryStore δ) (c : Call δ) : Prop :=
  ∀ a ∈ s.sessions.values, ¬ c.Passed s a → (s.states a).pendingCorpusBytes = 0

theorem Call.Covers.own (hcovers : c.Covers s) (h : Call.Step s c s' c')
    (hends : ∀ liveTotal, c' = .store liveTotal → c.Complete s) : c'.Covers s' := by
  intro liveTotal' htotal A hA
  cases h with
  | retained =>
    have hnone : A = ∅ := Finset.eq_empty_of_forall_notMem fun a ha => by
      obtain ⟨sessionId, hvisited, -⟩ := hA a ha
      exact List.not_mem_nil hvisited
    rw [hnone]
    exact Nat.zero_le _
  | @add a liveTotal start visited sessionId hnew hfound =>
    cases htotal
    have hrest : ∀ b ∈ A.erase a, (Call.sum start visited liveTotal : Call δ).Passed s b := by
      intro b hb
      obtain ⟨other, hvisited, hget⟩ := hA b (Finset.mem_of_mem_erase hb)
      rcases List.mem_cons.mp hvisited with rfl | hvisited
      · have hsame : b = a := Option.some.inj (hget.symm.trans hfound)
        exact absurd hsame (Finset.ne_of_mem_erase hb)
      · exact ⟨other, hvisited, hget⟩
    calc s.pendingOf A ≤ s.pendingOf (insert a (A.erase a)) :=
          pendingOf_mono fun b hb => by
            rw [Finset.mem_insert, Finset.mem_erase]
            tauto
      _ = (s.states a).pendingCorpusBytes + s.pendingOf (A.erase a) :=
          Finset.sum_insert (Finset.notMem_erase a A)
      _ ≤ liveTotal + (s.states a).pendingCorpusBytes := by
          have hle := hcovers liveTotal rfl _ hrest
          omega
  | @summed total start visited hall =>
    obtain rfl : total = liveTotal' := Option.some.inj htotal
    classical
    have hcomplete := hends total rfl
    have hpassed : ∀ a ∈ A.filter fun a => (Call.sum start visited total : Call δ).Passed s a,
        (Call.sum start visited total : Call δ).Passed s a := fun a ha =>
      (Finset.mem_filter.mp ha).2
    calc s.pendingOf A = s.pendingOf (A.filter fun a =>
            (Call.sum start visited total : Call δ).Passed s a) :=
          (Finset.sum_filter_of_ne fun a ha hpending =>
            by_contra fun hnot => hpending (hcomplete a (hA a ha) hnot)).symm
      _ ≤ total := hcovers total rfl _ hpassed
  | _ => cases htotal

end Sums

section Watching

/-- A call, and whether the counter may lack its bytes: it had them when a sweep stored its total,
or took them from a session that is no longer tracked. -/
@[ext] structure Watched (δ : Type*) where
  call : Call δ
  leftOut : Bool
  bytes_pos : leftOut = true → 0 < call.bytes

namespace Call

/-- The call's session has been evicted before its corpus is taken. -/
def orphaned (s : InMemoryDictionaryStore δ) : Call δ → Bool
  | .full a => a ∉ s.sessions.values
  | _ => false

/-- The call takes its bytes off the counter. -/
def GivesBack : Call δ → Call δ → Prop
  | .undo _ _ (.trying _), .undo _ _ .done | .release _ (.trying _), .release _ .done => True
  | _, _ => False

end Call

namespace Watched

variable {w w' : Watched δ}

def ofCall (c : Call δ) : Watched δ := ⟨c, false, nofun⟩

def next (s : InMemoryDictionaryStore δ) (w : Watched δ) (c' : Call δ) : Watched δ where
  call := c'
  leftOut := decide (0 < c'.bytes) && (w.leftOut || w.call.orphaned s)
  bytes_pos := fun h => of_decide_eq_true (Bool.and_eq_true_iff.mp h).1

/-- Some other call has stored its total. -/
def stored (w : Watched δ) : Watched δ where
  call := w.call
  leftOut := decide (0 < w.call.bytes)
  bytes_pos := of_decide_eq_true

/-- The bytes that the counter has to cover for a call. -/
def held (w : Watched δ) : ℕ := if w.leftOut then 0 else w.call.bytes

/-- The part of them that is about to be committed. -/
def admitted (w : Watched δ) : ℕ := if w.leftOut then 0 else w.call.admittedBytes

end Watched

/-- The bytes that the counter has to cover. -/
def need (s : InMemoryDictionaryStore δ) (watched : List (Watched δ)) : ℕ :=
  s.trackedBytes + (watched.map Watched.held).sum

/-- No call is about to commit bytes to a session that a running sweep is past. -/
def Unpassed (s : InMemoryDictionaryStore δ) (watched : List (Watched δ)) : Prop :=
  ∀ w ∈ watched, ∀ v ∈ watched, ∀ a, v.call.Passed s a → w.call.pointer = some a →
    w.call.admittedBytes = 0

abbrev WatchedCalls (δ : Type*) := Pool (InMemoryDictionaryStore δ) (Watched δ)

/-- The steps of runs in which sweeps do no lasting harm. -/
inductive HealingStep : WatchedCalls δ → WatchedCalls δ → Prop
  | start {s : InMemoryDictionaryStore δ} {calls : List (Watched δ)} {c : Call δ}
      (h : c.UsesOrSweeps) : HealingStep ⟨s, calls⟩ ⟨s, calls ++ [.ofCall c]⟩
  | step {s s' : InMemoryDictionaryStore δ} {l r : List (Watched δ)} {w : Watched δ} {c' : Call δ}
      (h : Call.Step s w.call s' c') (hstore : ∀ liveTotal, w.call ≠ .store liveTotal)
      (hunpassed : Unpassed s (l ++ w :: r))
      (hends : ∀ liveTotal, c' = .store liveTotal → w.call.Complete s)
      (hback : w.leftOut = true → w.call.GivesBack c' →
        need s (l ++ r) = 0 ∨ need s (l ++ r) + w.call.bytes ≤ s.corpusBytesInFlight) :
      HealingStep ⟨s, l ++ w :: r⟩ ⟨s', l ++ w.next s c' :: r⟩
  | store {s : InMemoryDictionaryStore δ} {l r : List (Watched δ)} {w : Watched δ} {liveTotal : ℕ}
      (h : w.call = .store liveTotal) (hunpassed : Unpassed s (l ++ w :: r)) :
      HealingStep ⟨s, l ++ w :: r⟩ ⟨{ s with corpusBytesInFlight := liveTotal },
        l.map Watched.stored ++ .ofCall .returned :: r.map Watched.stored⟩

end Watching

section Tracked

theorem trackedBytes_modify_same {a : ℕ} {f : SessionDictState δ → SessionDictState δ}
    (h : (f (s.states a)).pendingCorpusBytes = (s.states a).pendingCorpusBytes) :
    (s.modify a f).trackedBytes = s.trackedBytes := by
  refine congrArg List.sum (List.map_congr_left fun b _ => ?_)
  rw [states_modify]
  split_ifs with hb
  · rw [h, hb]
  · rfl

theorem trackedBytes_modify_of_notMem {a : ℕ} (ha : a ∉ s.sessions.values)
    (f : SessionDictState δ → SessionDictState δ) :
    (s.modify a f).trackedBytes = s.trackedBytes := by
  refine congrArg List.sum (List.map_congr_left fun b hb => ?_)
  rw [states_modify, if_neg (ne_of_mem_of_not_mem hb ha)]

theorem trackedBytes_modify_of_mem (hs : s.Sound) {a : ℕ} (ha : a ∈ s.sessions.values)
    (f : SessionDictState δ → SessionDictState δ) :
    (s.modify a f).trackedBytes + (s.states a).pendingCorpusBytes =
      s.trackedBytes + (f (s.states a)).pendingCorpusBytes := by
  have hs' : (s.modify a f).trackedBytes =
      (s.modify a f).pendingOf s.sessions.values.toFinset := (List.sum_toFinset _ hs.nodup).symm
  rw [hs', trackedBytes_eq hs]
  exact pendingOf_modify (List.mem_toFinset.mpr ha) f

theorem trackedBytes_allocate (hs : s.Sound) {sessionId : SessionId} {now : ℕ}
    (hnone : s.sessions.get? sessionId = none) :
    (s.allocate sessionId now).trackedBytes = s.trackedBytes := by
  have hold : ∀ a ∈ s.sessions.values, ((s.allocate sessionId now).states a).pendingCorpusBytes =
      (s.states a).pendingCorpusBytes := fun a ha => by
    rw [states_allocate, if_neg (hs.tracked a ha).ne]
  rw [trackedBytes, show (s.allocate sessionId now).sessions.values = _ from
    AssocMap.values_insert_of_none hnone _, List.map_append, List.sum_append,
    List.map_congr_left hold, List.map_singleton, List.sum_singleton, states_allocate, if_pos rfl]
  rfl

theorem trackedBytes_erase_le (sessionId : SessionId) :
    trackedBytes { s with sessions := s.sessions.erase sessionId } ≤ s.trackedBytes :=
  ((values_erase_sublist _ _).map _).sum_le_sum fun _ _ => Nat.zero_le _

/-- A call that has bytes, and none to commit to a tracked session, keeps what is pending with the
tracked sessions and gives its bytes back once. -/
theorem Call.Step.tracked_of_bytes (h : Call.Step s c s' c') (hpos : 0 < c.bytes)
    (hlost : ∀ a, c.pointer = some a → 0 < c.admittedBytes → a ∉ s.sessions.values) :
    s'.trackedBytes = s.trackedBytes ∧ (s'.corpusBytesInFlight = s.corpusBytesInFlight ∨
      c.GivesBack c' ∧ s'.corpusBytesInFlight = s.corpusBytesInFlight - c.bytes) := by
  cases h with
  | @accept a globalReserved sample hbudget =>
    have hlen : 0 < sample.length := by
      change 0 < 0 + sample.length at hpos
      omega
    have hadmitted : (Call.reserved a sample globalReserved : Call δ).admittedBytes =
        sample.length := if_pos hbudget
    exact ⟨trackedBytes_modify_of_notMem (hlost a rfl (hadmitted ▸ hlen)) _, Or.inl rfl⟩
  | take | permit | finish | abandon => exact ⟨trackedBytes_modify_same rfl, Or.inl rfl⟩
  | refuse | ready | cancelWait => exact ⟨rfl, Or.inl rfl⟩
  | @undo a amount counter r r' hrel | @release amount counter r r' hrel =>
    refine ⟨rfl, ?_⟩
    cases hrel with
    | nothing | load | retry => exact Or.inl rfl
    | exchange =>
      refine Or.inr ⟨trivial, ?_⟩
      simp [Call.bytes, Call.guardBytes, Call.undecidedBytes, Releasing.left]
  | _ => exact absurd hpos (Nat.lt_irrefl 0)

/-- A step moves bytes and loses none, unless it is a sweep's store, or takes the corpus of a
session that is no longer tracked. -/
theorem Call.Step.tracked_bytes (h : Call.Step s c s' c') (hs : s.Sound)
    (hstore : ∀ liveTotal, c ≠ .store liveTotal) (hle : c.bytes ≤ s.corpusBytesInFlight) :
    s'.trackedBytes + c'.bytes + s.corpusBytesInFlight ≤
        s.trackedBytes + c.bytes + s'.corpusBytesInFlight ∨
      c.orphaned s = true ∧ s'.trackedBytes = s.trackedBytes ∧
        s'.corpusBytesInFlight = s.corpusBytesInFlight := by
  cases h with
  | created hnone =>
    rw [trackedBytes_allocate hs hnone]
    exact Or.inl le_rfl
  | touchTrain | touchRegister | acquire | push | below | take | permit | finish | abandon | set =>
    rw [trackedBytes_modify_same rfl]
    exact Or.inl le_rfl
  | @reserve a sample hlen hsize =>
    refine Or.inl ?_
    change s.trackedBytes + (0 + sample.length) + s.corpusBytesInFlight ≤
      s.trackedBytes + 0 + (s.corpusBytesInFlight + sample.length)
    omega
  | @accept a globalReserved sample hbudget =>
    refine Or.inl ?_
    change trackedBytes (s.modify a _) + 0 + s.corpusBytesInFlight ≤
      s.trackedBytes + (0 + sample.length) + s.corpusBytesInFlight
    by_cases ha : a ∈ s.sessions.values
    · have hmoved := trackedBytes_modify_of_mem hs ha fun st =>
        { st with pendingCorpusBytes := st.pendingCorpusBytes + sample.length }
      simp only at hmoved
      omega
    · rw [trackedBytes_modify_of_notMem ha]
      omega
  | @swap a hlen =>
    by_cases ha : a ∈ s.sessions.values
    · refine Or.inl ?_
      have hmoved := trackedBytes_modify_of_mem hs ha fun st => { st with pendingCorpusBytes := 0 }
      change trackedBytes (s.modify a _) + ((s.states a).pendingCorpusBytes + 0) +
        s.corpusBytesInFlight ≤ s.trackedBytes + 0 + s.corpusBytesInFlight
      simp only at hmoved
      omega
    · exact Or.inr ⟨decide_eq_true ha, trackedBytes_modify_of_notMem ha _, rfl⟩
  | @undo a amount counter r r' hrel =>
    have hleft := hrel.left ((Nat.le_add_left _ _).trans hle)
    refine Or.inl ?_
    change s.trackedBytes + (0 + r'.left amount) + s.corpusBytesInFlight ≤
      s.trackedBytes + (0 + r.left amount) + counter
    omega
  | @release reservedBytes counter r r' hrel =>
    have hleft := hrel.left ((Nat.le_add_right _ _).trans hle)
    refine Or.inl ?_
    change s.trackedBytes + (r'.left reservedBytes + 0) + s.corpusBytesInFlight ≤
      s.trackedBytes + (r.left reservedBytes + 0) + counter
    omega
  | @evict now ttlMillis a start visited sessionId hnew ha hexpired =>
    exact Or.inl (Nat.add_le_add_right (Nat.add_le_add_right (trackedBytes_erase_le sessionId) _) _)
  | @store liveTotal => exact absurd rfl (hstore liveTotal)
  | found | reject | trained | untrained | cancelLock | skip | refuse | undone | ready | cancelWait
    | released | setIgnored | sweep | keep | retained | add | summed => exact Or.inl le_rfl

/-- What a step adds to the bytes that are pending or admitted fits the budget next to the
counter. -/
theorem Call.Step.tracked_admitted (h : Call.Step s c s' c') (hs : s.Sound) :
    s'.trackedBytes + c'.admittedBytes ≤ s.trackedBytes + c.admittedBytes ∨
      s'.trackedBytes = s.trackedBytes ∧
        s.corpusBytesInFlight + c'.admittedBytes ≤ totalCorpusByteBudget := by
  cases h with
  | created hnone =>
    rw [trackedBytes_allocate hs hnone]
    exact Or.inl le_rfl
  | touchTrain | touchRegister | acquire | push | below | take | permit | finish | abandon | set =>
    rw [trackedBytes_modify_same rfl]
    exact Or.inl le_rfl
  | @reserve a sample hlen hsize =>
    rw [Call.admittedBytes]
    split_ifs with hbudget
    · exact Or.inr ⟨rfl, hbudget⟩
    · exact Or.inl le_rfl
  | @accept a globalReserved sample hbudget =>
    refine Or.inl ?_
    rw [show (Call.reserved a sample globalReserved : Call δ).admittedBytes = sample.length from
      if_pos hbudget]
    by_cases ha : a ∈ s.sessions.values
    · have hmoved := trackedBytes_modify_of_mem hs ha fun st =>
        { st with pendingCorpusBytes := st.pendingCorpusBytes + sample.length }
      change trackedBytes (s.modify a _) + 0 ≤ s.trackedBytes + sample.length
      simp only at hmoved
      omega
    · rw [trackedBytes_modify_of_notMem ha]
      exact Nat.add_le_add_left (Nat.zero_le _) _
  | @swap a hlen =>
    refine Or.inl (Nat.add_le_add_right ?_ 0)
    by_cases ha : a ∈ s.sessions.values
    · have hmoved := trackedBytes_modify_of_mem hs ha fun st => { st with pendingCorpusBytes := 0 }
      simp only at hmoved
      omega
    · exact (trackedBytes_modify_of_notMem ha _).le
  | refuse => exact Or.inl (Nat.add_le_add_left (Nat.zero_le _) _)
  | @evict now ttlMillis a start visited sessionId hnew ha hexpired =>
    exact Or.inl (Nat.add_le_add_right (trackedBytes_erase_le sessionId) 0)
  | found | reject | trained | untrained | cancelLock | skip | undo | undone | ready | cancelWait
    | release | released | setIgnored | sweep | keep | retained | add | summed | store =>
    exact Or.inl le_rfl

end Tracked

section Runs

variable {p q : WatchedCalls δ} {l r : List (Watched δ)} {w : Watched δ}

/-- The calls without what is noted of them. -/
def WatchedCalls.plain (p : WatchedCalls δ) : Calls δ := ⟨p.shared, p.calls.map Watched.call⟩

theorem HealingStep.plain (h : HealingStep p q) :
    Pool.Step Call.UsesOrSweeps Call.Step p.plain q.plain := by
  unfold WatchedCalls.plain
  cases h with
  | @start s calls c hc =>
    have hcalls : (calls ++ [Watched.ofCall c]).map Watched.call = calls.map Watched.call ++ [c] := by
      rw [List.map_append]
      rfl
    rw [hcalls]
    exact .start hc
  | @step s s' l r w c' hstep hstore hunpassed hends hback =>
    rw [List.map_append, List.map_append, List.map_cons, List.map_cons]
    exact .step hstep
  | @store s l r w liveTotal hw hunpassed =>
    have hcalls : ∀ m : List (Watched δ),
        (m.map Watched.stored).map Watched.call = m.map Watched.call := fun m => List.map_map
    rw [List.map_append, List.map_append, List.map_cons, List.map_cons, hcalls, hcalls, hw]
    exact .step .store

/-- Besides the calls' pointers: the sums of the sweeps cover what they are past, bytes that are
left out are not committed to tracked sessions, and the counter covers what it has to. -/
structure Heals (p : WatchedCalls δ) : Prop where
  holds : Pool.Holds Sound Call.Valid (fun _ _ => True) p.plain
  covers : ∀ w ∈ p.calls, w.call.Covers p.shared
  lost : ∀ w ∈ p.calls, w.leftOut = true → ∀ a, w.call.pointer = some a →
    0 < w.call.admittedBytes → a ∉ p.shared.sessions.values
  need_le : need p.shared p.calls ≤ p.shared.corpusBytesInFlight
  budget : p.shared.trackedBytes + (p.calls.map Watched.admitted).sum ≤ totalCorpusByteBudget

theorem Heals.valid (hp : Heals p) (hw : w ∈ p.calls) : w.call.Valid p.shared :=
  hp.holds.calls w.call (List.mem_map_of_mem hw)

theorem Call.admittedBytes_le (c : Call δ) : c.admittedBytes ≤ c.bytes := by
  have hle := c.firmBytes_le
  rw [Call.firmBytes, Call.bytes] at hle
  rw [Call.bytes]
  omega

theorem Watched.admitted_le (w : Watched δ) : w.admitted ≤ w.held := by
  rw [Watched.admitted, Watched.held]
  split_ifs
  · exact le_rfl
  · exact w.call.admittedBytes_le

theorem sum_admitted_le (watched : List (Watched δ)) :
    (watched.map Watched.admitted).sum ≤ (watched.map Watched.held).sum :=
  List.sum_le_sum fun w _ => w.admitted_le

theorem need_middle : need s (l ++ w :: r) = need s (l ++ r) + w.held := by
  rw [need, need, Pool.sum_map_middle]
  omega

theorem Watched.held_le (w : Watched δ) : w.held ≤ w.call.bytes := by
  rw [Watched.held]
  split_ifs
  · exact Nat.zero_le _
  · exact le_rfl

theorem Watched.held_next (h : w.leftOut = true ∨ w.call.orphaned s = true) :
    (w.next s c').held = 0 := by
  by_cases hpos : 0 < c'.bytes
  · have hleft : (w.next s c').leftOut = true := by
      change (decide (0 < c'.bytes) && (w.leftOut || w.call.orphaned s)) = true
      rw [decide_eq_true hpos, Bool.true_and, Bool.or_eq_true]
      exact h
    exact if_pos hleft
  · exact Nat.eq_zero_of_le_zero ((w.next s c').held_le.trans (Nat.le_of_not_lt hpos))

/-- What a step does to the bytes that the counter has to cover for its call. -/
theorem Watched.need_next (h : Call.Step s w.call s' c') (hs : s.Sound)
    (hstore : ∀ liveTotal, w.call ≠ .store liveTotal)
    (hlost : w.leftOut = true → ∀ a, w.call.pointer = some a → 0 < w.call.admittedBytes →
      a ∉ s.sessions.values)
    (hback : w.leftOut = true → w.call.GivesBack c' →
      need s (l ++ r) = 0 ∨ need s (l ++ r) + w.call.bytes ≤ s.corpusBytesInFlight)
    (hneed : need s (l ++ w :: r) ≤ s.corpusBytesInFlight) :
    need s' (l ++ w.next s c' :: r) ≤ s'.corpusBytesInFlight := by
  rw [need_middle] at hneed ⊢
  rw [need] at hneed hback ⊢
  cases hleft : w.leftOut with
  | true =>
    have hheld : (w.next s c').held = 0 := Watched.held_next (Or.inl hleft)
    obtain ⟨htracked, hcounter | ⟨hgives, hcounter⟩⟩ :=
      h.tracked_of_bytes (w.bytes_pos hleft) (hlost hleft)
    · omega
    · have hroom := hback hleft hgives
      omega
  | false =>
    have hheld : w.held = w.call.bytes := by simp [Watched.held, hleft]
    rw [hheld] at hneed
    rcases h.tracked_bytes hs hstore (by omega) with hmoved | ⟨horphaned, htracked, hcounter⟩
    · have hheld' : (w.next s c').held ≤ c'.bytes := Watched.held_le _
      omega
    · have hheld' : (w.next s c').held = 0 := Watched.held_next (Or.inr horphaned)
      omega

theorem Watched.budget_next (h : Call.Step s w.call s' c') (hs : s.Sound)
    (hlost : w.leftOut = true → ∀ a, w.call.pointer = some a → 0 < w.call.admittedBytes →
      a ∉ s.sessions.values)
    (hneed : need s (l ++ w :: r) ≤ s.corpusBytesInFlight)
    (hbudget : s.trackedBytes + ((l ++ w :: r).map Watched.admitted).sum ≤ totalCorpusByteBudget) :
    s'.trackedBytes + ((l ++ w.next s c' :: r).map Watched.admitted).sum ≤
      totalCorpusByteBudget := by
  have hrest := sum_admitted_le (l ++ r)
  rw [need_middle, need] at hneed
  rw [Pool.sum_map_middle] at hbudget ⊢
  cases hleft : w.leftOut with
  | true =>
    have hnone : (w.next s c').admitted = 0 :=
      Nat.eq_zero_of_le_zero ((Watched.admitted_le _).trans_eq (Watched.held_next (Or.inl hleft)))
    have htracked := (h.tracked_of_bytes (w.bytes_pos hleft) (hlost hleft)).1
    omega
  | false =>
    have hadmitted : w.admitted = w.call.admittedBytes := by simp [Watched.admitted, hleft]
    have hadmitted' : (w.next s c').admitted ≤ c'.admittedBytes := by
      rw [Watched.admitted]
      split_ifs
      · exact Nat.zero_le _
      · exact le_rfl
    rcases h.tracked_admitted hs with hle | ⟨htracked, hroom⟩ <;> omega

theorem Call.Step.notMem_values (h : Call.Step s c s' c') {a : ℕ} (ha : a ∉ s.sessions.values)
    (hlt : a < s.allocated) : a ∉ s'.sessions.values := by
  rcases h.values with hsub | ⟨hvalues, -⟩
  · exact fun hmem => ha (hsub.subset hmem)
  · rw [hvalues, List.mem_append, List.mem_singleton]
    exact not_or.mpr ⟨ha, hlt.ne⟩

/-- A call whose bytes are left out does not come by bytes to commit. -/
theorem Watched.lost_next (h : Call.Step s w.call s' c') (hc : w.call.Valid s)
    (hlost : w.leftOut = true → ∀ a, w.call.pointer = some a → 0 < w.call.admittedBytes →
      a ∉ s.sessions.values)
    (hleft : (w.next s c').leftOut = true) {a : ℕ} (ha : c'.pointer = some a)
    (hadmitted : 0 < c'.admittedBytes) : a ∉ s'.sessions.values := by
  have hbefore : w.leftOut = true ∨ w.call.orphaned s = true :=
    Bool.or_eq_true_iff.mp (Bool.and_eq_true_iff.mp hleft).2
  obtain ⟨c, leftOut, hpos⟩ := w
  cases h with
  | reserve hlen hsize =>
    rcases hbefore with hbefore | hbefore
    · exact absurd (hpos hbefore) (Nat.lt_irrefl 0)
    · cases hbefore
  | _ => exact absurd hadmitted (Nat.lt_irrefl 0)

theorem mem_middle {v : Watched δ} : v ∈ l ++ w :: r ↔ v = w ∨ v ∈ l ++ r := by
  simp only [List.mem_append, List.mem_cons]
  tauto

theorem Heals.step (hp : Heals ⟨s, l ++ w :: r⟩) (h : Call.Step s w.call s' c')
    (hstore : ∀ liveTotal, w.call ≠ .store liveTotal) (hunpassed : Unpassed s (l ++ w :: r))
    (hends : ∀ liveTotal, c' = .store liveTotal → w.call.Complete s)
    (hback : w.leftOut = true → w.call.GivesBack c' →
      need s (l ++ r) = 0 ∨ need s (l ++ r) + w.call.bytes ≤ s.corpusBytesInFlight) :
    Heals ⟨s', l ++ w.next s c' :: r⟩ := by
  have hw : w ∈ l ++ w :: r := mem_middle.mpr (Or.inl rfl)
  have hrest : ∀ v ∈ l ++ r, v ∈ l ++ w :: r := fun v hv => mem_middle.mpr (Or.inr hv)
  have hs : s.Sound := hp.holds.shared
  refine ⟨?_, fun v hv => ?_, fun v hv => ?_, ?_, ?_⟩
  · exact outline.step_holds hp.holds
      (HealingStep.plain (.step h hstore hunpassed hends hback))
  · rcases mem_middle.mp hv with rfl | hv
    · exact (hp.covers w hw).own h hends
    · have hmem := hrest v hv
      exact (hp.covers v hmem).other h hs (hp.valid hw) fun a => hunpassed w hw v hmem a
  · rcases mem_middle.mp hv with rfl | hv
    · exact fun hleft a ha hadmitted => w.lost_next h (hp.valid hw) (hp.lost w hw) hleft ha hadmitted
    · have hmem := hrest v hv
      exact fun hleft a ha hadmitted =>
        h.notMem_values (hp.lost v hmem hleft a ha hadmitted) (hp.valid hmem a ha)
  · exact Watched.need_next h hs hstore (hp.lost w hw) hback hp.need_le
  · exact Watched.budget_next h hs (hp.lost w hw) hp.need_le hp.budget

theorem Watched.held_stored (w : Watched δ) : w.stored.held = 0 := by
  rw [Watched.held]
  split_ifs with hleft
  · rfl
  · exact Nat.eq_zero_of_not_pos fun hpos => hleft (decide_eq_true hpos)

/-- A sweep's store leaves out what all other calls have, and covers the rest. -/
theorem Heals.store {liveTotal : ℕ} (hp : Heals ⟨s, l ++ w :: r⟩) (h : w.call = .store liveTotal)
    (hunpassed : Unpassed s (l ++ w :: r)) :
    Heals ⟨{ s with corpusBytesInFlight := liveTotal },
      l.map Watched.stored ++ .ofCall .returned :: r.map Watched.stored⟩ := by
  have hw : w ∈ l ++ w :: r := mem_middle.mpr (Or.inl rfl)
  have hs : s.Sound := hp.holds.shared
  have hcalls : ∀ v ∈ l.map Watched.stored ++ .ofCall .returned :: r.map Watched.stored,
      v = .ofCall .returned ∨ ∃ u ∈ l ++ w :: r, v = u.stored := by
    intro v hv
    rw [mem_middle, ← List.map_append, List.mem_map] at hv
    refine hv.imp_right fun ⟨u, hu, heq⟩ => ⟨u, mem_middle.mpr (Or.inr hu), heq.symm⟩
  have hnone : ((l.map Watched.stored ++ .ofCall .returned :: r.map Watched.stored).map
      Watched.held).sum = 0 := List.sum_eq_zero fun n hn => by
    obtain ⟨v, hv, rfl⟩ := List.mem_map.mp hn
    rcases hcalls v hv with rfl | ⟨u, -, rfl⟩
    · rfl
    · exact u.held_stored
  have htracked : s.trackedBytes ≤ liveTotal := by
    rw [trackedBytes_eq hs]
    refine hp.covers w hw liveTotal (by rw [h]; rfl) _ fun a ha => ?_
    rw [h]
    exact List.mem_toFinset.mp ha
  refine ⟨outline.step_holds hp.holds (HealingStep.plain (.store h hunpassed)), fun v hv => ?_,
    fun v hv hleft a ha hadmitted hmem => ?_, ?_, ?_⟩
  · rcases hcalls v hv with rfl | ⟨u, hu, rfl⟩
    · exact fun liveTotal htotal => nomatch htotal
    · have hstep : Call.Step s w.call { s with corpusBytesInFlight := liveTotal } .returned := by
        rw [h]
        exact .store
      refine (hp.covers u hu).other hstep hs (hp.valid hw) fun a _ ha => ?_
      rw [h] at ha
      cases ha
  · rcases hcalls v hv with rfl | ⟨u, hu, rfl⟩
    · cases hleft
    · have hpassed : w.call.Passed s a := by
        rw [h]
        exact hmem
      exact hadmitted.ne' (hunpassed u hu w hw a hpassed ha)
  · rw [need, hnone]
    exact htracked
  · have hadmitted :=
      sum_admitted_le (l.map Watched.stored ++ .ofCall .returned :: r.map Watched.stored)
    have hbudget := hp.budget
    change s.trackedBytes + _ ≤ _
    dsimp only at hbudget ⊢
    omega

theorem Heals.start (hp : Heals p) (h : c.UsesOrSweeps) :
    Heals ⟨p.shared, p.calls ++ [.ofCall c]⟩ := by
  have hnew : c.bytes = 0 ∧ c.total = none := by
    rcases h with ⟨sessionId, use, rfl⟩ | ⟨ttlMillis, rfl⟩ <;> exact ⟨rfl, rfl⟩
  have hheld : (Watched.ofCall c).held = 0 := hnew.1
  have hadmitted : (Watched.ofCall c).admitted = 0 :=
    Nat.eq_zero_of_le_zero ((Watched.admitted_le _).trans_eq hheld)
  have hcalls : ∀ v ∈ p.calls ++ [Watched.ofCall c], v ∈ p.calls ∨ v = .ofCall c := fun v hv =>
    (List.mem_append.mp hv).imp_right List.mem_singleton.mp
  refine ⟨outline.step_holds hp.holds (HealingStep.plain (.start h)), fun v hv => ?_,
    fun v hv hleft => ?_, ?_, ?_⟩
  · rcases hcalls v hv with hv | rfl
    · exact hp.covers v hv
    · intro liveTotal htotal
      rw [show (Watched.ofCall c).call.total = none from hnew.2] at htotal
      cases htotal
  · rcases hcalls v hv with hv | rfl
    · exact hp.lost v hv hleft
    · cases hleft
  · rw [need, List.map_append, List.sum_append, List.map_singleton, List.sum_singleton, hheld]
    exact hp.need_le
  · rw [List.map_append, List.sum_append, List.map_singleton, List.sum_singleton, hadmitted]
    exact hp.budget

theorem heals_of_run (h : ReflTransGen HealingStep ⟨new, []⟩ p) : Heals p := by
  induction h with
  | refl => exact ⟨Pool.holds_nil sound_new, by simp, by simp, Nat.zero_le _, Nat.zero_le _⟩
  | tail _ h ih =>
    cases h with
    | start h => exact ih.start h
    | step h hstore hunpassed hends hback => exact ih.step h hstore hunpassed hends hback
    | store h hunpassed => exact ih.store h hunpassed

/-- The call is about to store the total of its sweep. -/
def Call.storing : Call δ → Bool
  | .store _ => true
  | _ => false

theorem Call.ne_store (h : c.storing = false) (liveTotal : ℕ) : c ≠ .store liveTotal := by
  rintro rfl
  cases h

theorem Watched.next_ofCall (h : c.orphaned s = false) : (ofCall c).next s c' = ofCall c' := by
  refine Watched.ext rfl ?_
  change (decide (0 < c'.bytes) && (false || c.orphaned s)) = false
  rw [h, Bool.or_false, Bool.and_false]

theorem unpassed_of_admitted {watched : List (Watched δ)}
    (h : ∀ w ∈ watched, w.call.admittedBytes = 0) : Unpassed s watched :=
  fun w hw _ _ _ _ _ => h w hw

/-- Without sweeps every run is one in which they do no harm. -/
theorem reaches_watched {p q : Calls δ} (hp : Pool.Holds Sound Call.Tracked (fun _ _ => True) p)
    (h : ReflTransGen (Pool.Step Call.Uses Call.Step) p q) :
    ReflTransGen HealingStep ⟨p.shared, p.calls.map Watched.ofCall⟩
      ⟨q.shared, q.calls.map Watched.ofCall⟩ := by
  suffices hrun : Pool.Holds Sound Call.Tracked (fun _ _ => True) q ∧ ReflTransGen HealingStep
      ⟨p.shared, p.calls.map Watched.ofCall⟩ ⟨q.shared, q.calls.map Watched.ofCall⟩ from hrun.2
  induction h with
  | refl => exact ⟨hp, .refl⟩
  | tail _ hlast ih =>
    refine ⟨usesOutline.step_holds ih.1 hlast, ih.2.tail ?_⟩
    cases hlast with
    | @start s calls c hc =>
      rw [List.map_append]
      exact .start (Or.inl hc)
    | @step s s' l r c c' hstep =>
      have hmem : c ∈ l ++ c :: r := by simp
      have htracked : c.Tracked s := ih.1.calls c hmem
      have hnext : (Watched.ofCall c).next s c' = .ofCall c' := Watched.next_ofCall (by
        cases c with
        | full a => exact decide_eq_false (not_not.mpr (htracked.1 a rfl))
        | _ => rfl)
      have hstore : ∀ d : Call δ, d.Tracked s → ∀ liveTotal, d ≠ .store liveTotal := by
        rintro d hd liveTotal rfl
        exact hd.2
      rw [List.map_append, List.map_append, List.map_cons, List.map_cons, ← hnext]
      refine .step hstep (hstore c htracked) ?_ ?_ nofun
      · intro w _ v hv a hpassed _
        rw [← List.map_cons, ← List.map_append] at hv
        obtain ⟨d, hd, rfl⟩ := List.mem_map.mp hv
        have hdtracked := (ih.1.calls d hd).2
        cases d with
        | sum | store => exact hdtracked.elim
        | _ => exact hpassed.elim
      · rintro liveTotal rfl
        cases hstep
        exact htracked.2.elim

/-- If samples are admitted only for sessions that no running sweep is past, sweeps pass over no
session with bytes, and what a sweep has left out is given back only out of what the others do not
need, then the counter always covers the pending bytes of the tracked sessions, and these stay
within the budget. -/
theorem trackedBytes_le_of_healing (h : ReflTransGen HealingStep ⟨new, []⟩ p) :
    p.shared.trackedBytes ≤ p.shared.corpusBytesInFlight ∧
      p.shared.trackedBytes ≤ totalCorpusByteBudget := by
  have hheals := heals_of_run h
  have hneed := hheals.need_le
  have hbudget := hheals.budget
  rw [need] at hneed
  omega

/-- A sweep stores its total while a training is in flight. The training ends, and a sample of
another session is counted in full. -/
theorem trackedBytes_le_of_healing_training : ∃ p : WatchedCalls Unit,
    ReflTransGen HealingStep ⟨new, []⟩ p ∧ (∀ w ∈ p.calls, w.call = .returned) ∧
      p.shared.trackedBytes = 3 ∧ p.shared.trackedBytes ≤ p.shared.corpusBytesInFlight := by
  let s₁ := oneTaken.modify 0 fun st => { st with dict := .initializing }
  let s₂ : InMemoryDictionaryStore Unit := { s₁ with corpusBytesInFlight := 0 }
  let s₃ := s₂.modify 0 fun st => { st with dict := .initialized () }
  let s₄ := (s₃.allocate ⟨8⟩ 0).collected 1 [[1, 2, 3]]
  let calls : List (Call Unit) := oneServed ++ [.returned, .returned]
  let idle : List (Watched Unit) := oneServed.map .ofCall
  let training : Watched Unit := .ofCall (.training 0 32 oneCorpus)
  let sweeping (c : Call Unit) : WatchedCalls Unit := ⟨s₁, idle ++ [training] ++ [.ofCall c]⟩
  let ending (s : InMemoryDictionaryStore Unit) (w : Watched Unit) : WatchedCalls Unit :=
    ⟨s, idle ++ w :: [.ofCall .returned]⟩
  have htraining : ReflTransGen HealingStep ⟨new, []⟩ ⟨s₁, idle ++ [training]⟩ := by
    have hpermit : Pool.Step Call.Uses Call.Step ⟨oneTaken, oneServed ++ [.wait 0 32 oneCorpus]⟩
        ⟨s₁, oneServed ++ [.training 0 32 oneCorpus]⟩ := .step (.permit rfl)
    have hrun := reaches_watched (Pool.holds_nil sound_new)
      ((reaches_plain reaches_oneCorpus).tail hpermit)
    rwa [List.map_append] at hrun
  have hidle : ∀ w ∈ idle, w.call.admittedBytes = 0 := by
    simp [idle, oneServed, Watched.ofCall, Call.admittedBytes]
  have hquiet : ∀ (s : InMemoryDictionaryStore Unit) (w v : Watched Unit),
      w.call.admittedBytes = 0 → v.call.admittedBytes = 0 →
        Unpassed s (idle ++ w :: [v]) := by
    intro s w v hw hv
    refine unpassed_of_admitted fun u hu => ?_
    rw [mem_middle, List.mem_append, List.mem_singleton] at hu
    rcases hu with rfl | hu | rfl
    · exact hw
    · exact hidle u hu
    · exact hv
  have hsweep : ∀ {c c' : Call Unit}, Call.Step s₁ c s₁ c' → c.admittedBytes = 0 →
      c.orphaned s₁ = false → c.storing = false → c'.storing = false ∨ c.Complete s₁ →
      HealingStep (sweeping c) (sweeping c') := by
    intro c c' h hadmitted horphaned hstore hends
    have hstep := @HealingStep.step Unit s₁ s₁ (idle ++ [training]) [] (.ofCall c) c' h
      (Call.ne_store hstore) (by rw [List.append_assoc]; exact hquiet s₁ training _ rfl hadmitted)
      (fun liveTotal heq => hends.resolve_left fun hc' => Call.ne_store hc' liveTotal heq)
      fun hleft => absurd hleft Bool.false_ne_true
    rwa [Watched.next_ofCall horphaned] at hstep
  have hbegin : HealingStep ⟨s₁, idle ++ [training]⟩ (sweeping (.sweep 5)) :=
    .start (Or.inr ⟨5, rfl⟩)
  have hretain : HealingStep (sweeping (.sweep 5)) (sweeping (.retain 0 5 [(⟨7⟩, 0)] [])) :=
    hsweep .sweep rfl rfl rfl (Or.inl rfl)
  have hkeep : HealingStep (sweeping (.retain 0 5 [(⟨7⟩, 0)] []))
      (sweeping (.retain 0 5 [(⟨7⟩, 0)] [⟨7⟩])) :=
    hsweep (.keep List.not_mem_nil rfl (by decide)) rfl rfl rfl (Or.inl rfl)
  have hretained : HealingStep (sweeping (.retain 0 5 [(⟨7⟩, 0)] [⟨7⟩]))
      (sweeping (.sum [(⟨7⟩, 0)] [] 0)) := hsweep (.retained (by decide)) rfl rfl rfl (Or.inl rfl)
  have hadd : HealingStep (sweeping (.sum [(⟨7⟩, 0)] [] 0)) (sweeping (.sum [(⟨7⟩, 0)] [⟨7⟩] 0)) :=
    hsweep (.add (a := 0) List.not_mem_nil rfl) rfl rfl rfl (Or.inl rfl)
  have hsummed : HealingStep (sweeping (.sum [(⟨7⟩, 0)] [⟨7⟩] 0)) (sweeping (.store 0)) :=
    hsweep (.summed (by decide)) rfl rfl rfl (Or.inr fun a ha _ => by
      rw [List.mem_singleton.mp ha]
      rfl)
  have hstored : HealingStep (sweeping (.store 0)) (ending s₂ training.stored) := by
    have hstep := @HealingStep.store Unit s₁ (idle ++ [training]) [] (.ofCall (.store 0)) 0 rfl
      (by rw [List.append_assoc]; exact hquiet s₁ training _ rfl rfl)
    have hsame : idle.map Watched.stored = idle := by
      simp [idle, oneServed, Watched.ofCall, Watched.stored, Call.bytes, Call.guardBytes,
        Call.undecidedBytes]
    rw [List.map_append, hsame, List.append_assoc] at hstep
    exact hstep
  -- The guard of the training is left out, and nothing else is pending when it is dropped.
  have hend : ∀ {s s' : InMemoryDictionaryStore Unit} {w : Watched Unit} {c' : Call Unit},
      Call.Step s w.call s' c' → w.call.admittedBytes = 0 →
      w.call.storing = false → c'.storing = false → s.trackedBytes = 0 →
      HealingStep (ending s w) (ending s' (w.next s c')) := by
    intro s s' w c' h hadmitted hstore hstore' htracked
    refine .step h (Call.ne_store hstore) (hquiet s w _ hadmitted rfl)
      (fun liveTotal heq => absurd heq (Call.ne_store hstore' liveTotal)) fun _ _ => Or.inl ?_
    simp [need, htracked, idle, oneServed, Watched.ofCall, Watched.held, Call.bytes, Call.guardBytes,
      Call.undecidedBytes]
  let ended := training.stored.next s₂ (.release 32 .start)
  let loaded := ended.next s₃ (.release 32 (.trying 0))
  let released := loaded.next s₃ (.release 32 .done)
  have hfinish : HealingStep (ending s₂ training.stored) (ending s₃ ended) :=
    hend .finish rfl rfl rfl rfl
  have hload : HealingStep (ending s₃ ended) (ending s₃ loaded) :=
    hend (.release (.load (by decide))) rfl rfl rfl rfl
  have hexchange : HealingStep (ending s₃ loaded) (ending s₃ released) :=
    hend (.release .exchange) rfl rfl rfl rfl
  have hreturned : HealingStep (ending s₃ released) ⟨s₃, calls.map .ofCall⟩ := by
    have hstep : HealingStep (ending s₃ released) (ending s₃ (released.next s₃ .returned)) :=
      hend .released rfl rfl rfl rfl
    rw [List.map_append]
    exact hstep
  have hswept := ((((((htraining.tail hbegin).tail hretain).tail hkeep).tail hretained).tail
    hadd).tail hsummed).tail hstored
  have hhealed := (((hswept.tail hfinish).tail hload).tail hexchange).tail hreturned
  have hholds : Pool.Holds Sound Call.Tracked (fun _ _ => True)
      (⟨s₃, calls⟩ : Calls Unit) :=
    ⟨(heals_of_run hhealed).holds.shared,
      by simp [calls, oneServed, Call.Tracked, Call.pointer],
      List.pairwise_of_forall fun _ _ => trivial⟩
  have hother : ReflTransGen (Pool.Step Call.Uses CollectingStep)
      ⟨s₃, calls⟩ ⟨s₄, calls ++ [.returned]⟩ :=
    (reaches_allocated ⟨8⟩ (.train [1, 2, 3]) rfl rfl).trans
      (reaches_pushed rfl rfl (by decide) (by decide) (by decide))
  have hrun := hhealed.trans (reaches_watched hholds (reaches_plain hother))
  refine ⟨_, hrun, ?_, rfl, (trackedBytes_le_of_healing hrun).1⟩
  simp [calls, oneServed, Watched.ofCall]

/-- A sweep reads an empty store, a sample is collected, and the sweep stores its total. -/
theorem sweep_loses_bytes : ∃ p : Calls Unit,
    ReflTransGen (Pool.Step Call.UsesOrSweeps Call.Step) Calls.new p ∧
      (∀ c ∈ p.calls, c = .returned) ∧
      p.shared.corpusBytesInFlight < p.shared.trackedBytes := by
  have h₁ : Pool.Step Call.UsesOrSweeps Call.Step (Calls.new : Calls Unit) ⟨new, [.sweep 5]⟩ :=
    .start (Or.inr ⟨5, rfl⟩)
  have h₂ : Pool.Step Call.UsesOrSweeps Call.Step (⟨new, [.sweep 5]⟩ : Calls Unit)
      ⟨new, [.retain 0 5 [] []]⟩ := .step (l := []) .sweep
  have h₃ : Pool.Step Call.UsesOrSweeps Call.Step (⟨new, [.retain 0 5 [] []]⟩ : Calls Unit)
      ⟨new, [.sum [] [] 0]⟩ := .step (l := []) (.retained (by simp))
  have h₄ : Pool.Step Call.UsesOrSweeps Call.Step (⟨new, [.sum [] [] 0]⟩ : Calls Unit)
      ⟨new, [.store 0]⟩ := .step (l := []) (.summed (by simp))
  let s : InMemoryDictionaryStore Unit := (new.allocate ⟨7⟩ 0).collected 0 [[1, 2, 3]]
  have hcollected : ReflTransGen (Pool.Step Call.Uses CollectingStep) ⟨new, [.store 0]⟩
      ⟨s, [.store 0] ++ [.returned]⟩ :=
    (reaches_allocated ⟨7⟩ (.train [1, 2, 3]) rfl rfl).trans
      (reaches_pushed rfl rfl (by decide) (by decide) (by decide))
  have hcollected' : ReflTransGen (Pool.Step Call.UsesOrSweeps Call.Step) _ _ :=
    (reaches_plain hcollected).lift id fun _ _ h => Pool.Step.mono (fun _ => Or.inl) id h
  have h₅ : Pool.Step Call.UsesOrSweeps Call.Step (⟨s, [.store 0, .returned]⟩ : Calls Unit)
      ⟨{ s with corpusBytesInFlight := 0 }, [.returned, .returned]⟩ := .step (l := []) .store
  exact ⟨_, (((((ReflTransGen.single h₁).tail h₂).tail h₃).tail h₄).trans hcollected').tail h₅,
    by simp, Nat.zero_lt_succ _⟩

end Runs

end PJS.InMemoryDictionaryStore
