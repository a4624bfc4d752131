import PJS.Training.DictionaryStore

/-! The byte budget of the pending corpora. A reserved byte is in one place at a time: with a call
that has added it to the counter, pending with a session, or held by a reservation guard. -/
namespace PJS.InMemoryDictionaryStore

open Relation

variable {δ : Type*} {s s' : InMemoryDictionaryStore δ} {c c' : Call δ}

section Bytes

/-- What a release still has to take off the counter. -/
def Releasing.left (amount : ℕ) (r : Releasing) : ℕ := if r = .done then 0 else amount

namespace Call

/-- The state that a call holds a pointer to. -/
def pointer : Call δ → Option ℕ
  | .touch a _ | .check a _ | .lock a _ | .locked a _ | .reserved a _ _ | .push a _ | .undo a _ _
  | .full a | .take a _ | .wait a _ _ | .training a _ _ | .set a _ => some a
  | .session _ _ | .release _ _ | .sweep _ | .retain _ _ _ _ | .sum _ _ _ | .store _
  | .returned => none

/-- The bytes of the reservation guard that a call holds, or is about to build. -/
def guardBytes : Call δ → ℕ
  | .take _ reservedBytes | .wait _ reservedBytes _ | .training _ reservedBytes _ => reservedBytes
  | .release reservedBytes r => r.left reservedBytes
  | _ => 0

/-- The bytes that a call has added to the counter, and neither committed nor undone. -/
def undecidedBytes : Call δ → ℕ
  | .reserved _ sample _ => sample.length
  | .undo _ amount r => r.left amount
  | _ => 0

/-- The undecided bytes that a call is about to commit. -/
def admittedBytes : Call δ → ℕ
  | .reserved _ sample globalReserved =>
    if globalReserved ≤ totalCorpusByteBudget then sample.length else 0
  | _ => 0

def bytes (c : Call δ) : ℕ := c.guardBytes + c.undecidedBytes

def firmBytes (c : Call δ) : ℕ := c.guardBytes + c.admittedBytes

theorem firmBytes_le (c : Call δ) : c.firmBytes ≤ c.bytes := by
  refine Nat.add_le_add_left ?_ _
  cases c with
  | reserved a sample globalReserved =>
    rw [admittedBytes, undecidedBytes]
    split_ifs
    · exact le_rfl
    · exact Nat.zero_le _
  | _ => exact Nat.zero_le _

end Call

/-- The bytes pending in a set of states. -/
def pendingOf (s : InMemoryDictionaryStore δ) (A : Finset ℕ) : ℕ :=
  ∑ a ∈ A, (s.states a).pendingCorpusBytes

/-- The bytes pending in the tracked sessions. -/
def trackedBytes (s : InMemoryDictionaryStore δ) : ℕ :=
  (s.sessions.values.map fun a => (s.states a).pendingCorpusBytes).sum

theorem Releasing.Step.left {amount counter counter' : ℕ} {r r' : Releasing}
    (h : Releasing.Step amount counter r counter' r') (hle : r.left amount ≤ counter) :
    r'.left amount + counter = r.left amount + counter' := by
  cases h with
  | nothing h => simp [Releasing.left, h]
  | load | retry => rfl
  | exchange =>
    simp only [Releasing.left, reduceCtorEq, if_false, if_true] at hle ⊢
    omega

theorem pendingOf_modify {A : Finset ℕ} {a : ℕ} (ha : a ∈ A)
    (f : SessionDictState δ → SessionDictState δ) :
    (s.modify a f).pendingOf A + (s.states a).pendingCorpusBytes =
      s.pendingOf A + (f (s.states a)).pendingCorpusBytes := by
  have hrest : ∑ b ∈ A.erase a, ((s.modify a f).states b).pendingCorpusBytes =
      ∑ b ∈ A.erase a, (s.states b).pendingCorpusBytes := by
    refine Finset.sum_congr rfl fun b hb => ?_
    rw [states_modify, if_neg (Finset.ne_of_mem_erase hb)]
  have hself : (s.modify a f).states a = f (s.states a) := by rw [states_modify, if_pos rfl]
  unfold pendingOf
  rw [← Finset.add_sum_erase A _ ha, ← Finset.add_sum_erase A _ ha, hrest, hself]
  omega

/-- A change that keeps the pending bytes of a state keeps them everywhere. -/
theorem pendingOf_modify_same {A : Finset ℕ} {a : ℕ} {f : SessionDictState δ → SessionDictState δ}
    (h : (f (s.states a)).pendingCorpusBytes = (s.states a).pendingCorpusBytes) :
    (s.modify a f).pendingOf A = s.pendingOf A := by
  refine Finset.sum_congr rfl fun b _ => ?_
  rw [states_modify]
  split_ifs with hb
  · rw [h, hb]
  · rfl

theorem pendingOf_allocate {A : Finset ℕ} {sessionId : SessionId} {now : ℕ}
    (h : (s.states s.allocated).pendingCorpusBytes = 0) :
    (s.allocate sessionId now).pendingOf A = s.pendingOf A :=
  pendingOf_modify_same (f := fun _ => .new now) h.symm

theorem pendingOf_insert {A : Finset ℕ} {a : ℕ} (h : (s.states a).pendingCorpusBytes = 0) :
    s.pendingOf (insert a A) = s.pendingOf A := by
  by_cases ha : a ∈ A
  · rw [Finset.insert_eq_of_mem ha]
  · rw [pendingOf, Finset.sum_insert ha, h, Nat.zero_add]
    rfl

end Bytes

section Steps

variable {A : Finset ℕ}

/-- A step moves bytes and loses none, unless it is a sweep's store. -/
theorem Call.Step.bytes (h : Call.Step s c s' c') (hstore : ∀ liveTotal, c ≠ .store liveTotal)
    (hA : ∀ a, c.pointer = some a → a ∈ A)
    (hnew : (s.states s.allocated).pendingCorpusBytes = 0)
    (hle : c.bytes ≤ s.corpusBytesInFlight) :
    s'.pendingOf A + c'.bytes + s.corpusBytesInFlight =
      s.pendingOf A + c.bytes + s'.corpusBytesInFlight := by
  cases h with
  | @created sessionId use now hnone =>
    rw [pendingOf_allocate hnew]
    rfl
  | touchTrain | touchRegister | acquire | push | below | take | permit | finish | abandon | set =>
    rw [pendingOf_modify_same rfl]
    rfl
  | @reserve a sample hlen hsize =>
    change s.pendingOf A + (0 + sample.length) + s.corpusBytesInFlight =
      s.pendingOf A + 0 + (s.corpusBytesInFlight + sample.length)
    omega
  | @accept a globalReserved sample hbudget =>
    have hmoved := pendingOf_modify (s := s) (hA a rfl) fun st =>
      { st with pendingCorpusBytes := st.pendingCorpusBytes + sample.length }
    change pendingOf (s.modify a _) A + 0 + s.corpusBytesInFlight =
      s.pendingOf A + (0 + sample.length) + s.corpusBytesInFlight
    simp only at hmoved
    omega
  | @refuse a globalReserved sample hbudget => rfl
  | @swap a hlen =>
    have hmoved := pendingOf_modify (s := s) (hA a rfl) fun st => { st with pendingCorpusBytes := 0 }
    change pendingOf (s.modify a _) A + ((s.states a).pendingCorpusBytes + 0) +
      s.corpusBytesInFlight = s.pendingOf A + 0 + s.corpusBytesInFlight
    simp only at hmoved
    omega
  | @undo a amount counter r r' hrel =>
    have hleft := hrel.left ((Nat.le_add_left _ _).trans hle)
    change s.pendingOf A + (0 + r'.left amount) + s.corpusBytesInFlight =
      s.pendingOf A + (0 + r.left amount) + counter
    omega
  | @release reservedBytes counter r r' hrel =>
    have hleft := hrel.left ((Nat.le_add_right _ _).trans hle)
    change s.pendingOf A + (r'.left reservedBytes + 0) + s.corpusBytesInFlight =
      s.pendingOf A + (r.left reservedBytes + 0) + counter
    omega
  | @store liveTotal => exact absurd rfl (hstore liveTotal)
  | found | reject | trained | untrained | cancelLock | skip | undone | ready | cancelWait
    | released | setIgnored | sweep | keep | evict | retained | add | summed => rfl

/-- What a step adds to the bytes that are pending, guarded or admitted fits the budget next to
the counter. -/
theorem Call.Step.firm (h : Call.Step s c s' c') (hA : ∀ a, c.pointer = some a → a ∈ A)
    (hnew : (s.states s.allocated).pendingCorpusBytes = 0) :
    s'.pendingOf A + c'.firmBytes ≤ s.pendingOf A + c.firmBytes ∨ ∃ n,
      s'.pendingOf A + c'.firmBytes = s.pendingOf A + c.firmBytes + n ∧
        s.corpusBytesInFlight + n ≤ totalCorpusByteBudget := by
  cases h with
  | @created sessionId use now hnone =>
    rw [pendingOf_allocate hnew]
    exact Or.inl le_rfl
  | touchTrain | touchRegister | acquire | push | below | take | permit | finish | abandon | set =>
    rw [pendingOf_modify_same rfl]
    exact Or.inl le_rfl
  | @reserve a sample hlen hsize =>
    rw [Call.firmBytes, Call.admittedBytes]
    split_ifs with hbudget
    · exact Or.inr ⟨sample.length, (Nat.add_assoc _ _ _).symm, hbudget⟩
    · exact Or.inl le_rfl
  | @accept a globalReserved sample hbudget =>
    have hmoved := pendingOf_modify (s := s) (hA a rfl) fun st =>
      { st with pendingCorpusBytes := st.pendingCorpusBytes + sample.length }
    refine Or.inl (Nat.le_of_eq ?_)
    rw [Call.firmBytes, Call.firmBytes, Call.admittedBytes, if_pos hbudget]
    change pendingOf (s.modify a _) A + 0 = s.pendingOf A + (0 + sample.length)
    simp only at hmoved
    omega
  | @refuse a globalReserved sample hbudget => exact Or.inl (Nat.add_le_add_left (Nat.zero_le _) _)
  | @swap a hlen =>
    have hmoved := pendingOf_modify (s := s) (hA a rfl) fun st => { st with pendingCorpusBytes := 0 }
    refine Or.inl (Nat.le_of_eq ?_)
    change pendingOf (s.modify a _) A + ((s.states a).pendingCorpusBytes + 0) = s.pendingOf A + 0
    simp only at hmoved
    omega
  | @release reservedBytes counter r r' hrel =>
    refine Or.inl (Nat.add_le_add_left (Nat.add_le_add_right ?_ 0) _)
    cases hrel with
    | nothing | exchange => exact Nat.zero_le _
    | load | retry => exact le_rfl
  | found | reject | trained | untrained | cancelLock | skip | undo | undone | ready | cancelWait
    | released | setIgnored | sweep | keep | evict | retained | add | summed | store =>
    exact Or.inl le_rfl

end Steps

section Pointers

/-- Every tracked state is allocated, each is tracked once, and nothing is pending beyond them. -/
structure Sound (s : InMemoryDictionaryStore δ) : Prop where
  nodup : s.sessions.values.Nodup
  tracked : ∀ a ∈ s.sessions.values, a < s.allocated
  fresh : ∀ a, s.allocated ≤ a → (s.states a).pendingCorpusBytes = 0

/-- The call's pointer is to an allocated state. -/
def Call.Valid (s : InMemoryDictionaryStore δ) (c : Call δ) : Prop :=
  ∀ a, c.pointer = some a → a < s.allocated

theorem Call.Step.allocated_le (h : Call.Step s c s' c') : s.allocated ≤ s'.allocated := by
  cases h with
  | created => exact Nat.le_succ _
  | _ => exact le_rfl

theorem values_erase_sublist (m : AssocMap SessionId ℕ) (sessionId : SessionId) :
    (m.erase sessionId).values.Sublist m.values :=
  List.filter_sublist.map Prod.snd

/-- A state gets tracked when it is allocated. -/
theorem Call.Step.values (h : Call.Step s c s' c') : s'.sessions.values.Sublist s.sessions.values ∨
    s'.sessions.values = s.sessions.values ++ [s.allocated] ∧ s'.allocated = s.allocated + 1 := by
  cases h with
  | created hnone => exact Or.inr ⟨AssocMap.values_insert_of_none hnone _, rfl⟩
  | evict => exact Or.inl (values_erase_sublist _ _)
  | _ => exact Or.inl (List.Sublist.refl _)

/-- A call gets its pointer from the map, or from the state it allocates. -/
theorem Call.Step.pointer (h : Call.Step s c s' c') {a : ℕ} (ha : c'.pointer = some a) :
    c.pointer = some a ∨ a ∈ s.sessions.values ∨ a = s.allocated ∧ a < s'.allocated := by
  cases h with
  | found hfound =>
    cases ha
    exact Or.inr (Or.inl (AssocMap.mem_values_of_get? hfound))
  | created hnone =>
    cases ha
    exact Or.inr (Or.inr ⟨rfl, Nat.lt_succ_self _⟩)
  | touchTrain | touchRegister | untrained | acquire | reserve | skip | accept | refuse | push | undo
    | undone | swap | take | permit => exact Or.inl ha
  | reject | trained | cancelLock | below | ready | cancelWait | finish | abandon | release | released
    | set | setIgnored | sweep | keep | evict | retained | add | summed | store => cases ha

/-- Nothing becomes pending beyond the states allocated before the step. -/
theorem Call.Step.fresh (h : Call.Step s c s' c') (hs : s.Sound) (hc : c.Valid s) {b : ℕ}
    (hb : s.allocated ≤ b) : (s'.states b).pendingCorpusBytes = 0 := by
  have hmodify : ∀ a f, c.pointer = some a →
      ((s.modify a f).states b).pendingCorpusBytes = 0 := by
    intro a f ha
    have hne : b ≠ a := (hb.trans_lt' (hc a ha)).ne'
    rw [states_modify, if_neg hne]
    exact hs.fresh b hb
  cases h with
  | created =>
    rw [states_allocate]
    split_ifs
    · rfl
    · exact hs.fresh b hb
  | touchTrain | touchRegister | acquire | accept | push | below | swap | take | permit | finish
    | abandon | set => exact hmodify _ _ rfl
  | found | reject | trained | untrained | cancelLock | reserve | skip | refuse | undo | undone | ready
    | cancelWait | release | released | setIgnored | sweep | keep | evict | retained | add | summed
    | store => exact hs.fresh b hb

theorem Call.Step.own (hs : s.Sound) (hc : c.Valid s) (h : Call.Step s c s' c') :
    s'.Sound ∧ c'.Valid s' := by
  have hle := h.allocated_le
  refine ⟨⟨?_, fun a ha => ?_, fun b hb => h.fresh hs hc (hle.trans hb)⟩, fun a ha => ?_⟩
  · rcases h.values with hsub | ⟨hvalues, -⟩
    · exact hs.nodup.sublist hsub
    · rw [hvalues, List.nodup_append_comm, List.singleton_append, List.nodup_cons]
      exact ⟨fun hmem => Nat.lt_irrefl _ (hs.tracked _ hmem), hs.nodup⟩
  · rcases h.values with hsub | ⟨hvalues, halloc⟩
    · exact (hs.tracked a (hsub.subset ha)).trans_le hle
    · rw [hvalues] at ha
      rcases List.mem_append.mp ha with ha | ha
      · exact (hs.tracked a ha).trans_le hle
      · rw [List.mem_singleton.mp ha, halloc]
        exact Nat.lt_succ_self _
  · rcases h.pointer ha with ha | ha | ⟨-, ha⟩
    · exact (hc a ha).trans_le hle
    · exact (hs.tracked a ha).trans_le hle
    · exact ha

theorem outline : Pool.Outline (Call.UsesOrSweeps (δ := δ)) Call.Step Sound Call.Valid
    fun _ _ => True where
  symm := id
  begins := by
    rintro s _ - (⟨sessionId, use, rfl⟩ | ⟨ttlMillis, rfl⟩) a ha <;> cases ha
  begins_apart := fun _ _ => trivial
  own := Call.Step.own
  other := fun _ _ hu _ h => ⟨fun a ha => (hu a ha).trans_le h.allocated_le, trivial⟩

theorem sound_new : (new : InMemoryDictionaryStore δ).Sound :=
  ⟨List.nodup_nil, by simp [new, AssocMap.values, AssocMap.empty], fun _ _ => rfl⟩

theorem trackedBytes_eq (hs : s.Sound) :
    s.trackedBytes = s.pendingOf s.sessions.values.toFinset :=
  (List.sum_toFinset _ hs.nodup).symm

end Pointers

section Collecting

/-- A step that initializes no dictionary, and adds samples only where there is none. -/
def CollectingStep (s : InMemoryDictionaryStore δ) (c : Call δ) (s' : InMemoryDictionaryStore δ)
    (c' : Call δ) : Prop :=
  Call.Step s c s' c' ∧ ∀ a, (s'.states a).dict = (s.states a).dict ∧
    ((s'.states a).corpus = (s.states a).corpus ∨ (s.states a).dict = .empty)

theorem reaches_plain {p q : Calls δ} (h : ReflTransGen (Pool.Step Call.Uses CollectingStep) p q) :
    ReflTransGen (Pool.Step Call.Uses Call.Step) p q :=
  h.lift id fun _ _ hstep => Pool.Step.mono (fun _ => id) And.left hstep

/-- The store with more samples in a session's corpus. -/
def collected (s : InMemoryDictionaryStore δ) (a : ℕ) (samples : List (List UInt8)) :
    InMemoryDictionaryStore δ :=
  { s.modify a (fun st => { st with
      corpus := st.corpus ++ samples
      pendingCorpusBytes := st.pendingCorpusBytes + (samples.map List.length).sum }) with
    corpusBytesInFlight := s.corpusBytesInFlight + (samples.map List.length).sum }

theorem modify_modify (a : ℕ) (f g : SessionDictState δ → SessionDictState δ) :
    (s.modify a f).modify a g = s.modify a (g ∘ f) := by
  simp [modify]

theorem modify_of_eq {a : ℕ} {f : SessionDictState δ → SessionDictState δ}
    (h : f (s.states a) = s.states a) : s.modify a f = s := by
  rw [modify, h, Function.update_eq_self]

@[simp] theorem states_collected_self (a : ℕ) (samples : List (List UInt8)) :
    (s.collected a samples).states a = { s.states a with
      corpus := (s.states a).corpus ++ samples
      pendingCorpusBytes := (s.states a).pendingCorpusBytes + (samples.map List.length).sum } := by
  simp [collected, modify]

theorem collected_collected (a : ℕ) (samples samples' : List (List UInt8)) :
    (s.collected a samples).collected a samples' = s.collected a (samples ++ samples') := by
  simp [collected, modify, Nat.add_assoc]

theorem collects_modify {a : ℕ} {f : SessionDictState δ → SessionDictState δ}
    (hdict : (f (s.states a)).dict = (s.states a).dict)
    (hcorpus : (f (s.states a)).corpus = (s.states a).corpus ∨ (s.states a).dict = .empty) (b : ℕ) :
    ((s.modify a f).states b).dict = (s.states b).dict ∧
      (((s.modify a f).states b).corpus = (s.states b).corpus ∨ (s.states b).dict = .empty) := by
  rw [states_modify]
  split_ifs with hb
  · rw [hb]
    exact ⟨hdict, hcorpus⟩
  · exact ⟨rfl, Or.inl rfl⟩

variable {calls : List (Call δ)} {a : ℕ} {sessionId : SessionId} {sample : List UInt8}

/-- A call finds the state of its session. -/
theorem reaches_touch (sessionId : SessionId) (use : Use δ)
    (hfound : s.sessions.get? sessionId = some a) :
    ReflTransGen (Pool.Step Call.Uses CollectingStep) ⟨s, calls⟩ ⟨s, calls ++ [.touch a use]⟩ := by
  have h₁ : Pool.Step Call.Uses CollectingStep ⟨s, calls⟩ ⟨s, calls ++ [.session sessionId use]⟩ :=
    .start ⟨_, _, rfl⟩
  have h₂ : Pool.Step Call.Uses CollectingStep ⟨s, calls ++ [.session sessionId use]⟩
      ⟨s, calls ++ [.touch a use]⟩ := .step ⟨.found hfound, fun b => ⟨rfl, Or.inl rfl⟩⟩
  exact (ReflTransGen.single h₁).tail h₂

/-- The first call of a session makes its state. -/
theorem reaches_allocated (sessionId : SessionId) (use : Use δ)
    (hfresh : s.states s.allocated = .new 0) (hnone : s.sessions.get? sessionId = none) :
    ReflTransGen (Pool.Step Call.Uses CollectingStep) ⟨s, calls⟩
      ⟨s.allocate sessionId 0, calls ++ [.touch s.allocated use]⟩ := by
  have h₁ : Pool.Step Call.Uses CollectingStep ⟨s, calls⟩ ⟨s, calls ++ [.session sessionId use]⟩ :=
    .start ⟨_, _, rfl⟩
  have h₂ : Pool.Step Call.Uses CollectingStep ⟨s, calls ++ [.session sessionId use]⟩
      ⟨s.allocate sessionId 0, calls ++ [.touch s.allocated use]⟩ := by
    refine .step ⟨.created hnone, fun b => ?_⟩
    rw [states_allocate]
    split_ifs with hb
    · rw [hb, hfresh]
      exact ⟨rfl, Or.inl rfl⟩
    · exact ⟨rfl, Or.inl rfl⟩
  exact (ReflTransGen.single h₁).tail h₂

variable (hfree : (s.states a).locked = false) (hdict : (s.states a).dict = .empty)
include hfree hdict

/-- A call gets the mutex of an untrained session and reserves the bytes of its sample. -/
theorem reaches_reserved (hroom : (s.states a).corpus.length < nTrain)
    (hsize : sample.length ≤ maxTrainingSampleSize) :
    ReflTransGen (Pool.Step Call.Uses CollectingStep) ⟨s, calls ++ [.touch a (.train sample)]⟩
      ⟨{ s.modify a (fun st => { st with locked := true }) with
          corpusBytesInFlight := s.corpusBytesInFlight + sample.length },
        calls ++ [.reserved a sample (s.corpusBytesInFlight + sample.length)]⟩ := by
  let s₁ := s.modify a fun st => { st with locked := true }
  have hsame : s.modify a (fun st => { st with lastAccess := (s.states a).lastAccess }) = s :=
    modify_of_eq rfl
  have h₁ : Pool.Step Call.Uses CollectingStep ⟨s, calls ++ [.touch a (.train sample)]⟩
      ⟨s, calls ++ [.check a sample]⟩ := by
    conv_rhs => rw [← hsame]
    exact .step ⟨.touchTrain, collects_modify rfl (Or.inl rfl)⟩
  have h₂ : Pool.Step Call.Uses CollectingStep ⟨s, calls ++ [.check a sample]⟩
      ⟨s, calls ++ [.lock a sample]⟩ := by
    refine .step ⟨.untrained fun dict hinit => ?_, fun b => ⟨rfl, Or.inl rfl⟩⟩
    rw [hdict] at hinit
    cases hinit
  have h₃ : Pool.Step Call.Uses CollectingStep ⟨s, calls ++ [.lock a sample]⟩
      ⟨s₁, calls ++ [.locked a sample]⟩ :=
    .step ⟨.acquire hfree, collects_modify rfl (Or.inl rfl)⟩
  have h₄ : Pool.Step Call.Uses CollectingStep ⟨s₁, calls ++ [.locked a sample]⟩ ⟨{ s₁ with
      corpusBytesInFlight := s₁.corpusBytesInFlight + sample.length },
      calls ++ [.reserved a sample (s₁.corpusBytesInFlight + sample.length)]⟩ := by
    refine .step ⟨.reserve ?_ hsize, fun b => ⟨rfl, Or.inl rfl⟩⟩
    rw [states_modify_self]
    exact hroom
  exact (((ReflTransGen.single h₁).tail h₂).tail h₃).tail h₄

/-- A call collects its sample, and holds the mutex. -/
theorem reaches_full (hroom : (s.states a).corpus.length < nTrain)
    (hsize : sample.length ≤ maxTrainingSampleSize)
    (hbudget : s.corpusBytesInFlight + sample.length ≤ totalCorpusByteBudget) :
    ReflTransGen (Pool.Step Call.Uses CollectingStep) ⟨s, calls ++ [.touch a (.train sample)]⟩
      ⟨(s.collected a [sample]).modify a fun st => { st with locked := true },
        calls ++ [.full a]⟩ := by
  refine (reaches_reserved hfree hdict hroom hsize).trans ?_
  set s₁ : InMemoryDictionaryStore δ :=
    { s.modify a (fun st => { st with locked := true }) with
      corpusBytesInFlight := s.corpusBytesInFlight + sample.length } with hs₁
  let s₂ := s₁.modify a fun st =>
    { st with pendingCorpusBytes := st.pendingCorpusBytes + sample.length }
  let s₃ := s₂.modify a fun st => { st with corpus := st.corpus ++ [sample] }
  have hdict₁ : (s₂.states a).dict = .empty := by simp [s₂, s₁, hdict]
  have h₁ : Pool.Step Call.Uses CollectingStep
      ⟨s₁, calls ++ [.reserved a sample (s.corpusBytesInFlight + sample.length)]⟩
      ⟨s₂, calls ++ [.push a sample]⟩ :=
    .step ⟨.accept hbudget, collects_modify rfl (Or.inl rfl)⟩
  have h₂ : Pool.Step Call.Uses CollectingStep ⟨s₂, calls ++ [.push a sample]⟩
      ⟨s₃, calls ++ [.full a]⟩ :=
    .step ⟨.push, collects_modify rfl (Or.inr hdict₁)⟩
  have heq : s₃ = (s.collected a [sample]).modify a fun st => { st with locked := true } := by
    simp [s₃, s₂, s₁, collected, modify]
  rw [← heq]
  exact (ReflTransGen.single h₁).tail h₂

/-- While the corpus stays incomplete, a call collects its sample and returns. -/
theorem reaches_pushed (hroom : (s.states a).corpus.length + 1 < nTrain)
    (hsize : sample.length ≤ maxTrainingSampleSize)
    (hbudget : s.corpusBytesInFlight + sample.length ≤ totalCorpusByteBudget) :
    ReflTransGen (Pool.Step Call.Uses CollectingStep) ⟨s, calls ++ [.touch a (.train sample)]⟩
      ⟨s.collected a [sample], calls ++ [.returned]⟩ := by
  have hfull := @reaches_full δ s calls a sample hfree hdict (by omega) hsize hbudget
  have hsame : s.collected a [sample] = ((s.collected a [sample]).modify a
      fun st => { st with locked := true }).modify a fun st => { st with locked := false } := by
    rw [modify_modify, modify_of_eq]
    simp [hfree]
  have hbelow : Pool.Step Call.Uses CollectingStep
      ⟨(s.collected a [sample]).modify a (fun st => { st with locked := true }),
        calls ++ [.full a]⟩ ⟨s.collected a [sample], calls ++ [.returned]⟩ := by
    conv_rhs => rw [hsame]
    refine .step ⟨.below ?_, collects_modify rfl (Or.inl rfl)⟩
    simpa using hroom
  exact hfull.tail hbelow

/-- Call after call, a session collects samples. -/
theorem reaches_collected (samples : List (List UInt8))
    (hfound : s.sessions.get? sessionId = some a)
    (hroom : (s.states a).corpus.length + samples.length < nTrain)
    (hsize : ∀ sample ∈ samples, sample.length ≤ maxTrainingSampleSize)
    (hbudget : s.corpusBytesInFlight + (samples.map List.length).sum ≤ totalCorpusByteBudget) :
    ReflTransGen (Pool.Step Call.Uses CollectingStep) ⟨s, calls⟩
      ⟨s.collected a samples, calls ++ samples.map fun _ => .returned⟩ := by
  induction samples generalizing s calls with
  | nil =>
    have hsame : s.collected a [] = s := by simp [collected, modify]
    rw [hsame, List.map_nil, List.append_nil]
  | cons sample samples ih =>
    rw [List.length_cons] at hroom
    rw [List.map_cons, List.sum_cons] at hbudget
    rw [List.forall_mem_cons] at hsize
    have hfirst := @reaches_pushed δ s calls a sample hfree hdict (by omega) hsize.1 (by omega)
    have hrest := @ih (s.collected a [sample]) (calls ++ [.returned])
      (by simpa using hfree) (by simpa using hdict) hfound
      (by simp only [states_collected_self, List.length_append, List.length_singleton]; omega)
      hsize.2 (by simp only [collected, List.map_singleton, List.sum_singleton]; omega)
    rw [collected_collected, List.append_assoc] at hrest
    exact ((reaches_touch sessionId (.train sample) hfound).trans hfirst).trans hrest

omit hdict in
/-- A call that finds the corpus complete takes it, and the bytes that are pending go to its
reservation guard. -/
theorem reaches_wait (samples : List (List UInt8)) (hdict : (s.states a).dict = .empty)
    (hlen : nTrain ≤ ((s.states a).corpus ++ samples).length) :
    ReflTransGen (Pool.Step Call.Uses CollectingStep)
      ⟨(s.collected a samples).modify a (fun st => { st with locked := true }), calls ++ [.full a]⟩
      ⟨{ s.modify a (fun st => { st with corpus := [], pendingCorpusBytes := 0 }) with
          corpusBytesInFlight := s.corpusBytesInFlight + (samples.map List.length).sum },
        calls ++ [.wait a ((s.states a).pendingCorpusBytes + (samples.map List.length).sum)
          ((s.states a).corpus ++ samples)]⟩ := by
  set s₁ := (s.collected a samples).modify a fun st => { st with locked := true } with hs₁
  let s₂ := s₁.modify a fun st => { st with pendingCorpusBytes := 0 }
  let s₃ := s₂.modify a fun st => { st with corpus := [], locked := false }
  have hstate : s₁.states a = { s.states a with
      corpus := (s.states a).corpus ++ samples
      pendingCorpusBytes := (s.states a).pendingCorpusBytes + (samples.map List.length).sum
      locked := true } := by simp [hs₁]
  have hstate₂ : s₂.states a = { s₁.states a with pendingCorpusBytes := 0 } :=
    states_modify_self _ _ _
  have h₁ : Pool.Step Call.Uses CollectingStep ⟨s₁, calls ++ [.full a]⟩
      ⟨s₂, calls ++ [.take a (s₁.states a).pendingCorpusBytes]⟩ := by
    refine .step ⟨.swap ?_, collects_modify rfl (Or.inl rfl)⟩
    rw [hstate]
    exact hlen
  have h₂ : Pool.Step Call.Uses CollectingStep
      ⟨s₂, calls ++ [.take a (s₁.states a).pendingCorpusBytes]⟩
      ⟨s₃, calls ++ [.wait a (s₁.states a).pendingCorpusBytes (s₂.states a).corpus]⟩ := by
    refine .step ⟨.take, collects_modify rfl (Or.inr ?_)⟩
    rw [hstate₂, hstate]
    exact hdict
  have hfinal : s₃ = { s.modify a (fun st => { st with corpus := [], pendingCorpusBytes := 0 }) with
      corpusBytesInFlight := s.corpusBytesInFlight + (samples.map List.length).sum } := by
    simp [s₃, s₂, hs₁, collected, modify, hfree]
  rw [hstate₂, hstate, hfinal] at h₂
  rw [hstate] at h₁
  exact (ReflTransGen.single h₁).tail h₂

omit hfree hdict

/-- A session that is new to the store collects a whole corpus, and the last call takes it. -/
theorem reaches_corpus (sessionId : SessionId) (first last : List UInt8)
    (samples : List (List UInt8)) (hfresh : s.states s.allocated = .new 0)
    (hnone : s.sessions.get? sessionId = none) (hlen : samples.length + 2 = nTrain)
    (hsize : ∀ sample ∈ first :: (samples ++ [last]), sample.length ≤ maxTrainingSampleSize)
    (hbudget : s.corpusBytesInFlight + ((first :: (samples ++ [last])).map List.length).sum ≤
      totalCorpusByteBudget) :
    ReflTransGen (Pool.Step Call.Uses CollectingStep) ⟨s, calls⟩
      ⟨{ s.allocate sessionId 0 with corpusBytesInFlight :=
          s.corpusBytesInFlight + ((first :: (samples ++ [last])).map List.length).sum },
        calls ++ [.returned] ++ (samples.map fun _ => .returned) ++
          [.wait s.allocated ((first :: (samples ++ [last])).map List.length).sum
            (first :: (samples ++ [last]))]⟩ := by
  set s₁ := s.allocate sessionId 0 with hs₁
  have hstate : s₁.states s.allocated = .new 0 := by simp [hs₁, states_allocate]
  have hfound : s₁.sessions.get? sessionId = some s.allocated := AssocMap.get?_insert_self _ _ _
  have hcollected : ∀ more, (s₁.collected s.allocated more).states s.allocated =
      ⟨more, false, .empty, 0, (more.map List.length).sum⟩ := fun more => by
    rw [states_collected_self, hstate]
    simp [SessionDictState.new]
  have hcounter : ∀ more, (s₁.collected s.allocated more).corpusBytesInFlight =
      s.corpusBytesInFlight + (more.map List.length).sum := fun more => rfl
  rw [List.map_cons, List.map_append, List.sum_cons, List.sum_append, List.map_singleton,
    List.sum_singleton] at hbudget
  set s₂ := s₁.collected s.allocated ([first] ++ samples) with hs₂
  let calls₂ := calls ++ [.returned] ++ samples.map fun _ => .returned
  have hfirst : ReflTransGen (Pool.Step Call.Uses CollectingStep) ⟨s, calls⟩
      ⟨s₁.collected s.allocated [first], calls ++ [.returned]⟩ := by
    refine (reaches_allocated sessionId (.train first) hfresh hnone).trans
      (reaches_pushed (by rw [hstate]; rfl) (by rw [hstate]; rfl) ?_ (hsize first (by simp)) ?_)
    · rw [hstate]
      exact Nat.lt_of_sub_eq_succ rfl
    · change s.corpusBytesInFlight + _ ≤ _
      omega
  have hmiddle : ReflTransGen (Pool.Step Call.Uses CollectingStep)
      ⟨s₁.collected s.allocated [first], calls ++ [.returned]⟩ ⟨s₂, calls₂⟩ := by
    rw [hs₂, ← collected_collected]
    refine reaches_collected (by rw [hcollected]) (by rw [hcollected]) samples hfound ?_
      (fun sample hsample => hsize sample (by simp [hsample])) ?_
    · rw [hcollected, List.length_singleton]
      omega
    · rw [hcounter, List.map_singleton, List.sum_singleton]
      omega
  have hlast : ReflTransGen (Pool.Step Call.Uses CollectingStep) ⟨s₂, calls₂⟩
      ⟨(s₂.collected s.allocated [last]).modify s.allocated fun st => { st with locked := true },
        calls₂ ++ [.full s.allocated]⟩ := by
    refine (@reaches_touch δ s₂ calls₂ s.allocated sessionId (.train last) hfound).trans
      (reaches_full (by rw [hcollected]) (by rw [hcollected]) ?_ (hsize last (by simp)) ?_)
    · rw [hcollected, List.length_append, List.length_singleton]
      omega
    · rw [hcounter, List.map_append, List.sum_append, List.map_singleton, List.sum_singleton]
      omega
  have hwait := @reaches_wait δ s₂ calls₂ s.allocated (by rw [hcollected]) [last]
    (by rw [hcollected]) (by
      rw [hcollected, List.length_append, List.length_append, List.length_singleton,
        List.length_singleton]
      omega)
  have hrun := ((hfirst.trans hmiddle).trans hlast).trans hwait
  rw [hcollected, hcounter] at hrun
  have hsamples : [first] ++ samples ++ [last] = first :: (samples ++ [last]) := rfl
  have hsum : (([first] ++ samples).map List.length).sum + ([last].map List.length).sum =
      ((first :: (samples ++ [last])).map List.length).sum := by
    rw [← hsamples, ← List.sum_append, ← List.map_append]
  have hempty : (s₂.modify s.allocated fun st =>
      { st with corpus := [], pendingCorpusBytes := 0 }).states = s₁.states := by
    rw [modify, hcollected]
    change Function.update (Function.update s₁.states s.allocated _) s.allocated _ = s₁.states
    rw [Function.update_idem, ← SessionDictState.new, ← hstate, Function.update_eq_self]
  have hstore := congrArg (fun states => ({ s₁ with
    states := states
    corpusBytesInFlight := s.corpusBytesInFlight +
      ((first :: (samples ++ [last])).map List.length).sum } : InMemoryDictionaryStore δ)) hempty
  rw [Nat.add_assoc, hsum, hsamples] at hrun
  exact hstore ▸ hrun

/-- The samples of one session, a byte each. -/
def oneCorpus : List (List UInt8) := [1] :: (List.replicate 30 [1] ++ [[1]])

/-- The store when the bytes of the corpus are with the call that has taken it. -/
def oneTaken : InMemoryDictionaryStore Unit :=
  { new.allocate ⟨7⟩ 0 with corpusBytesInFlight := 32 }

/-- The calls that have collected the other samples. -/
def oneServed : List (Call Unit) := List.replicate 31 .returned

theorem reaches_oneCorpus : ReflTransGen (Pool.Step Call.Uses CollectingStep) Calls.new
    ⟨oneTaken, oneServed ++ [.wait 0 32 oneCorpus]⟩ :=
  reaches_corpus ⟨7⟩ [1] [1] (List.replicate 30 [1]) rfl rfl rfl (by decide) (by decide)

end Collecting

section Reservations

namespace Call

/-- The undecided bytes that a call is about to take back. -/
def refusedBytes : Call δ → ℕ
  | .reserved _ sample globalReserved =>
    if globalReserved ≤ totalCorpusByteBudget then 0 else sample.length
  | .undo _ amount r => r.left amount
  | _ => 0

theorem bytes_eq (c : Call δ) : c.bytes = c.firmBytes + c.refusedBytes := by
  cases c with
  | reserved a sample globalReserved =>
    rw [bytes, firmBytes, undecidedBytes, admittedBytes, refusedBytes]
    split_ifs <;> simp
  | undo a amount r => simp [bytes, firmBytes, undecidedBytes, admittedBytes, refusedBytes]
  | _ => rfl

/-- A call whose session's state is tracked, and no sweep. -/
def Tracked (s : InMemoryDictionaryStore δ) (c : Call δ) : Prop :=
  (∀ a, c.pointer = some a → a ∈ s.sessions.values) ∧
    match c with
    | .sweep _ | .retain _ _ _ _ | .sum _ _ _ | .store _ => False
    | _ => True

theorem Step.values_of_tracked (hc : c.Tracked s) (h : Call.Step s c s' c') :
    s'.sessions.values = s.sessions.values ∨
      s'.sessions.values = s.sessions.values ++ [s.allocated] := by
  cases h with
  | created hnone => exact Or.inr (AssocMap.values_insert_of_none hnone _)
  | evict => exact hc.2.elim
  | _ => exact Or.inl rfl

theorem Step.tracked (hc : c.Tracked s) (h : Call.Step s c s' c') : c'.Tracked s' := by
  have hvalues : ∀ a ∈ s.sessions.values, a ∈ s'.sessions.values := by
    intro a ha
    rcases h.values_of_tracked hc with heq | heq <;> rw [heq]
    · exact ha
    · exact List.mem_append_left _ ha
  refine ⟨fun a ha => ?_, ?_⟩
  · rcases h.pointer ha with ha | ha | ⟨rfl, hlt⟩
    · exact hvalues a (hc.1 a ha)
    · exact hvalues a ha
    · rcases h.values with hsub | ⟨heq, -⟩
      · cases h with
        | created hnone =>
          change s.allocated ∈ (s.sessions.insert _ _).values
          rw [AssocMap.values_insert_of_none hnone]
          exact List.mem_append_right _ (List.mem_singleton_self _)
        | _ => exact absurd hlt (Nat.lt_irrefl _)
      · rw [heq]
        exact List.mem_append_right _ (List.mem_singleton_self _)
  · cases h with
    | sweep | keep | evict | retained | add | summed | store => exact hc.2.elim
    | _ => trivial

end Call

theorem usesOutline : Pool.Outline (Call.Uses (δ := δ)) Call.Step Sound Call.Tracked
    fun _ _ => True where
  symm := id
  begins := by
    rintro s _ - ⟨sessionId, use, rfl⟩
    exact ⟨fun a ha => (by cases ha), trivial⟩
  begins_apart := fun _ _ => trivial
  own := fun hs hc h => ⟨(h.own hs fun a ha => hs.tracked a (hc.1 a ha)).1, h.tracked hc⟩
  other := by
    rintro s t s' t' u hs ht hu - h
    refine ⟨⟨fun a ha => ?_, hu.2⟩, trivial⟩
    rcases h.values_of_tracked ht with heq | heq <;> rw [heq]
    · exact hu.1 a ha
    · exact List.mem_append_left _ (hu.1 a ha)

theorem sum_map_prod (f g : Call δ → ℕ) (calls : List (Call δ)) :
    (calls.map fun c => (f c, g c)).sum = ((calls.map f).sum, (calls.map g).sum) := by
  induction calls with
  | nil => rfl
  | cons c calls ih =>
    rw [List.map_cons, List.sum_cons, ih]
    rfl

/-- After a step that keeps the tracked states tracked, no more is pending with them. -/
theorem pendingOf_values (hs : s.Sound) (hc : c.Tracked s) (h : Call.Step s c s' c') :
    s'.pendingOf s'.sessions.values.toFinset = s'.pendingOf s.sessions.values.toFinset := by
  rcases h.values_of_tracked hc with heq | heq <;> rw [heq]
  have hfresh := h.fresh hs (fun a ha => hs.tracked a (hc.1 a ha)) le_rfl
  rw [List.toFinset_append, Finset.union_comm, List.toFinset_cons, List.toFinset_nil,
    insert_empty_eq, ← Finset.insert_eq]
  exact pendingOf_insert hfresh

/-- The counter is what is pending, firm and refused; what is pending and firm fits the budget. -/
theorem accounts {p : Calls δ} (h : ReflTransGen (Pool.Step Call.Uses Call.Step) Calls.new p) :
    p.shared.trackedBytes + (p.calls.map Call.firmBytes).sum +
        (p.calls.map Call.refusedBytes).sum = p.shared.corpusBytesInFlight ∧
      p.shared.trackedBytes + (p.calls.map Call.firmBytes).sum ≤ totalCorpusByteBudget := by
  let P (s : InMemoryDictionaryStore δ) (m : ℕ × ℕ) : Prop :=
    s.pendingOf s.sessions.values.toFinset + m.1 + m.2 = s.corpusBytesInFlight ∧
      s.pendingOf s.sessions.values.toFinset + m.1 ≤ totalCorpusByteBudget
  have hstep : ∀ s c s' c' (rest : ℕ × ℕ), s.Sound → c.Tracked s → Call.Step s c s' c' →
      P s ((c.firmBytes, c.refusedBytes) + rest) → P s' ((c'.firmBytes, c'.refusedBytes) + rest) := by
    rintro s c s' c' ⟨firm, refused⟩ hs hc h ⟨hcounter, hbudget⟩
    have hpointer : ∀ a, c.pointer = some a → a ∈ s.sessions.values.toFinset := fun a ha =>
      List.mem_toFinset.mpr (hc.1 a ha)
    have hnot : ∀ liveTotal, c ≠ .store liveTotal := by
      rintro liveTotal rfl
      exact hc.2
    have heq := c.bytes_eq
    have heq' := c'.bytes_eq
    change _ + (c.firmBytes + firm) + (c.refusedBytes + refused) = _ at hcounter
    change _ + (c.firmBytes + firm) ≤ _ at hbudget
    have hbytes := h.bytes hnot hpointer (hs.fresh _ le_rfl) (by omega)
    change _ + (c'.firmBytes + firm) + (c'.refusedBytes + refused) = _ ∧ _ + (c'.firmBytes + firm) ≤ _
    rw [pendingOf_values hs hc h]
    rcases h.firm hpointer (hs.fresh _ le_rfl) with hfirm | ⟨n, hfirm, hroom⟩ <;> omega
  have hstart : ∀ c : Call δ, c.Uses → (c.firmBytes, c.refusedBytes) = 0 := by
    rintro c ⟨sessionId, use, rfl⟩
    rfl
  have hinv : Pool.Holds Sound Call.Tracked (fun _ _ => True) p ∧
      P p.shared (p.calls.map fun c => (c.firmBytes, c.refusedBytes)).sum := by
    induction h with
    | refl => exact ⟨Pool.holds_nil sound_new, rfl, Nat.zero_le _⟩
    | tail _ h ih => exact ⟨usesOutline.step_holds ih.1 h, Pool.sum_step _ P hstart hstep ih.1 h ih.2⟩
  obtain ⟨hholds, hcounter, hbudget⟩ := hinv
  rw [sum_map_prod] at hcounter hbudget
  rw [trackedBytes_eq hholds.shared]
  exact ⟨hcounter, hbudget⟩

/-- Every byte of the counter is pending with a session, held by a reservation guard or with a call
that has not decided yet; the first two fit the budget. -/
theorem corpusBytes_accounted {p : Calls δ}
    (h : ReflTransGen (Pool.Step Call.Uses Call.Step) Calls.new p) :
    p.shared.corpusBytesInFlight = p.shared.trackedBytes + (p.calls.map Call.guardBytes).sum +
        (p.calls.map Call.undecidedBytes).sum ∧
      p.shared.trackedBytes + (p.calls.map Call.guardBytes).sum ≤ totalCorpusByteBudget := by
  obtain ⟨hcounter, hbudget⟩ := accounts h
  have hguard : (p.calls.map Call.guardBytes).sum ≤ (p.calls.map Call.firmBytes).sum :=
    List.sum_le_sum fun c _ => Nat.le_add_right _ _
  have hbytes : (p.calls.map Call.guardBytes).sum + (p.calls.map Call.undecidedBytes).sum =
      (p.calls.map Call.firmBytes).sum + (p.calls.map Call.refusedBytes).sum := by
    rw [← List.sum_map_add, ← List.sum_map_add]
    exact congrArg List.sum (List.map_congr_left fun c _ => c.bytes_eq)
  omega

/-- One session's training is under way and its guard holds the 32 bytes of its corpus, two bytes
are pending with another session, and a call there has not decided about five more. -/
theorem corpusBytes_accounted_overlapping : ∃ p : Calls Unit,
    ReflTransGen (Pool.Step Call.Uses Call.Step) Calls.new p ∧
      p.shared.trackedBytes = 2 ∧ (p.calls.map Call.guardBytes).sum = 32 ∧
        (p.calls.map Call.undecidedBytes).sum = 5 ∧ p.shared.corpusBytesInFlight = 39 := by
  let s₁ := oneTaken.modify 0 fun st => { st with dict := .initializing }
  let s₂ := (s₁.allocate ⟨8⟩ 0).collected 1 [[2, 2]]
  let s₃ : InMemoryDictionaryStore Unit :=
    { s₂.modify 1 (fun st => { st with locked := true }) with corpusBytesInFlight := 39 }
  let calls : List (Call Unit) := oneServed ++ [.training 0 32 oneCorpus]
  let calls' : List (Call Unit) := calls ++ [.returned] ++ [.reserved 1 [3, 3, 3, 3, 3] 39]
  have hpermit : Pool.Step Call.Uses Call.Step
      ⟨oneTaken, oneServed ++ [.wait 0 32 oneCorpus]⟩ ⟨s₁, calls⟩ := .step (.permit rfl)
  have hother : ReflTransGen (Pool.Step Call.Uses CollectingStep) ⟨s₁, calls⟩
      ⟨s₂, calls ++ [.returned]⟩ :=
    (reaches_allocated ⟨8⟩ (.train [2, 2]) rfl rfl).trans
      (reaches_pushed rfl rfl (by decide) (by decide) (by decide))
  have hreserved : ReflTransGen (Pool.Step Call.Uses CollectingStep)
      ⟨s₂, calls ++ [.returned]⟩ ⟨s₃, calls'⟩ :=
    (reaches_touch ⟨8⟩ (.train [3, 3, 3, 3, 3]) rfl).trans
      (reaches_reserved rfl rfl (by decide) (by decide))
  have hrun := ((reaches_plain reaches_oneCorpus).tail hpermit).trans
    (reaches_plain (hother.trans hreserved))
  have htracked : s₃.trackedBytes = 2 := rfl
  have hguard : (calls'.map Call.guardBytes).sum = 32 := by
    simp [calls', calls, oneServed, Call.guardBytes]
  have hundecided : (calls'.map Call.undecidedBytes).sum = 5 := by
    simp [calls', calls, oneServed, Call.undecidedBytes]
  refine ⟨_, hrun, htracked, hguard, hundecided, ?_⟩
  rw [(corpusBytes_accounted hrun).1, htracked, hguard, hundecided]

end Reservations

end PJS.InMemoryDictionaryStore
