import PJS.Training.Budget

/-! What a session's corpus holds once its dictionary is there. The corpus is emptied when it is
taken for the training; samples that are collected later, or that are there when a dictionary is
registered, stay. -/
namespace PJS

namespace SessionDictState

variable {δ : Type*}

def Trained (st : SessionDictState δ) : Prop := ∃ dict, st.dict = .initialized dict

def sampleBytes (st : SessionDictState δ) : ℕ := (st.corpus.map List.length).sum

/-- The corpus is not complete, and its bytes are what is pending. -/
def Settled (st : SessionDictState δ) : Prop :=
  st.corpus.length < nTrain ∧ st.pendingCorpusBytes = st.sampleBytes

/-- Nothing is half done while the mutex is free, and a trained session has no corpus, unless a
call is about to take it. -/
structure Good (st : SessionDictState δ) : Prop where
  settled : st.locked = false → st.Settled
  trained : st.Trained → st.corpus = [] ∨ st.corpus.length = nTrain

theorem good_new (nowMillis : ℕ) : (new nowMillis : SessionDictState δ).Good where
  settled := fun _ => ⟨Nat.zero_lt_succ _, rfl⟩
  trained := fun _ => Or.inl rfl

end SessionDictState

namespace InMemoryDictionaryStore

open Relation

variable {δ : Type*} {s s' : InMemoryDictionaryStore δ} {c c' d : Call δ}

section States

/-- A dictionary is initialized only while the corpus is empty or complete, and no sample is added
to the corpus of a trained session. -/
def Tidy (s s' : InMemoryDictionaryStore δ) : Prop :=
  ∀ a, (¬ (s.states a).Trained → (s'.states a).Trained →
      (s.states a).corpus = [] ∨ (s.states a).corpus.length = nTrain) ∧
    ((s.states a).corpus.length < (s'.states a).corpus.length → ¬ (s.states a).Trained)

def TidyStep (s : InMemoryDictionaryStore δ) (c : Call δ) (s' : InMemoryDictionaryStore δ)
    (c' : Call δ) : Prop :=
  Call.Step s c s' c' ∧ Tidy s s'

namespace Call

/-- The state whose mutex a call holds. -/
def holds : Call δ → Option ℕ
  | .locked a _ | .reserved a _ _ | .push a _ | .undo a _ _ | .full a | .take a _ => some a
  | _ => none

/-- A call of `train_if_ready` that has not returned. -/
def InProgress : Call δ → Prop
  | .session _ (.train _) | .touch _ (.train _) | .check _ _ | .lock _ _ | .locked _ _
  | .reserved _ _ _ | .push _ _ | .undo _ _ _ | .full _ | .take _ _ | .wait _ _ _
  | .training _ _ _ | .release _ _ => True
  | _ => False

/-- What the holder of a mutex has done to the corpus and its bytes. -/
def Owns (st : SessionDictState δ) : Call δ → Prop
  | .locked _ _ | .reserved _ _ _ | .undo _ _ _ => st.Settled
  | .push _ sample =>
    st.corpus.length < nTrain ∧ st.pendingCorpusBytes = st.sampleBytes + sample.length
  | .full _ => st.corpus.length ≤ nTrain ∧ st.pendingCorpusBytes = st.sampleBytes
  | .take _ _ => st.corpus.length = nTrain ∧ st.pendingCorpusBytes = 0
  | _ => True

structure Sound (s : InMemoryDictionaryStore δ) (c : Call δ) : Prop where
  valid : c.Valid s
  locked : ∀ a, c.holds = some a → (s.states a).locked = true ∧ c.Owns (s.states a)

def Apart (c d : Call δ) : Prop := ∀ a, c.holds = some a → d.holds ≠ some a

theorem pointer_of_holds {a : ℕ} (h : c.holds = some a) : c.pointer = some a := by
  cases c with
  | locked | reserved | push | undo | full | take => exact h
  | _ => cases h

end Call

end States

section Steps

/-- What a step keeps of a state whose mutex another call holds. -/
theorem Call.Step.keeps (h : Call.Step s c s' c') {b : ℕ} (hb : b < s.allocated)
    (hholds : c.holds ≠ some b) (hlocked : (s.states b).locked = true) :
    (s'.states b).corpus = (s.states b).corpus ∧ (s'.states b).locked = true ∧
      (s'.states b).pendingCorpusBytes = (s.states b).pendingCorpusBytes := by
  have hself : (s.states b).corpus = (s.states b).corpus ∧ (s.states b).locked = true ∧
      (s.states b).pendingCorpusBytes = (s.states b).pendingCorpusBytes := ⟨rfl, hlocked, rfl⟩
  have hother : ∀ a f, b ≠ a → ((s.modify a f).states b) = s.states b := fun a f hne => by
    rw [states_modify, if_neg hne]
  cases h with
  | created =>
    rw [states_allocate, if_neg hb.ne]
    exact hself
  | @touchTrain a | @touchRegister a | @permit a | @finish a | @abandon a | @set a =>
    rw [states_modify]
    split_ifs with heq
    · rw [heq] at hlocked ⊢
      exact ⟨rfl, hlocked, rfl⟩
    · exact hself
  | @acquire a sample hfree =>
    rw [hother a _ fun heq => by rw [heq, hfree] at hlocked; cases hlocked]
    exact hself
  | @accept a | @push a | @below a | @swap a | @take a =>
    rw [hother a _ fun heq => hholds (heq ▸ rfl)]
    exact hself
  | found | reject | trained | untrained | cancelLock | reserve | skip | refuse | undo | undone | ready
    | cancelWait | release | released | setIgnored | sweep | keep | evict | retained | add | summed
    | store => exact hself

theorem Call.Owns.congr {st st' : SessionDictState δ} (h : c.Owns st)
    (hcorpus : st'.corpus = st.corpus) (hpending : st'.pendingCorpusBytes = st.pendingCorpusBytes) :
    c.Owns st' := by
  cases c <;> simp_all [Call.Owns, SessionDictState.Settled, SessionDictState.sampleBytes]

/-- With no sample half way in, and the dictionary initialized only as it should be, a state stays
good. -/
theorem Call.Step.good (h : Call.Step s c s' c') (htidy : Tidy s s') (hc : c.Sound s)
    (hs : ∀ a, (s.states a).Good) (b : ℕ) : (s'.states b).Good := by
  have hmodify : ∀ a f, (b = a → (f (s.states a)).Good) → ((s.modify a f).states b).Good := by
    intro a f hgood
    rw [states_modify]
    split_ifs with hb
    · exact hgood hb
    · exact hs b
  have htrained : ∀ a dict, s'.states a = { s.states a with dict := .initialized dict } →
      (s'.states a).Good := by
    intro a dict heq
    rw [heq]
    refine ⟨(hs a).settled, fun _ => ?_⟩
    by_cases hbefore : (s.states a).Trained
    · exact (hs a).trained hbefore
    · exact (htidy a).1 hbefore ⟨dict, by rw [heq]⟩
  cases h with
  | created =>
    rw [states_allocate]
    split_ifs
    · exact SessionDictState.good_new _
    · exact hs b
  | @touchTrain a | @touchRegister a => exact hmodify _ _ fun _ => ⟨(hs a).settled, (hs a).trained⟩
  | @acquire a => exact hmodify _ _ fun _ => ⟨fun hfree => (by cases hfree), (hs a).trained⟩
  | @accept a | @swap a =>
    refine hmodify _ _ fun _ => ⟨fun hfree => ?_, (hs a).trained⟩
    rw [(hc.locked a rfl).1] at hfree
    cases hfree
  | @push a sample =>
    refine hmodify _ _ fun _ => ⟨fun hfree => ?_, fun htrained => absurd htrained ?_⟩
    · rw [(hc.locked a rfl).1] at hfree
      cases hfree
    · refine (htidy a).2 ?_
      rw [states_modify_self, List.length_append]
      exact Nat.lt_succ_self _
  | @below a hlen => exact hmodify _ _ fun _ =>
      ⟨fun _ => ⟨hlen, (hc.locked a rfl).2.2⟩, (hs a).trained⟩
  | @take a reservedBytes => exact hmodify _ _ fun _ =>
      ⟨fun _ => ⟨Nat.zero_lt_succ _, (hc.locked a rfl).2.2⟩, fun _ => Or.inl rfl⟩
  | @permit a | @abandon a =>
    refine hmodify _ _ fun _ => ⟨(hs a).settled, ?_⟩
    rintro ⟨dict, hdict⟩
    cases hdict
  | @finish a reservedBytes snapshot dict | @set a dict =>
    by_cases hb : b = a
    · rw [hb]
      exact htrained a dict (states_modify_self _ _ _)
    · rw [states_modify, if_neg hb]
      exact hs b
  | found | reject | trained | untrained | cancelLock | reserve | skip | refuse | undo | undone | ready
    | cancelWait | release | released | setIgnored | sweep | keep | evict | retained | add | summed
    | store => exact hs b

theorem sampleBytes_concat (st : SessionDictState δ) (sample : List UInt8) :
    SessionDictState.sampleBytes { st with corpus := st.corpus ++ [sample] } =
      st.sampleBytes + sample.length := by
  simp [SessionDictState.sampleBytes]

theorem Call.Step.owns (h : Call.Step s c s' c') (hc : c.Sound s) (hs : ∀ a, (s.states a).Good)
    {b : ℕ} (hb : c'.holds = some b) :
    (s'.states b).locked = true ∧ c'.Owns (s'.states b) := by
  cases h with
  | @acquire a sample hfree =>
    obtain rfl : a = b := Option.some.inj hb
    rw [states_modify_self]
    exact ⟨rfl, (hs a).settled hfree⟩
  | @reserve a sample | @refuse a =>
    obtain rfl : a = b := Option.some.inj hb
    exact hc.locked a rfl
  | @skip a =>
    obtain rfl : a = b := Option.some.inj hb
    obtain ⟨hlocked, hlen, hbytes⟩ := hc.locked a rfl
    exact ⟨hlocked, hlen.le, hbytes⟩
  | @accept a globalReserved sample =>
    obtain rfl : a = b := Option.some.inj hb
    obtain ⟨hlocked, hlen, hbytes⟩ := hc.locked a rfl
    rw [states_modify_self]
    exact ⟨hlocked, hlen, congrArg (· + sample.length) hbytes⟩
  | @push a sample =>
    obtain rfl : a = b := Option.some.inj hb
    obtain ⟨hlocked, hlen, hbytes⟩ := hc.locked a rfl
    rw [states_modify_self]
    refine ⟨hlocked, ?_, hbytes.trans (sampleBytes_concat _ _).symm⟩
    rw [List.length_append]
    exact hlen
  | @undo a =>
    obtain rfl : a = b := Option.some.inj hb
    exact hc.locked a rfl
  | @undone a =>
    obtain rfl : a = b := Option.some.inj hb
    obtain ⟨hlocked, hlen, hbytes⟩ := hc.locked a rfl
    exact ⟨hlocked, hlen.le, hbytes⟩
  | @swap a hlen =>
    obtain rfl : a = b := Option.some.inj hb
    obtain ⟨hlocked, hle, -⟩ := hc.locked a rfl
    rw [states_modify_self]
    exact ⟨hlocked, hle.antisymm hlen, rfl⟩
  | found | created | reject | touchTrain | touchRegister | trained | untrained | cancelLock | below
    | take | ready | permit | cancelWait | finish | abandon | release | released | set | setIgnored
    | sweep | keep | evict | retained | add | summed | store => cases hb

/-- A call gets a mutex when it is free, and otherwise holds the one it had. -/
theorem Call.Step.holds (h : Call.Step s c s' c') {b : ℕ} (hb : c'.holds = some b) :
    c.holds = some b ∨ (s.states b).locked = false := by
  cases h with
  | acquire hfree =>
    cases hb
    exact Or.inr hfree
  | reserve | skip | accept | refuse | push | undo | undone | swap => exact Or.inl hb
  | found | created | reject | touchTrain | touchRegister | trained | untrained | cancelLock | below
    | take | ready | permit | cancelWait | finish | abandon | release | released | set | setIgnored
    | sweep | keep | evict | retained | add | summed | store => cases hb

theorem tidyOutline : Pool.Outline (Call.Uses (δ := δ)) TidyStep
    (fun s => s.Sound ∧ ∀ a, (s.states a).Good) Call.Sound Call.Apart where
  symm := fun h a hd hc => h a hc hd
  begins := by
    rintro s _ - ⟨sessionId, use, rfl⟩
    exact ⟨fun a ha => (by cases ha), fun a ha => by cases ha⟩
  begins_apart := by
    rintro s _ u ⟨sessionId, use, rfl⟩ - a ha hu
    cases hu
  own := by
    rintro s c s' c' ⟨hs, hgood⟩ hc ⟨h, htidy⟩
    obtain ⟨hs', hvalid⟩ := h.own hs hc.valid
    exact ⟨⟨hs', h.good htidy hc hgood⟩, hvalid, fun a ha => h.owns hc hgood ha⟩
  other := by
    rintro s c s' c' u - hc hu hcu ⟨h, -⟩
    refine ⟨⟨fun a ha => (hu.valid a ha).trans_le h.allocated_le, fun a ha => ?_⟩, fun a ha hua => ?_⟩
    · obtain ⟨hlocked, howns⟩ := hu.locked a ha
      obtain ⟨hcorpus, hlocked', hpending⟩ := h.keeps (hu.valid a (Call.pointer_of_holds ha))
        (fun hc => hcu a hc ha) hlocked
      exact ⟨hlocked', howns.congr hcorpus hpending⟩
    · rcases h.holds ha with hc | hfree
      · exact hcu a hc hua
      · rw [(hu.locked a hua).1] at hfree
        cases hfree

end Steps

section Runs

/-- One for the state whose mutex a call holds. -/
def Call.mutexes (c : Call δ) : ℕ → ℕ := fun a => if c.holds = some a then 1 else 0

/-- A mutex that is held after a step is held by the call that took it, or was held before and the
call does not hold it. -/
theorem Call.Step.locked (h : Call.Step s c s' c') {b : ℕ} (hb : (s'.states b).locked = true) :
    c'.holds = some b ∨ (s.states b).locked = true ∧ c.holds ≠ some b := by
  have hmodify : ∀ a f, (f (s.states a)).locked = (s.states a).locked →
      ((s.modify a f).states b).locked = true → (s.states b).locked = true := by
    intro a f hsame hlocked
    rw [states_modify] at hlocked
    split_ifs at hlocked with heq
    · rw [heq, ← hsame]
      exact hlocked
    · exact hlocked
  by_cases hholds : c'.holds = some b
  · exact Or.inl hholds
  refine Or.inr ?_
  cases h with
  | created =>
    rw [states_allocate] at hb
    split_ifs at hb
    · cases hb
    · exact ⟨hb, nofun⟩
  | touchTrain | touchRegister | permit | finish | abandon | set =>
    exact ⟨hmodify _ _ rfl hb, nofun⟩
  | @acquire a =>
    rw [states_modify, if_neg fun heq => hholds (congrArg some heq.symm)] at hb
    exact ⟨hb, nofun⟩
  | accept | push | swap => exact ⟨hmodify _ _ rfl hb, hholds⟩
  | reserve | skip | refuse | undo | undone => exact ⟨hb, hholds⟩
  | @below a | @take a =>
    rw [states_modify] at hb
    split_ifs at hb with heq
    exact ⟨hb, fun ha => heq (Option.some.inj ha).symm⟩
  | found | reject | trained | untrained | cancelLock | ready | cancelWait | release | released
    | setIgnored | sweep | keep | evict | retained | add | summed | store => exact ⟨hb, nofun⟩

theorem locks_step {rest : ℕ → ℕ} (h : Call.Step s c s' c')
    (hheld : ∀ a, (s.states a).locked = true → 0 < (c.mutexes + rest) a) (a : ℕ)
    (ha : (s'.states a).locked = true) : 0 < (c'.mutexes + rest) a := by
  rw [Pi.add_apply]
  rcases h.locked ha with hholds | ⟨hlocked, hnot⟩
  · rw [Call.mutexes, if_pos hholds]
    omega
  · have hrest := hheld a hlocked
    rw [Pi.add_apply, Call.mutexes, if_neg hnot] at hrest
    omega

theorem tidy_sound {p : Calls δ} (h : ReflTransGen (Pool.Step Call.Uses TidyStep) Calls.new p) :
    Pool.Holds (fun s => s.Sound ∧ ∀ a, (s.states a).Good) Call.Sound Call.Apart p ∧
      ∀ a, (p.shared.states a).locked = true → 0 < (p.calls.map Call.mutexes).sum a := by
  induction h with
  | refl =>
    refine ⟨Pool.holds_nil ⟨sound_new, fun _ => SessionDictState.good_new 0⟩, fun a ha => ?_⟩
    cases ha
  | tail _ h ih =>
    refine ⟨tidyOutline.step_holds ih.1 h, ?_⟩
    refine Pool.sum_step Call.mutexes
      (fun s held => ∀ a, (s.states a).locked = true → 0 < held a) ?_ ?_ ih.1 h ih.2
    · rintro c ⟨sessionId, use, rfl⟩
      rfl
    · rintro s c s' c' rest - - ⟨h, -⟩ hheld
      exact locks_step h hheld

theorem mutexes_of_idle (h : ¬ c.InProgress) : c.mutexes = 0 := by
  funext a
  rw [Call.mutexes, if_neg fun hholds => h ?_]
  · rfl
  · cases c with
    | locked | reserved | push | undo | full | take => trivial
    | _ => cases hholds

/-- If dictionaries are initialized only while the corpus is empty or complete, and nothing is
added afterwards, then a trained session holds no corpus when no call is in progress. -/
theorem corpus_empty_of_tidy {p : Calls δ}
    (h : ReflTransGen (Pool.Step Call.Uses TidyStep) Calls.new p)
    (hidle : ∀ c ∈ p.calls, ¬ c.InProgress) {a : ℕ} {dict : δ}
    (hdict : (p.shared.states a).dict = .initialized dict) :
    (p.shared.states a).corpus = [] ∧ (p.shared.states a).pendingCorpusBytes = 0 := by
  obtain ⟨hholds, hheld⟩ := tidy_sound h
  obtain ⟨-, hgood⟩ := hholds.shared
  have hnone : (p.calls.map Call.mutexes).sum = 0 :=
    List.sum_eq_zero fun m hm => by
      obtain ⟨c, hc, rfl⟩ := List.mem_map.mp hm
      exact mutexes_of_idle (hidle c hc)
  have hfree : (p.shared.states a).locked = false := by
    by_contra hlocked
    have hpos := hheld a (eq_true_of_ne_false hlocked)
    rw [hnone] at hpos
    exact Nat.lt_irrefl 0 hpos
  obtain ⟨hlen, hbytes⟩ := (hgood a).settled hfree
  have hcorpus : (p.shared.states a).corpus = [] :=
    ((hgood a).trained ⟨dict, hdict⟩).resolve_right hlen.ne
  refine ⟨hcorpus, hbytes.trans ?_⟩
  rw [SessionDictState.sampleBytes, hcorpus]
  rfl

theorem tidy_of_same {t t' : InMemoryDictionaryStore δ}
    (hcorpus : ∀ a, (t'.states a).corpus = (t.states a).corpus)
    (hdict : ∀ a, (t'.states a).dict = (t.states a).dict ∨ (t.states a).corpus = []) :
    Tidy t t' := by
  intro a
  refine ⟨fun hbefore hafter => Or.inl ((hdict a).resolve_left fun heq => hbefore ?_), fun hlt => ?_⟩
  · obtain ⟨dict, hdict⟩ := hafter
    exact ⟨dict, heq ▸ hdict⟩
  · rw [hcorpus] at hlt
    exact absurd hlt (Nat.lt_irrefl _)

theorem tidyStep_of_collecting (h : CollectingStep s c s' c') : TidyStep s c s' c' := by
  refine ⟨h.1, fun a => ⟨fun hbefore hafter => ?_, fun hlt => ?_⟩⟩
  · obtain ⟨dict, hdict⟩ := hafter
    exact absurd ⟨dict, (h.2 a).1.symm.trans hdict⟩ hbefore
  · have hdict : (s.states a).dict = .empty :=
      (h.2 a).2.resolve_left fun heq => by rw [heq] at hlt; exact Nat.lt_irrefl _ hlt
    rintro ⟨dict, htrained⟩
    rw [hdict] at htrained
    cases htrained

/-- A session collects 32 samples and its dictionary is trained on them. -/
theorem corpus_empty_of_tidy_trained : ∃ p : Calls Unit,
    ReflTransGen (Pool.Step Call.Uses TidyStep) Calls.new p ∧ (∀ c ∈ p.calls, c = .returned) ∧
      p.calls.length = nTrain ∧ (p.shared.states 0).dict = .initialized () ∧
        (p.shared.states 0).corpus = [] ∧ (p.shared.states 0).pendingCorpusBytes = 0 := by
  let s₁ := oneTaken.modify 0 fun st => { st with dict := .initializing }
  let s₂ := s₁.modify 0 fun st => { st with dict := .initialized () }
  let s₃ : InMemoryDictionaryStore Unit := { s₂ with corpusBytesInFlight := 0 }
  have hcorpus : ∀ a, (oneTaken.states a).corpus = [] ∧ (s₁.states a).corpus = [] ∧
      (s₂.states a).corpus = [] := by
    intro a
    simp only [s₂, s₁, oneTaken, states_modify, states_allocate]
    split_ifs <;> exact ⟨rfl, rfl, rfl⟩
  have htidy : ReflTransGen (Pool.Step Call.Uses TidyStep) Calls.new
      ⟨oneTaken, oneServed ++ [.wait 0 32 oneCorpus]⟩ :=
    reaches_oneCorpus.lift id fun _ _ h => Pool.Step.mono (fun _ => id) tidyStep_of_collecting h
  have hpermit : Pool.Step Call.Uses TidyStep ⟨oneTaken, oneServed ++ [.wait 0 32 oneCorpus]⟩
      ⟨s₁, oneServed ++ [.training 0 32 oneCorpus]⟩ :=
    .step ⟨.permit rfl, tidy_of_same (fun a => (hcorpus a).2.1.trans (hcorpus a).1.symm)
      fun a => Or.inr (hcorpus a).1⟩
  have hfinish : Pool.Step Call.Uses TidyStep ⟨s₁, oneServed ++ [.training 0 32 oneCorpus]⟩
      ⟨s₂, oneServed ++ [.release 32 .start]⟩ :=
    .step ⟨.finish, tidy_of_same (fun a => (hcorpus a).2.2.trans (hcorpus a).2.1.symm)
      fun a => Or.inr (hcorpus a).2.1⟩
  have hsame : ∀ {t t' : InMemoryDictionaryStore Unit}, t'.states = t.states → Tidy t t' :=
    fun h => tidy_of_same (fun a => by rw [h]) fun a => Or.inl (by rw [h])
  have hload : Pool.Step Call.Uses TidyStep ⟨s₂, oneServed ++ [.release 32 .start]⟩
      ⟨s₂, oneServed ++ [.release 32 (.trying 32)]⟩ :=
    .step ⟨.release (.load (by decide)), hsame rfl⟩
  have hexchange : Pool.Step Call.Uses TidyStep ⟨s₂, oneServed ++ [.release 32 (.trying 32)]⟩
      ⟨s₃, oneServed ++ [.release 32 .done]⟩ := .step ⟨.release .exchange, hsame rfl⟩
  have hreturned : Pool.Step Call.Uses TidyStep ⟨s₃, oneServed ++ [.release 32 .done]⟩
      ⟨s₃, oneServed ++ [.returned]⟩ :=
    .step ⟨.released, hsame rfl⟩
  have hrun := ((((htidy.tail hpermit).tail hfinish).tail hload).tail hexchange).tail hreturned
  have hidle : ∀ c ∈ oneServed ++ [.returned], c = .returned := by
    simp [oneServed]
  refine ⟨_, hrun, hidle, rfl, rfl, corpus_empty_of_tidy hrun (fun c hc => ?_) rfl⟩
  rw [hidle c hc]
  exact id

/-- A dictionary is registered while a sample is pending. -/
theorem corpus_kept : ∃ p : Calls Unit,
    ReflTransGen (Pool.Step Call.Uses Call.Step) Calls.new p ∧ (∀ c ∈ p.calls, c = .returned) ∧
      (p.shared.states 0).dict = .initialized () ∧ (p.shared.states 0).corpus = [[1, 2, 3]] ∧
        (p.shared.states 0).pendingCorpusBytes = 3 := by
  let s₁ : InMemoryDictionaryStore Unit := (new.allocate ⟨7⟩ 0).collected 0 [[1, 2, 3]]
  let s₂ := s₁.modify 0 fun st => { st with lastAccess := 0 }
  let s₃ := s₂.modify 0 fun st => { st with dict := .initialized () }
  have hcollected : ReflTransGen (Pool.Step Call.Uses CollectingStep) Calls.new
      ⟨s₁, [.returned]⟩ :=
    (reaches_allocated ⟨7⟩ (.train [1, 2, 3]) rfl rfl).trans
      (reaches_pushed rfl rfl (by decide) (by decide) (by decide))
  have hfound : ReflTransGen (Pool.Step Call.Uses CollectingStep) ⟨s₁, [.returned]⟩
      ⟨s₁, [.returned] ++ [.touch 0 (.register ())]⟩ := reaches_touch ⟨7⟩ (.register ()) rfl
  have htouch : Pool.Step Call.Uses Call.Step (⟨s₁, [.returned, .touch 0 (.register ())]⟩ : Calls Unit)
      ⟨s₂, [.returned, .set 0 ()]⟩ := .step (l := [Call.returned]) .touchRegister
  have hset : Pool.Step Call.Uses Call.Step (⟨s₂, [.returned, .set 0 ()]⟩ : Calls Unit)
      ⟨s₃, [.returned, .returned]⟩ := .step (l := [Call.returned]) (.set rfl)
  exact ⟨_, ((reaches_plain (hcollected.trans hfound)).tail htouch).tail hset, by simp, rfl, rfl, rfl⟩

end Runs

end InMemoryDictionaryStore

end PJS
