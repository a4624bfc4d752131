import PJS.Repository.Atomicity
import PJS.Repository.StatsCache

/-! When the cached statistics are those of the sessions: the steps that may leave an outdated
entry behind, and that without them a call for the health of a session reports the total that its
streams had at an instant during the call. -/
namespace PJS

open Relation

section Frames
open Ledger

theorem Ledger.total_frames_post {l : Ledger} {entry : Entry} (h : l.Allowed entry)
    (hfresh : ∀ id, entry = .create id → l.rows.get? id = none)
    (hemit : ∀ id sequence bytes, entry ≠ .emit id sequence bytes) (hwipe : entry ≠ .wipe) :
    (l.post entry).rows.total Row.frames = l.rows.total Row.frames := by
  have hmodify : ∀ {id : StreamId} {r : Row} {f : Row → Row}, l.rows.get? id = some r →
      (∀ r, (f r).frames = r.frames) →
      (l.rows.modify id f).total Row.frames = l.rows.total Row.frames := by
    intro id r f hget hf
    have htotal := AssocMap.total_modify hget f Row.frames
    rw [hf r] at htotal
    omega
  cases entry with
  | activate => rfl
  | create id =>
    have hinsert := AssocMap.total_insert_of_none (hfresh id rfl) Row.fresh Row.frames
    exact hinsert
  | start id =>
    obtain ⟨r, hget, -⟩ := h
    exact hmodify hget fun _ => rfl
  | complete id =>
    obtain ⟨r, hget, -⟩ := h
    exact hmodify hget fun _ => rfl
  | fail id =>
    obtain ⟨r, hget, -⟩ := h
    exact hmodify hget fun _ => rfl
  | emit id sequence bytes => exact absurd rfl (hemit id sequence bytes)
  | close =>
    have hcancel : (Row.frames ∘ Row.cancel) = Row.frames := by
      funext r
      simp only [Function.comp_apply, Row.cancel]
      split_ifs <;> rfl
    change (l.rows.mapVal Row.cancel).total Row.frames = _
    rw [AssocMap.total_mapVal]
    exact congrArg (fun g => l.rows.total g) hcancel
  | wipe => exact absurd rfl hwipe

namespace StreamSession

variable {session m : StreamSession}

theorem streamFrames_eq (session : StreamSession) :
    session.streamFrames = session.ledger.rows.total Row.frames :=
  (AssocMap.total_mapVal Row.frames Stream.row session.streams).symm

/-- Only frames and a wipe change the total. -/
theorem Took.streamFrames_eq {entry : Entry} (h : session.Took entry m)
    (hfresh : ∀ id, entry = .create id → id ∉ session.streams.keys)
    (hemit : ∀ id sequence bytes, entry ≠ .emit id sequence bytes) (hwipe : entry ≠ .wipe) :
    m.streamFrames = session.streamFrames := by
  rw [StreamSession.streamFrames_eq, StreamSession.streamFrames_eq, h.ledger]
  refine total_frames_post h.allowed (fun id hid => ?_) hemit hwipe
  by_contra hne
  obtain ⟨r, hr⟩ := Option.ne_none_iff_exists'.mp hne
  have hkeys : id ∈ session.ledger.rows.keys := AssocMap.mem_keys_iff.mpr ⟨r, hr⟩
  change id ∈ (session.streams.mapVal Stream.row).keys at hkeys
  rw [AssocMap.keys_mapVal] at hkeys
  exact hfresh id hid hkeys

theorem id_withStream {α : Type} (session : StreamSession) (streamId : StreamId)
    (f : Stream → DomainResult α × Stream) : (session.withStream streamId f).2.id = session.id := by
  unfold withStream
  split <;> rfl

theorem id_createStreamWithConfig (env : SessionEnv) (sourceData : DataDocument)
    (config : Option StreamConfig) :
    (session.createStreamWithConfig env sourceData config).2.id = session.id := by
  have hcreate : (session.createStream env sourceData).2.id = session.id := by
    unfold createStream
    split_ifs <;> rfl
  unfold createStreamWithConfig
  generalize session.createStream env sourceData = r at hcreate
  obtain ⟨result, session₁⟩ := r
  cases result with
  | error e => exact hcreate
  | ok streamId =>
    cases config with
    | none => exact hcreate
    | some config =>
      have hconfig : (session₁.updateStreamConfig (afterCreate env) streamId config).2.id =
          session₁.id := by
        unfold updateStreamConfig
        have hid := session₁.id_withStream streamId fun stream =>
          stream.updateConfig (afterCreate env).toEnv config
        generalize session₁.withStream streamId _ = r at hid
        obtain ⟨e | a, session₂⟩ := r <;> exact hid
      simp only
      generalize session₁.updateStreamConfig (afterCreate env) streamId config = r at hconfig
      obtain ⟨e | a, session₂⟩ := r <;> exact hconfig.trans hcreate

theorem id_recordFrames (env : SessionEnv) (session : StreamSession) (frameCount bytes : ℕ) :
    (session.recordFrames env frameCount bytes).id = session.id := by
  unfold recordFrames
  simp only
  split_ifs <;> rfl

end StreamSession

end Frames

namespace GatInMemoryStreamRepository

section UnderLock
variable {env : SessionEnv} {request : Request} {phase : Phase} {session m : StreamSession}
  {value : Value} {f : StreamSession → DomainResult Value × StreamSession}

/-- Generates frames. -/
def Request.generates : Request → Bool
  | .createStreamPatchFrames _ _ _ | .batchGenerateFrames _ _ => true
  | _ => false

theorem id_of_underLock (h : request.underLock env phase = some f) :
    (f session).2.id = session.id := by
  cases request with
  | createStream sourceData config =>
    cases phase <;> cases h
    exact session.id_createStreamWithConfig env sourceData config
  | startStream streamId =>
    cases phase <;> cases h
    have hid := session.id_withStream streamId fun stream => stream.startStreaming env.toEnv
    change (session.startStream env streamId).2.id = _
    unfold StreamSession.startStream
    generalize session.withStream streamId _ = r at hid
    obtain ⟨e | a, session₁⟩ := r <;> exact hid
  | completeStream streamId =>
    cases phase <;> cases h
    have hid := session.id_withStream streamId (StreamSession.completeTimed env.toEnv)
    change (session.completeStream env streamId).2.id = _
    unfold StreamSession.completeStream
    generalize session.withStream streamId _ = r at hid
    obtain ⟨e | a, session₁⟩ := r <;> exact hid
  | createStreamPatchFrames streamId priorityThreshold maxFrames =>
    cases phase with
    | extractedPatches snapshot patches =>
      cases h
      have hid := session.id_withStream streamId
        (StreamSession.commitMeasured env.toEnv patches maxFrames)
      change (session.commitPatchFramesForStream env streamId patches maxFrames).2.id = _
      unfold StreamSession.commitPatchFramesForStream
      generalize session.withStream streamId _ = r at hid
      obtain ⟨e | ⟨frames, bytes⟩, session₁⟩ := r
      · exact hid
      · exact (StreamSession.id_recordFrames env session₁ _ _).trans hid
    | _ => cases h
  | batchGenerateFrames priorityThreshold maxFrames =>
    cases phase with
    | extractedStreams snapshot extracted =>
      cases h
      change (session.commitPriorityFrames env extracted maxFrames).2.id = _
      unfold StreamSession.commitPriorityFrames
      split_ifs
      · rfl
      · exact StreamSession.id_recordFrames _ _ _ _
    | _ => cases h
  | closeSession =>
    cases phase <;> cases h
    change (session.close env).2.id = _
    unfold StreamSession.close
    split <;> rfl

/-- The other operations leave the total alone. -/
theorem streamFrames_of_underLock (h : request.underLock env phase = some f)
    (hgenerates : request.generates = false) (hfresh : env.uuid ∉ session.streams.keys)
    (hf : f session = (.ok value, m)) : m.streamFrames = session.streamFrames := by
  cases request with
  | createStream sourceData config =>
    cases phase <;> cases h
    obtain ⟨streamId, hr, rfl⟩ := returns_eq_ok hf
    have htook := StreamSession.took_of_eq_ok
      (session.createStreamWithConfig_cases env sourceData config) hr
    refine htook.streamFrames_eq (fun id hid => ?_) (by simp) (by simp)
    cases hid
    exact hfresh
  | startStream streamId =>
    cases phase <;> cases h
    obtain ⟨⟨⟩, hr, rfl⟩ := returns_eq_ok hf
    have htook := StreamSession.took_of_eq_ok (session.startStream_cases env streamId) hr
    exact htook.streamFrames_eq (by simp) (by simp) (by simp)
  | completeStream streamId =>
    cases phase <;> cases h
    obtain ⟨⟨⟩, hr, rfl⟩ := returns_eq_ok hf
    have htook := StreamSession.took_of_eq_ok (session.completeStream_cases env streamId) hr
    exact htook.streamFrames_eq (by simp) (by simp) (by simp)
  | createStreamPatchFrames => cases hgenerates
  | batchGenerateFrames => cases hgenerates
  | closeSession =>
    cases phase <;> cases h
    obtain ⟨⟨⟩, hr, rfl⟩ := returns_eq_ok hf
    have htook := StreamSession.took_of_eq_ok ((session.close_cases env).imp_left And.right) hr
    exact htook.streamFrames_eq (by simp) (by simp) (by simp)

end UnderLock

section Caches
variable {repository repository' : GatInMemoryStreamRepository} {handle : ℕ}
  {sessionId : SessionId} {total : ℕ}

/-- The total of the streams of the stored session. -/
def storedTotal (repository : GatInMemoryStreamRepository) (sessionId : SessionId) : Option ℕ :=
  (repository.store.get? sessionId).map StreamSession.streamFrames

theorem cachedTotal_eq_some_iff : repository.cachedTotal handle sessionId = some total ↔
    ∃ cached, (repository.statsCache handle).get? sessionId = some cached ∧
      cached.isValid repository.clock = true ∧ cached.totalFrames = total := by
  rw [cachedTotal]
  cases hget : (repository.statsCache handle).get? sessionId with
  | none => simp
  | some cached =>
    by_cases hvalid : cached.isValid repository.clock = true <;> simp [hvalid]

/-- An invalidation leaves the other entries. -/
theorem cachedTotal_invalidateStatsCache {h : ℕ} {id : SessionId}
    (hcached : (repository.invalidateStatsCache h id).cachedTotal handle sessionId = some total) :
    repository.cachedTotal handle sessionId = some total ∧ ¬ (handle = h ∧ sessionId = id) := by
  obtain ⟨cached, hget, hvalid, htotal⟩ := cachedTotal_eq_some_iff.mp hcached
  simp only [invalidateStatsCache, Function.update_apply] at hget
  split_ifs at hget with hhandle
  · subst hhandle
    rw [AssocMap.get?_erase] at hget
    split_ifs at hget with hid
    exact ⟨cachedTotal_eq_some_iff.mpr ⟨cached, hget, hvalid, htotal⟩, fun h => hid h.2⟩
  · exact ⟨cachedTotal_eq_some_iff.mpr ⟨cached, hget, hvalid, htotal⟩, fun h => hhandle h.1⟩

theorem cachedTotal_cacheTotal {h : ℕ} {id : SessionId} {totalFrames : ℕ}
    (hcached : (repository.cacheTotal h id totalFrames).cachedTotal handle sessionId =
      some total) :
    repository.cachedTotal handle sessionId = some total ∨
      sessionId = id ∧ total = totalFrames := by
  obtain ⟨cached, hget, hvalid, htotal⟩ := cachedTotal_eq_some_iff.mp hcached
  simp only [cacheTotal, Function.update_apply] at hget
  split_ifs at hget with hhandle
  · subst hhandle
    rw [AssocMap.get?_insert] at hget
    split_ifs at hget with hid
    · right
      rw [← htotal, ← Option.some.inj hget]
      exact ⟨hid, rfl⟩
    · exact Or.inl (cachedTotal_eq_some_iff.mpr ⟨cached, hget, hvalid, htotal⟩)
  · exact Or.inl (cachedTotal_eq_some_iff.mpr ⟨cached, hget, hvalid, htotal⟩)

theorem cachedTotal_clone {h : ℕ}
    (hcached : (repository.clone h).cachedTotal handle sessionId = some total) :
    repository.cachedTotal handle sessionId = some total ∨
      repository.cachedTotal h sessionId = some total := by
  obtain ⟨cached, hget, hvalid, htotal⟩ := cachedTotal_eq_some_iff.mp hcached
  simp only [clone, Function.update_apply] at hget
  split_ifs at hget
  · exact Or.inr (cachedTotal_eq_some_iff.mpr ⟨cached, hget, hvalid, htotal⟩)
  · exact Or.inl (cachedTotal_eq_some_iff.mpr ⟨cached, hget, hvalid, htotal⟩)

/-- A clock that is not set back makes no entry valid. -/
theorem cachedTotal_clock {now : ℕ} (hclock : repository.clock ≤ now)
    (hcached : cachedTotal { repository with clock := now } handle sessionId = some total) :
    repository.cachedTotal handle sessionId = some total := by
  obtain ⟨cached, hget, hvalid, htotal⟩ := cachedTotal_eq_some_iff.mp hcached
  refine cachedTotal_eq_some_iff.mpr ⟨cached, hget, ?_, htotal⟩
  have hnow : now - cached.computedAtSecs < statsCacheTtlSecs := of_decide_eq_true hvalid
  exact decide_eq_true (by omega)

end Caches

section Steps
variable {repository repository' : GatInMemoryStreamRepository} {c c' : AtomicCall}

/-- A step leaves the repository alone, drops the entry of its session, or stores the session that
an operation left. -/
theorem AtomicCall.Step.cases (h : Step repository c repository' c') :
    (repository' = repository ∧ ∀ value events, c.phase ≠ .updated value events) ∨
    repository' = repository.invalidateStatsCache c.handle c.sessionId ∨
    ∃ env f session value m, c.request.underLock env c.phase = some f ∧
      repository.store.get? c.sessionId = some session ∧ env.uuid ∉ session.streams.keys ∧
      f session = (.ok value, m) ∧
      repository' =
        { repository with store := repository.store.insert c.sessionId m.takeEvents.2 } ∧
      c' = { c with phase := .updated value m.pendingEvents } := by
  have hnew : ∀ {c : AtomicCall}, c.succeeded = none →
      ∀ value events, c.phase ≠ .updated value events := by
    intro c hc value events hphase
    rw [AtomicCall.succeeded, hphase] at hc
    cases hc
  cases h with
  | absent | extractPatches | refuse | extractStreams => exact Or.inl ⟨rfl, hnew rfl⟩
  | @update handle sessionId request phase f env hlock hfresh =>
    rcases update_cases hlock hfresh with ⟨e, he⟩ | ⟨session, value, m, hget, hf, -, hok⟩
    · left
      rw [he]
      exact ⟨rfl, hnew (succeeded_of_underLock hlock)⟩
    · right; right
      rw [hok]
      exact ⟨env, f, session, value, m, hlock, hget, hfresh session hget, hf, rfl, rfl⟩
  | invalidate => exact Or.inr (Or.inl rfl)

namespace Operation

/-- The operation has committed frames, and is about to drop the entry of the session. -/
def Awaits (t : Operation) (handle : ℕ) (sessionId : SessionId) : Prop :=
  ∃ request value events, request.generates = true ∧
    t = .atomic ⟨handle, sessionId, request, .updated value events⟩

/-- The steps that leave no outdated entry behind. The total of a session changes when no other
clone has a valid entry, and when it is saved no clone at all; a total is cached when it is still
that of the session; the clock is not set back. -/
def Permits (repository : GatInMemoryStreamRepository) (t : Operation)
    (repository' : GatInMemoryStreamRepository) : Prop :=
  match t with
  | .atomic c => repository'.storedTotal c.sessionId ≠ repository.storedTotal c.sessionId →
    ∀ handle, handle ≠ c.handle → repository.cachedTotal handle c.sessionId = none
  | .saveSession _ session _ =>
    repository'.storedTotal session.id ≠ repository.storedTotal session.id →
      ∀ handle, repository.cachedTotal handle session.id = none
  | .getSessionHealth _ _ (.missed session _) =>
    repository.storedTotal session.id = some session.streamFrames
  | .clock now _ => repository.clock ≤ now
  | _ => True

/-- Where a valid entry comes from after a step. -/
inductive Leaves (repository : GatInMemoryStreamRepository) (t : Operation)
    (repository' : GatInMemoryStreamRepository) (t' : Operation) (handle : ℕ)
    (sessionId : SessionId) (total : ℕ) : Prop
  | fresh (h : repository'.storedTotal sessionId = some total)
  | kept (hbefore : repository.cachedTotal handle sessionId = some total)
    (h : t'.Awaits handle sessionId ∨
      repository'.storedTotal sessionId = repository.storedTotal sessionId ∧
        ¬ t.Awaits handle sessionId)
  | copied {source : ℕ} (ht : t = .clone source none)
    (hbefore : repository.cachedTotal source sessionId = some total)
    (hstore : repository'.store = repository.store)

variable {t t' : Operation} {handle : ℕ} {sessionId : SessionId} {total : ℕ}

theorem not_awaits_of_ne (h : ∀ c, t ≠ .atomic c) : ¬ t.Awaits handle sessionId := by
  rintro ⟨request, value, events, -, rfl⟩
  exact h _ rfl

theorem leaves_atomic (hpermits : Permits repository (.atomic c) repository')
    (h : AtomicCall.Step repository c repository' c')
    (hcached : repository'.cachedTotal handle sessionId = some total) :
    Leaves repository (.atomic c) repository' (.atomic c') handle sessionId total := by
  rcases h.cases with ⟨rfl, hphase⟩ | rfl | ⟨env, f, session, value, m, hlock, hget, hfresh, hf,
    rfl, rfl⟩
  · refine .kept hcached (Or.inr ⟨rfl, ?_⟩)
    rintro ⟨request, value, events, -, heq⟩
    cases heq
    exact hphase value events rfl
  · obtain ⟨hbefore, hother⟩ := cachedTotal_invalidateStatsCache hcached
    refine .kept hbefore (Or.inr ⟨rfl, ?_⟩)
    rintro ⟨request, value, events, -, heq⟩
    cases heq
    exact hother ⟨rfl, rfl⟩
  · have hbefore : repository.cachedTotal handle sessionId = some total := hcached
    have hnot : ¬ (Operation.atomic c).Awaits handle sessionId := by
      rintro ⟨request, value', events, -, heq⟩
      cases heq
      have hnone := succeeded_of_underLock hlock
      cases hnone
    by_cases hid : sessionId = c.sessionId
    · subst hid
      by_cases hsame : storedTotal
          { repository with store := repository.store.insert c.sessionId m.takeEvents.2 }
          c.sessionId = repository.storedTotal c.sessionId
      · exact .kept hbefore (Or.inr ⟨hsame, hnot⟩)
      have hhandle : handle = c.handle := by
        by_contra hne
        have hnone := hpermits hsame handle hne
        rw [hnone] at hbefore
        cases hbefore
      have hgenerates : c.request.generates = true := by
        by_contra hno
        have htotal := streamFrames_of_underLock hlock (Bool.eq_false_of_not_eq_true hno) hfresh hf
        apply hsame
        rw [storedTotal, storedTotal, AssocMap.get?_insert_self, hget, Option.map_some,
          Option.map_some, ← htotal]
        rfl
      subst hhandle
      exact .kept hbefore (Or.inl ⟨c.request, value, m.pendingEvents, hgenerates, rfl⟩)
    · refine .kept hbefore (Or.inr ⟨?_, hnot⟩)
      rw [storedTotal, storedTotal, AssocMap.get?_insert, if_neg hid]

theorem Step.leaves (hpermits : Permits repository t repository')
    (h : Step repository t repository' t')
    (hcached : repository'.cachedTotal handle sessionId = some total) :
    Leaves repository t repository' t' handle sessionId total := by
  have hkeep : (∀ c, t ≠ .atomic c) → repository'.store = repository.store →
      repository.cachedTotal handle sessionId = some total →
      Leaves repository t repository' t' handle sessionId total := by
    intro hne hstore hbefore
    refine .kept hbefore (Or.inr ⟨?_, not_awaits_of_ne hne⟩)
    rw [storedTotal, storedTotal, hstore]
  cases h with
  | atomic hhandle h => exact leaves_atomic hpermits h hcached
  | invalidate =>
    exact hkeep (fun _ h => (by cases h)) rfl (cachedTotal_invalidateStatsCache hcached).1
  | @insert h session =>
    have hbefore : repository.cachedTotal handle sessionId = some total := hcached
    refine .kept hbefore (Or.inr ⟨?_, not_awaits_of_ne fun _ h => (by cases h)⟩)
    by_cases hid : sessionId = session.id
    · subst hid
      by_contra hne
      have hnone := hpermits hne handle
      rw [hnone] at hbefore
      cases hbefore
    · rw [storedTotal, storedTotal, AssocMap.get?_insert, if_neg hid]
  | absent | read | hit | miss => exact hkeep (fun _ h => (by cases h)) rfl hcached
  | @cache h id session health =>
    rcases cachedTotal_cacheTotal hcached with hbefore | ⟨rfl, rfl⟩
    · exact hkeep (fun _ h => (by cases h)) rfl hbefore
    · exact .fresh hpermits
  | @clone h hhandle =>
    rcases cachedTotal_clone hcached with hbefore | hbefore
    · exact hkeep (fun _ h => (by cases h)) rfl hbefore
    · exact .copied rfl hbefore rfl
  | clock => exact hkeep (fun _ h => (by cases h)) rfl (cachedTotal_clock hpermits hcached)

/-- Sessions stay filed under their identifiers. -/
theorem Step.keyed (h : Step repository t repository' t')
    (hkeyed : ∀ id session, repository.store.get? id = some session → session.id = id) :
    ∀ id session, repository'.store.get? id = some session → session.id = id := by
  intro id session hget
  cases h with
  | @atomic c c' repository' hhandle h =>
    rcases h.cases with ⟨rfl, -⟩ | rfl | ⟨env, f, session', value, m, hlock, hget', -, hf, rfl, rfl⟩
    · exact hkeyed id session hget
    · exact hkeyed id session hget
    · rw [AssocMap.get?_insert] at hget
      split_ifs at hget with hid
      · have hm : (f session').2.id = session'.id := id_of_underLock hlock
        rw [hf] at hm
        rw [← Option.some.inj hget, hid]
        exact hm.trans (hkeyed _ _ hget')
      · exact hkeyed id session hget
  | insert =>
    rw [AssocMap.get?_insert] at hget
    split_ifs at hget with hid
    · rw [← Option.some.inj hget, hid]
    · exact hkeyed id session hget
  | _ => exact hkeyed id session hget

end Operation

end Steps

section Runs
variable {s s' : Timed} {t t' u : TimedCall} {since upTo : ℕ} {sessionId : SessionId} {total : ℕ}

theorem Timed.Within.append {store : AssocMap SessionId StreamSession}
    (h : s.Within since upTo sessionId total) (hinstants : s'.instants = s.instants ++ [store])
    {upTo' : ℕ} (hle : upTo ≤ upTo') : s'.Within since upTo' sessionId total := by
  obtain ⟨i, store', session, hsince, hupTo, hi, hget, htotal⟩ := h
  refine ⟨i, store', session, hsince, by omega, ?_, hget, htotal⟩
  rw [hinstants]
  obtain ⟨hlt, hi⟩ := List.getElem?_eq_some_iff.mp hi
  rw [List.getElem?_append_left hlt]
  exact List.getElem?_eq_some_iff.mpr ⟨hlt, hi⟩

/-- The last instant is the present one. -/
def Timed.Current (s : Timed) : Prop :=
  ∃ past, s.instants = past ++ [s.repository.store]

theorem Timed.Current.within (h : s.Current) (hsince : since < s.instants.length)
    (htotal : s.repository.storedTotal sessionId = some total) :
    s.Within since s.instants.length sessionId total := by
  obtain ⟨past, hpast⟩ := h
  obtain ⟨session, hget, hsession⟩ := Option.map_eq_some_iff.mp htotal
  rw [hpast, List.length_append, List.length_singleton] at hsince
  refine ⟨past.length, s.repository.store, session, by omega, ?_, ?_, hget, hsession⟩
  · rw [hpast, List.length_append, List.length_singleton]
    omega
  · rw [hpast, List.getElem?_append_right (le_refl _), Nat.sub_self]
    rfl

theorem TimedStep.current (h : TimedStep s t s' t') : s'.Current := ⟨s.instants, h.2.1⟩

/-- What a call for the health of a session has seen. -/
def TimedCall.Sound (s : Timed) (t : TimedCall) : Prop :=
  match t.operation with
  | .getSessionHealth handle sessionId (.read session _) =>
    session.id = sessionId ∧ t.since < s.instants.length ∧
      s.Within t.since s.instants.length sessionId session.streamFrames ∧
      ∀ total, s.repository.cachedTotal handle sessionId = some total →
        s.Within t.since s.instants.length sessionId total
  | .getSessionHealth _ sessionId (.missed session _) =>
    session.id = sessionId ∧ s.Within t.since s.instants.length sessionId session.streamFrames
  | .getSessionHealth _ sessionId (.returned (.ok snapshot)) =>
    s.Within t.since t.upTo sessionId snapshot.totalFrames
  | _ => True

/-- No other call lies between the commit of frames and the drop of an entry that the step would
read or copy. -/
def TimedCall.Clear (s : Timed) (t u : TimedCall) : Prop :=
  match t.operation with
  | .getSessionHealth handle sessionId .called =>
    u.operation.Awaits handle sessionId → s.repository.cachedTotal handle sessionId = none
  | .clone handle _ => ∀ sessionId, u.operation.Awaits handle sessionId →
    s.repository.cachedTotal handle sessionId = none
  | _ => True

/-- A step that leaves no outdated entry behind. -/
def PermittedStep (s : Timed) (t : TimedCall) (s' : Timed) (t' : TimedCall) : Prop :=
  t.operation.Permits s.repository s'.repository ∧ TimedStep s t s' t'

/-- A valid entry has the total of its session, or the operation that committed the frames it
lacks is about to drop it. -/
structure Coherent (p : Pool Timed TimedCall) : Prop where
  current : p.shared.Current
  keyed : ∀ id session, p.shared.repository.store.get? id = some session → session.id = id
  cached : ∀ handle id total, p.shared.repository.cachedTotal handle id = some total →
    p.shared.repository.storedTotal id = some total ∨
      ∃ t ∈ p.calls, t.operation.Awaits handle id
  calls : ∀ t ∈ p.calls, t.Sound p.shared

/-- A valid entry after a step is that of the session, or it was there before. -/
theorem Coherent.leaves {l r : List TimedCall} (hp : Coherent ⟨s, l ++ t :: r⟩)
    (h : PermittedStep s t s' t') (hclear : ∀ u ∈ l ++ r, t.Clear s u) {handle : ℕ}
    (hcached : s'.repository.cachedTotal handle sessionId = some total) :
    s'.repository.storedTotal sessionId = some total ∨
      s.repository.cachedTotal handle sessionId = some total ∧
        (t'.operation.Awaits handle sessionId ∨
          s'.repository.storedTotal sessionId = s.repository.storedTotal sessionId ∧
            ¬ t.operation.Awaits handle sessionId) := by
  cases h.2.1.leaves h.1 hcached with
  | fresh h => exact Or.inl h
  | kept hbefore h => exact Or.inr ⟨hbefore, h⟩
  | @copied source ht hbefore hstore =>
    left
    rw [storedTotal, hstore]
    rcases hp.cached source sessionId total hbefore with hstored | ⟨u, hu, hawaits⟩
    · exact hstored
    · rcases List.mem_append.mp hu with hu | hu
      · have hnone := hclear u (List.mem_append_left r hu)
        rw [TimedCall.Clear, ht] at hnone
        rw [hnone sessionId hawaits] at hbefore
        cases hbefore
      · rcases List.mem_cons.mp hu with rfl | hu
        · rw [ht] at hawaits
          exact absurd hawaits (Operation.not_awaits_of_ne fun _ h => (by cases h))
        · have hnone := hclear u (List.mem_append_right l hu)
          rw [TimedCall.Clear, ht] at hnone
          rw [hnone sessionId hawaits] at hbefore
          cases hbefore

theorem Coherent.step_cached {l r : List TimedCall} (hp : Coherent ⟨s, l ++ t :: r⟩)
    (h : PermittedStep s t s' t') (hclear : ∀ u ∈ l ++ r, t.Clear s u) {handle : ℕ}
    (hcached : s'.repository.cachedTotal handle sessionId = some total) :
    s'.repository.storedTotal sessionId = some total ∨
      ∃ u ∈ l ++ t' :: r, u.operation.Awaits handle sessionId := by
  rcases hp.leaves h hclear hcached with hstored | ⟨hbefore, hawaits | ⟨hsame, hnot⟩⟩
  · exact Or.inl hstored
  · exact Or.inr ⟨t', by simp, hawaits⟩
  · rcases hp.cached handle sessionId total hbefore with hstored | ⟨u, hu, hawaits⟩
    · exact Or.inl (hsame.trans hstored)
    · refine Or.inr ⟨u, ?_, hawaits⟩
      rcases List.mem_append.mp hu with hu | hu
      · exact List.mem_append_left _ hu
      · rcases List.mem_cons.mp hu with rfl | hu
        · exact absurd hawaits hnot
        · exact List.mem_append_right l (List.mem_cons_of_mem t' hu)

/-- The steps of the other calls do not spoil what a call has seen. -/
theorem Coherent.step_other {l r : List TimedCall} (hp : Coherent ⟨s, l ++ t :: r⟩)
    (h : PermittedStep s t s' t') (hclear : ∀ u ∈ l ++ r, t.Clear s u) (hu : u.Sound s) :
    u.Sound s' := by
  obtain ⟨-, hinstants, -, -⟩ := h.2
  have hlength : s'.instants.length = s.instants.length + 1 := by
    rw [hinstants, List.length_append, List.length_singleton]
  unfold TimedCall.Sound at hu ⊢
  split at hu
  · obtain ⟨hid, hsince, hread, hvalid⟩ := hu
    refine ⟨hid, by omega, hread.append hinstants (by omega), fun total htotal => ?_⟩
    rcases hp.leaves h hclear htotal with hstored | ⟨hbefore, -⟩
    · exact h.2.current.within (by omega) hstored
    · exact (hvalid total hbefore).append hinstants (by omega)
  · obtain ⟨hid, hread⟩ := hu
    exact ⟨hid, hread.append hinstants (by omega)⟩
  · exact hu.append hinstants (le_refl _)
  · trivial

theorem Timed.Current.pos (h : s.Current) : 0 < s.instants.length := by
  obtain ⟨past, hpast⟩ := h
  rw [hpast, List.length_append, List.length_singleton]
  omega

/-- A call sees a session as it is, or as it was when the call read it. -/
theorem Coherent.step_own {l r : List TimedCall} (hp : Coherent ⟨s, l ++ t :: r⟩)
    (h : PermittedStep s t s' t') (hclear : ∀ u ∈ l ++ r, t.Clear s u) : t'.Sound s' := by
  have hown : t.Sound s := hp.calls t (by simp)
  have hpos : 0 < s.instants.length := hp.current.pos
  obtain ⟨hstep, hinstants, hsince, hupTo⟩ := h.2
  obtain ⟨repository', instants'⟩ := s'
  obtain ⟨operation, since, upTo⟩ := t
  obtain ⟨operation', since', upTo'⟩ := t'
  simp only at hstep hinstants hsince hupTo
  subst hinstants hsince hupTo
  cases hstep with
  | atomic | invalidate | insert | absent | clone | clock => trivial
  | @read handle sessionId session env hhandle hget =>
    have hid : session.id = sessionId := hp.keyed sessionId session hget
    have hstored : s.repository.storedTotal sessionId = some session.streamFrames := by
      rw [storedTotal, hget, Option.map_some]
    have hsince : s.instants.length - 1 < s.instants.length := by omega
    have hlength : s.instants.length ≤ (s.instants ++ [s.repository.store]).length := by simp
    refine ⟨hid, by simp [Operation.isNew],
      (hp.current.within hsince hstored).append rfl hlength, fun total htotal => ?_⟩
    rcases hp.cached handle sessionId total htotal with hstored | ⟨u, hu, hawaits⟩
    · exact (hp.current.within hsince hstored).append rfl hlength
    · have hnone : ∀ u ∈ l ++ r, u.operation.Awaits handle sessionId →
          s.repository.cachedTotal handle sessionId = none := fun u hu => hclear u hu
      rcases List.mem_append.mp hu with hu | hu
      · rw [hnone u (List.mem_append_left r hu) hawaits] at htotal
        cases htotal
      · rcases List.mem_cons.mp hu with rfl | hu
        · exact absurd hawaits (Operation.not_awaits_of_ne fun _ h => (by cases h))
        · rw [hnone u (List.mem_append_right l hu) hawaits] at htotal
          cases htotal
  | @hit handle totalFrames sessionId session health hcached =>
    obtain ⟨hid, -, -, hvalid⟩ := hown
    rw [hid] at hcached
    exact (hvalid totalFrames hcached).append rfl (le_refl _)
  | miss =>
    obtain ⟨hid, -, hread, -⟩ := hown
    exact ⟨hid, hread.append rfl (by simp)⟩
  | cache =>
    obtain ⟨hid, hread⟩ := hown
    exact hread.append rfl (le_refl _)

theorem Coherent.step {p q : Pool Timed TimedCall} (hp : Coherent p)
    (h : Pool.Guarded TimedCall.Begins PermittedStep TimedCall.Clear p q) : Coherent q := by
  cases h with
  | @start s calls t h =>
    refine ⟨hp.current, hp.keyed, fun handle id total hcached => ?_, fun u hu => ?_⟩
    · rcases hp.cached handle id total hcached with hstored | ⟨u, hu, hawaits⟩
      · exact Or.inl hstored
      · exact Or.inr ⟨u, List.mem_append_left [t] hu, hawaits⟩
    · rcases List.mem_append.mp hu with hu | hu
      · exact hp.calls u hu
      · rw [List.mem_singleton.mp hu]
        obtain ⟨operation, since, upTo⟩ := t
        cases operation with
        | getSessionHealth handle sessionId phase =>
          cases phase with
          | called => trivial
          | _ => cases h
        | _ => trivial
  | @step s s' l r t t' h hclear =>
    refine ⟨h.2.current, h.2.1.keyed hp.keyed,
      fun handle id total hcached => hp.step_cached h hclear hcached, fun u hu => ?_⟩
    have hother : u ∈ l ++ r → u.Sound s' := fun hu => by
      refine hp.step_other h hclear (hp.calls u ?_)
      exact List.mem_append.mpr ((List.mem_append.mp hu).imp_right (List.mem_cons_of_mem t))
    rcases List.mem_append.mp hu with hu | hu
    · exact hother (List.mem_append_left r hu)
    · rcases List.mem_cons.mp hu with rfl | hu
      · exact hp.step_own h hclear
      · exact hother (List.mem_append_right l hu)

variable {store : AssocMap SessionId StreamSession} {clock : ℕ}

theorem coherent_timed (hstore : ∀ id session, store.get? id = some session → session.id = id) :
    Coherent ⟨timed store clock, []⟩ where
  current := ⟨[], rfl⟩
  keyed := hstore
  cached _ id total h := by
    obtain ⟨cached, hget, -⟩ := cachedTotal_eq_some_iff.mp h
    cases hget
  calls t ht := by cases ht

theorem coherent_of_reachable
    (hstore : ∀ id session, store.get? id = some session → session.id = id)
    {p : Pool Timed TimedCall}
    (h : ReflTransGen (Pool.Guarded TimedCall.Begins PermittedStep TimedCall.Clear)
      ⟨timed store clock, []⟩ p) : Coherent p := by
  induction h with
  | refl => exact coherent_timed hstore
  | tail _ hstep ih => exact ih.step hstep

/-- In every run whose steps leave no outdated entry behind, a call for the health of a session
reports the total that its streams had at an instant during the call. -/
theorem within_of_reachable
    (hstore : ∀ id session, store.get? id = some session → session.id = id)
    {p : Pool Timed TimedCall}
    (h : ReflTransGen (Pool.Guarded TimedCall.Begins PermittedStep TimedCall.Clear)
      ⟨timed store clock, []⟩ p)
    {t : TimedCall} (ht : t ∈ p.calls) {handle : ℕ} {sessionId : SessionId}
    {snapshot : SessionHealthSnapshot}
    (hreturned : t.operation = .getSessionHealth handle sessionId (.returned (.ok snapshot))) :
    p.shared.Within t.since t.upTo sessionId snapshot.totalFrames := by
  have hsound := (coherent_of_reachable hstore h).calls t ht
  rw [TimedCall.Sound, hreturned] at hsound
  exact hsound

section Outdated

theorem within_iff : s.Within since upTo sessionId total ↔ ∃ i < upTo, since ≤ i ∧
    (s.instants[i]?.bind fun store => store.get? sessionId).map StreamSession.streamFrames =
      some total := by
  constructor
  · rintro ⟨i, store, session, hsince, hupTo, hi, hget, htotal⟩
    refine ⟨i, hupTo, hsince, ?_⟩
    rw [hi, Option.bind_some, hget, Option.map_some, htotal]
  · rintro ⟨i, hupTo, hsince, h⟩
    obtain ⟨session, hsession, htotal⟩ := Option.map_eq_some_iff.mp h
    obtain ⟨store, hi, hget⟩ := Option.bind_eq_some_iff.mp hsession
    exact ⟨i, store, session, hsince, hupTo, hi, hget, htotal⟩

instance : Decidable (s.Within since upTo sessionId total) := decidable_of_iff _ within_iff.symm

def Timed.next (s : Timed) (repository : GatInMemoryStreamRepository) : Timed :=
  ⟨repository, s.instants ++ [repository.store]⟩

def TimedCall.next (t : TimedCall) (s : Timed) (operation : Operation) : TimedCall :=
  ⟨operation, if t.operation.isNew then s.instants.length - 1 else t.since, s.instants.length⟩

theorem timedStep_next {repository : GatInMemoryStreamRepository} {operation : Operation}
    (h : Operation.Step s.repository t.operation repository operation) :
    TimedStep s t (s.next repository) (t.next s operation) := ⟨h, rfl, rfl, rfl⟩

def healthCall (handle : ℕ) : TimedCall := ⟨.getSessionHealth handle ⟨0⟩ .called, 0, 0⟩

/-- The health of the session is asked for, and its total cached. -/
def asked : Timed :=
  let s := timed oneSession.store 0
  let s := (s.next s.repository).next s.repository
  s.next (s.repository.cacheTotal 0 ⟨0⟩ streaming.streamFrames)

/-- Frames are generated through the repository, and its entry is dropped. -/
def Timed.generated (s : Timed) : Timed :=
  let s := (s.next s.repository).next (generating.locked s.repository).1
  s.next (s.repository.invalidateStatsCache 0 ⟨0⟩)

theorem reaches_asked : ∃ t, (∀ handle, ¬ t.operation.Awaits handle ⟨0⟩) ∧
    ReflTransGen (Pool.Guarded TimedCall.Begins PermittedStep TimedCall.Clear)
      ⟨timed oneSession.store 0, []⟩ ⟨asked, [t]⟩ := by
  let s₀ := timed oneSession.store 0
  let s₁ := s₀.next s₀.repository
  let s₂ := s₁.next s₁.repository
  let health := streaming.healthCheck sampleEnv
  let t₁ := (healthCall 0).next s₀ (.getSessionHealth 0 ⟨0⟩ (.read streaming health))
  let t₂ := t₁.next s₁ (.getSessionHealth 0 ⟨0⟩ (.missed streaming health))
  let t₃ := t₂.next s₂ (.getSessionHealth 0 ⟨0⟩
    (.returned (.ok (healthSnapshot ⟨0⟩ streaming health streaming.streamFrames))))
  have hread : TimedStep s₀ (healthCall 0) s₁ t₁ :=
    timedStep_next (.read sampleEnv (by decide) rfl)
  have hmiss : TimedStep s₁ t₁ s₂ t₂ := timedStep_next (.miss rfl)
  have hcache : TimedStep s₂ t₂ asked t₃ := timedStep_next .cache
  have hstored : s₂.repository.storedTotal streaming.id = some streaming.streamFrames := by
    decide +kernel
  refine ⟨t₃, fun handle => Operation.not_awaits_of_ne fun _ h => (by cases h), ?_⟩
  refine .head (.start (show (healthCall 0).Begins from rfl)) ?_
  refine .head (.step (l := []) ⟨trivial, hread⟩ (by simp)) ?_
  refine .head (.step (l := []) ⟨trivial, hmiss⟩ (by simp)) ?_
  exact .single (.step (l := []) ⟨hstored, hcache⟩ (by simp))

def generateCall : TimedCall := ⟨.atomic { generating with phase := .called }, 0, 0⟩

def generatedCall (s : Timed) (result : Value × List DomainEvent) : TimedCall :=
  ⟨.atomic { generating with phase := .returned (.ok result) }, s.instants.length - 1,
    s.instants.length + 2⟩

theorem not_awaits_generatedCall (s : Timed) (result : Value × List DomainEvent) (handle : ℕ)
    (id : SessionId) : ¬ (generatedCall s result).operation.Awaits handle id := by
  rintro ⟨request, value, events, -, h⟩
  cases h

def Phase.isUpdated : Phase → Bool
  | .updated _ _ => true
  | _ => false

theorem Phase.exists_of_isUpdated {phase : Phase} (h : phase.isUpdated = true) :
    ∃ value events, phase = .updated value events := by
  cases phase with
  | updated value events => exact ⟨value, events, rfl⟩
  | _ => cases h

/-- The three steps of the call for the frames. -/
theorem exists_generated (hget : s.repository.store.get? ⟨0⟩ = some streaming)
    (hclones : 0 < s.repository.clones)
    (hupdated : (generating.locked s.repository).2.phase.isUpdated = true) :
    ∃ t₁ t₂ result, t₁.operation = .atomic generating ∧
      TimedStep s generateCall (s.next s.repository) t₁ ∧
      TimedStep (s.next s.repository) t₁
        ((s.next s.repository).next (generating.locked s.repository).1) t₂ ∧
      (∃ value events, t₂.operation =
        .atomic { generating with phase := .updated value events }) ∧
      TimedStep ((s.next s.repository).next (generating.locked s.repository).1) t₂ s.generated
        (generatedCall s result) := by
  obtain ⟨value, events, hphase⟩ := Phase.exists_of_isUpdated hupdated
  let s₁ := s.next s.repository
  let s₂ := s₁.next (generating.locked s.repository).1
  let t₁ := generateCall.next s (.atomic generating)
  let t₂ := t₁.next s₁ (.atomic { generating with phase := .updated value events })
  have hlength : s₂.instants.length = s.instants.length + 2 := by
    simp [s₂, s₁, Timed.next]
  have hextract : TimedStep s generateCall s₁ t₁ :=
    timedStep_next (.atomic hclones (.extractPatches hget rfl))
  have hupdate : AtomicCall.Step s.repository generating (generating.locked s.repository).1
      { generating with phase := .updated value events } := by
    rw [← hphase]
    refine .update sampleEnv rfl ?_
    intro session hsession
    obtain rfl := Option.some.inj (hget.symm.trans hsession)
    decide +kernel
  refine ⟨t₁, t₂, (value, events), rfl, hextract, timedStep_next (.atomic hclones hupdate),
    ⟨value, events, rfl⟩, ?_, rfl, rfl, hlength.symm⟩
  have hkept : (generating.locked s.repository).1.clones = s.repository.clones := by
    simp only [AtomicCall.locked, atomicSessionUpdate]
    split
    · rfl
    · split <;> rfl
  exact .atomic (hclones.trans_eq hkept.symm) .invalidate

theorem reaches_generated : ∃ t result, (∀ handle, ¬ t.operation.Awaits handle ⟨0⟩) ∧
    ReflTransGen (Pool.Guarded TimedCall.Begins PermittedStep TimedCall.Clear)
      ⟨timed oneSession.store 0, []⟩ ⟨asked.generated, [t, generatedCall asked result]⟩ := by
  obtain ⟨t, ht, hreach⟩ := reaches_asked
  obtain ⟨t₁, t₂, result, ht₁, hextract, hupdate, ⟨value, events, ht₂⟩, hinvalidate⟩ :=
    exists_generated (s := asked) rfl (by decide) (by decide +kernel)
  have hextract : PermittedStep asked generateCall (asked.next asked.repository) t₁ :=
    ⟨fun h => absurd rfl h, hextract⟩
  have hpermits : t₁.operation.Permits (asked.next asked.repository).repository
      (generating.locked asked.repository).1 := by
    rw [ht₁]
    intro _ handle hne
    have hempty : (asked.next asked.repository).repository.statsCache handle = .empty :=
      Function.update_of_ne hne _ _
    rw [cachedTotal, hempty]
    rfl
  have hkept : t₂.operation.Permits (generating.locked asked.repository).1
      asked.generated.repository := by
    rw [ht₂]
    exact fun h => absurd rfl h
  have hclear : ∀ {s : Timed} {v : TimedCall} {c : AtomicCall}, v.operation = .atomic c →
      ∀ u : TimedCall, v.Clear s u := by
    intro s v c hv u
    rw [TimedCall.Clear, hv]
    trivial
  refine ⟨t, result, ht, hreach.trans ?_⟩
  refine .head (.start (show generateCall.Begins from rfl)) ?_
  refine .head (.step (l := [t]) hextract fun u _ => hclear rfl u) ?_
  refine .head (.step (l := [t]) ⟨hpermits, hupdate⟩ fun u _ => hclear ht₁ u) ?_
  exact .single (.step (l := [t]) ⟨hkept, hinvalidate⟩ fun u _ => hclear ht₂ u)

theorem keyed_oneSession : ∀ id session, oneSession.store.get? id = some session →
    session.id = id := by
  intro id session hget
  change (AssocMap.empty.insert ⟨0⟩ streaming).get? id = some session at hget
  rw [AssocMap.get?_insert] at hget
  split_ifs at hget with hid
  · rw [← Option.some.inj hget, hid]
    decide +kernel
  · cases hget

theorem exists_stored (repository : GatInMemoryStreamRepository)
    (h : ((repository.store.get? ⟨0⟩).map fun session => (session.id, session.streamFrames)) =
      some (⟨0⟩, 2)) : ∃ session, repository.store.get? ⟨0⟩ = some session ∧
    session.id = ⟨0⟩ ∧ session.streamFrames = 2 := by
  obtain ⟨session, hget, hpair⟩ := Option.map_eq_some_iff.mp h
  exact ⟨session, hget, congrArg Prod.fst hpair, congrArg Prod.snd hpair⟩

/-- The health is asked for again, and its total computed anew. -/
theorem within_of_reachable_generated : ∃ (s : Timed) (t : TimedCall)
    (snapshot : SessionHealthSnapshot),
    t.operation = .getSessionHealth 0 ⟨0⟩ (.returned (.ok snapshot)) ∧
    snapshot.totalFrames = 2 ∧ s.Within t.since t.upTo ⟨0⟩ snapshot.totalFrames := by
  obtain ⟨t, result, ht, hreach⟩ := reaches_generated
  obtain ⟨session, hget, hid, htotal⟩ :=
    exists_stored asked.generated.repository (by decide +kernel)
  let s₀ := asked.generated
  let s₁ := s₀.next s₀.repository
  let s₂ := s₁.next s₁.repository
  let s₃ := s₂.next (s₂.repository.cacheTotal 0 session.id session.streamFrames)
  let health := session.healthCheck sampleEnv
  let snapshot := healthSnapshot ⟨0⟩ session health session.streamFrames
  let t₁ := (healthCall 0).next s₀ (.getSessionHealth 0 ⟨0⟩ (.read session health))
  let t₂ := t₁.next s₁ (.getSessionHealth 0 ⟨0⟩ (.missed session health))
  let t₃ := t₂.next s₂ (.getSessionHealth 0 ⟨0⟩ (.returned (.ok snapshot)))
  have hread : TimedStep s₀ (healthCall 0) s₁ t₁ :=
    timedStep_next (.read sampleEnv (by decide +kernel) hget)
  have hmiss : TimedStep s₁ t₁ s₂ t₂ := by
    refine timedStep_next (.miss ?_)
    rw [hid]
    decide +kernel
  have hcache : TimedStep s₂ t₂ s₃ t₃ := timedStep_next .cache
  have hstored : s₂.repository.storedTotal session.id = some session.streamFrames := by
    rw [hid, storedTotal]
    exact congrArg (Option.map StreamSession.streamFrames) hget
  have hclear : ∀ u ∈ [t, generatedCall asked result] ++ [], (healthCall 0).Clear s₀ u := by
    intro u hu hawaits
    rcases List.mem_cons.mp hu with rfl | hu
    · exact absurd hawaits (ht 0)
    · rw [List.mem_singleton.mp hu] at hawaits
      exact absurd hawaits (not_awaits_generatedCall asked result 0 ⟨0⟩)
  have hlast : ReflTransGen (Pool.Guarded TimedCall.Begins PermittedStep TimedCall.Clear)
      ⟨s₀, [t, generatedCall asked result]⟩ ⟨s₃, [t, generatedCall asked result, t₃]⟩ := by
    refine .head (.start (show (healthCall 0).Begins from rfl)) ?_
    refine .head (.step (l := [t, generatedCall asked result]) ⟨trivial, hread⟩ hclear) ?_
    refine .head (.step (l := [t, generatedCall asked result]) ⟨trivial, hmiss⟩
      fun _ _ => trivial) ?_
    exact .single (.step (l := [t, generatedCall asked result]) ⟨hstored, hcache⟩
      fun _ _ => trivial)
  exact ⟨s₃, t₃, snapshot, rfl, htotal,
    within_of_reachable keyed_oneSession (hreach.trans hlast) (by simp) rfl⟩

/-- The repository is cloned with its entry, which only the clone it is a copy of drops when
frames are generated there. -/
def cloned : Timed := asked.next (asked.repository.clone 0)

theorem reaches_cloned : ∃ t u result,
    ReflTransGen (Pool.Step TimedCall.Begins TimedStep)
      ⟨timed oneSession.store 0, []⟩ ⟨cloned.generated, [t, u, generatedCall cloned result]⟩ := by
  obtain ⟨t, -, hreach⟩ := reaches_asked
  obtain ⟨t₁, t₂, result, -, hextract, hupdate, -, hinvalidate⟩ :=
    exists_generated (s := cloned) rfl (by decide) (by decide +kernel)
  let u : TimedCall := ⟨.clone 0 none, 0, 0⟩
  let u' := u.next asked (.clone 0 (some 1))
  have hclone : TimedStep asked u cloned u' := timedStep_next (.clone (by decide))
  have hbefore : ReflTransGen (Pool.Step TimedCall.Begins TimedStep)
      ⟨timed oneSession.store 0, []⟩ ⟨asked, [t]⟩ :=
    ReflTransGen.mono (fun _ _ h => h.unguarded.mono (fun _ => id) And.right) _ _ hreach
  refine ⟨t, u', result, hbefore.trans ?_⟩
  refine .head (.start (show u.Begins from rfl)) ?_
  refine .head (.step (l := [t]) hclone) ?_
  refine .head (.start (show generateCall.Begins from rfl)) ?_
  refine .head (.step (l := [t, u']) hextract) ?_
  refine .head (.step (l := [t, u']) hupdate) ?_
  exact .single (.step (l := [t, u']) hinvalidate)

/-- Through the other clone the health of the session still has the total before the frames. -/
theorem not_within_of_reachable : ∃ (p : Pool Timed TimedCall) (t u : TimedCall)
    (snapshot : SessionHealthSnapshot) (result : Value × List DomainEvent),
    ReflTransGen (Pool.Step TimedCall.Begins TimedStep) ⟨timed oneSession.store 0, []⟩ p ∧
    t ∈ p.calls ∧ t.operation = .getSessionHealth 1 ⟨0⟩ (.returned (.ok snapshot)) ∧
    u ∈ p.calls ∧
    u.operation = .atomic { generating with phase := .returned (.ok result) } ∧
    u.upTo ≤ t.since ∧ ¬ p.shared.Within t.since t.upTo ⟨0⟩ snapshot.totalFrames := by
  obtain ⟨t, u, result, hreach⟩ := reaches_cloned
  obtain ⟨session, hget, hid, -⟩ :=
    exists_stored cloned.generated.repository (by decide +kernel)
  have hcached : cloned.generated.repository.cachedTotal 1 session.id = some 0 := by
    rw [hid]
    decide +kernel
  let s₀ := cloned.generated
  let s₁ := s₀.next s₀.repository
  let s₂ := s₁.next s₁.repository
  let health := session.healthCheck sampleEnv
  let snapshot := healthSnapshot ⟨0⟩ session health 0
  let t₁ := (healthCall 1).next s₀ (.getSessionHealth 1 ⟨0⟩ (.read session health))
  let t₂ := t₁.next s₁ (.getSessionHealth 1 ⟨0⟩ (.returned (.ok snapshot)))
  have hread : TimedStep s₀ (healthCall 1) s₁ t₁ :=
    timedStep_next (.read sampleEnv (by decide +kernel) hget)
  have hhit : TimedStep s₁ t₁ s₂ t₂ := timedStep_next (.hit hcached)
  refine ⟨⟨s₂, [t, u, generatedCall cloned result, t₂]⟩, t₂, generatedCall cloned result, snapshot,
    result, hreach.trans ?_, by simp, rfl, by simp, rfl, ?_, ?_⟩
  · refine .head (.start (show (healthCall 1).Begins from rfl)) ?_
    refine .head (.step (l := [t, u, generatedCall cloned result]) hread) ?_
    exact .single (.step (l := [t, u, generatedCall cloned result]) hhit)
  · change cloned.instants.length + 2 ≤ s₀.instants.length - 1
    decide +kernel
  · change ¬ s₂.Within (s₀.instants.length - 1) s₁.instants.length ⟨0⟩ 0
    decide +kernel

end Outdated

end Runs

end GatInMemoryStreamRepository

end PJS
