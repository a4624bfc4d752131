import PJS.FrameStore.Delivery
import PJS.Publisher.Reports
import PJS.Session.Numbering

/-! Where the frames of a stream are: a frame that an operation has committed is with the handler
that asked for it, or was appended, and that once. The committed frames of a stream are numbered
without gaps, whatever handlers run at the same time. -/
namespace PJS.SessionCommandHandler

open Relation GatInMemoryStreamRepository

/-- The frames of a stream that the operations on a session have committed, in their order. -/
def Service.committed (s : Service) (sessionId : SessionId) (streamId : StreamId) : List Frame :=
  (s.sessions.entries sessionId).flatMap fun e => share e.request (framesOf e.value) streamId

/-- Committed frames are numbered from 1 on, without gaps, and set leaves of the data of their
stream. -/
structure Service.Issued (s : Service) : Prop where
  numbered : ∀ id streamId, (s.committed id streamId).map Frame.sequence =
    List.range' 1 (s.committed id streamId).length
  next : ∀ id session, s.sessions.repository.store.get? id = some session →
    ∀ streamId stream, session.streams.get? streamId = some stream →
      stream.nextSequence = (s.committed id streamId).length + 1
  issued : ∀ id streamId, ∀ frame ∈ s.committed id streamId, frame.streamId = streamId ∧
    ∃ session, s.sessions.repository.store.get? id = some session ∧
      streamId ∈ session.streams.keys ∧ session.Genuine streamId frame

section UnderLock
variable {session m : StreamSession} {env : SessionEnv} {c : AtomicCall} {value : Value}
  {f : StreamSession → DomainResult Value × StreamSession}

theorem advances_of_underLock (hk : WellKeyed session.streams)
    (hlock : c.request.underLock env c.phase = some f) (hfresh : env.uuid ∉ session.streams.keys)
    (hf : f session = (.ok value, m)) : Advances session.streams (framesOf value) m.streams := by
  obtain ⟨handle, sessionId, request, phase⟩ := c
  cases request with
  | createStream sourceData config =>
    cases phase <;> cases hlock
    obtain ⟨streamId, hr, rfl⟩ := returns_eq_ok hf
    have htook := StreamSession.took_of_eq_ok
      (session.createStreamWithConfig_cases env sourceData config) hr
    refine htook.advances (fun id hid => ?_) (by simp) (by simp)
    cases hid
    exact hfresh
  | startStream streamId =>
    cases phase <;> cases hlock
    obtain ⟨⟨⟩, hr, rfl⟩ := returns_eq_ok hf
    have htook := StreamSession.took_of_eq_ok (session.startStream_cases env streamId) hr
    exact htook.advances (by simp) (by simp) (by simp)
  | completeStream streamId =>
    cases phase <;> cases hlock
    obtain ⟨⟨⟩, hr, rfl⟩ := returns_eq_ok hf
    have htook := StreamSession.took_of_eq_ok (session.completeStream_cases env streamId) hr
    exact htook.advances (by simp) (by simp) (by simp)
  | createStreamPatchFrames streamId priorityThreshold maxFrames =>
    cases phase with
    | extractedPatches snapshot patches =>
      cases hlock
      obtain ⟨frames, hr, rfl⟩ := returns_eq_ok hf
      exact StreamSession.commitPatchFramesForStream_advances hk hr
    | _ => cases hlock
  | batchGenerateFrames priorityThreshold maxFrames =>
    cases phase with
    | extractedStreams snapshot extracted =>
      cases hlock
      obtain ⟨frames, hr, rfl⟩ := returns_eq_ok hf
      exact StreamSession.commitPriorityFrames_advances hk hr
    | _ => cases hlock
  | closeSession =>
    cases phase <;> cases hlock
    obtain ⟨⟨⟩, hr, rfl⟩ := returns_eq_ok hf
    have htook := StreamSession.took_of_eq_ok ((session.close_cases env).imp_left And.right) hr
    exact htook.advances (by simp) (by simp) (by simp)

/-- A stream that had `n` frames gives the next ones the numbers after `n`. -/
theorem numbered_of_committed (h : Committed session c.request value m)
    (hadvances : Advances session.streams (framesOf value) m.streams) {streamId : StreamId} {n : ℕ}
    (hn : ∀ stream, session.streams.get? streamId = some stream → stream.nextSequence = n + 1)
    (hnone : session.streams.get? streamId = none → n = 0) :
    let frames := share c.request (framesOf value) streamId
    frames.map Frame.sequence = List.range' (1 + n) frames.length ∧
      ∀ stream, m.streams.get? streamId = some stream →
        stream.nextSequence = n + frames.length + 1 := by
  intro frames
  have hframes : frames = (framesOf value).filter fun f => f.streamId = streamId :=
    h.share_eq streamId
  refine ⟨?_, fun stream' hget => ?_⟩
  · by_cases hnil : frames = []
    · rw [hnil]
      rfl
    obtain ⟨stream', hget⟩ := AssocMap.mem_keys_iff.mp (mem_keys_of_committed h hnil)
    rcases hadvances streamId stream' hget with ⟨stream, hstream, hnext⟩ | ⟨-, -, hempty⟩
    · rw [← hframes, hn stream hstream] at hnext
      have hordered : (frames.map Frame.sequence).Pairwise (· < ·) := by
        rw [List.pairwise_map, hframes]
        exact h.numbers.ordered streamId
      have hrange : ∀ x ∈ frames.map Frame.sequence,
          1 + n ≤ x ∧ x < 1 + n + (frames.map Frame.sequence).length := by
        intro x hx
        obtain ⟨frame, hframe, rfl⟩ := List.mem_map.mp hx
        rw [hframes] at hframe
        obtain ⟨hmem, hid⟩ := List.mem_filter.mp hframe
        obtain rfl := of_decide_eq_true hid
        have hbetween := h.numbers.range frame hmem
        rw [nextSequenceOf, nextSequenceOf, hstream, hget] at hbetween
        simp only [Option.map_some, Option.getD_some] at hbetween
        rw [hn stream hstream, hnext] at hbetween
        rw [List.length_map]
        omega
      have hall := Lists.eq_range'_of_pairwise hordered hrange
      rwa [List.length_map] at hall
    · exact absurd (hframes.trans hempty) hnil
  · rcases hadvances streamId stream' hget with ⟨stream, hstream, hnext⟩ | ⟨habsent, hnext, hempty⟩
    · rw [← hframes, hn stream hstream] at hnext
      omega
    · rw [hnext, hframes, hempty, hnone habsent]
      rfl

end UnderLock

section Issued
variable {s s' : Service} {t t' : Handling}

theorem committed_of_journal {sessions' : Journaled} (h : sessions'.journal = s.sessions.journal)
    (id : SessionId) (streamId : StreamId) :
    Service.committed { s with sessions := sessions' } id streamId = s.committed id streamId := by
  rw [Service.committed, Service.committed, Journaled.entries, Journaled.entries, h]

theorem committed_append {sessions' : Journaled} {e : Entry}
    (h : sessions'.journal = s.sessions.journal ++ [e]) (id : SessionId) (streamId : StreamId) :
    Service.committed { s with sessions := sessions' } id streamId = s.committed id streamId ++
      if e.sessionId = id then share e.request (framesOf e.value) streamId else [] := by
  rw [Service.committed, entries_append sessions' h, List.flatMap_append]
  by_cases hid : e.sessionId = id <;> simp [hid, Service.committed]

/-- A snapshot is a session of the past. -/
theorem continues_of_relies {c : AtomicCall} (hs : Handling.Accounts s)
    (hc : Handling.Relies s (.calling c)) {session : StreamSession}
    (hget : s.sessions.repository.store.get? c.sessionId = some session) :
    ∀ past, c.snapshot = some past → past.Continues session := by
  intro past hpast
  obtain ⟨⟨first, events⟩, hopened⟩ :=
    Option.isSome_iff_exists.mp (Handling.isSome_opened hs hget)
  have hfirst : (s.opened.mapVal Prod.fst).get? c.sessionId = some first := by
    rw [AssocMap.get?_mapVal, hopened, Option.map_some]
  obtain ⟨raised, current, hcurrent, -, hcontinues⟩ := hs.faithful.replay c.sessionId first hfirst
  obtain rfl : session = current := Option.some.inj (hget.symm.trans hcurrent)
  exact hcontinues past (hc.1.past past hpast first hfirst)

theorem issued_repository {c c' : AtomicCall} {sessions' : Journaled} (hs : Handling.Accounts s)
    (hb : s.Booked) (hc : Handling.Relies s (.calling c)) (hi : s.Issued)
    (h : JournaledStep s.sessions c sessions' c') :
    Service.Issued { s with sessions := sessions' } := by
  obtain ⟨-, -, heffect⟩ := h.1.effect
  cases heffect with
  | quiet hstore hsucceeded hphase =>
    have hcommitted := committed_of_journal (s := s) (journal_of_quiet h hphase)
    constructor
    · simpa only [hcommitted] using hi.numbered
    · simpa only [hcommitted, hstore] using hi.next
    · simpa only [hcommitted, hstore] using hi.issued
  | @took env f session m value hlock hget hfresh hf hmutates hstore hbefore hphase =>
    have happend := committed_append (s := s) (journal_of_took h hstore hphase)
    have hkeyed := (hb.known _ session hget).2.2
    have hcommits := committed_of_underLock hkeyed hlock hc.1.extracted hfresh hf
    have hgenuine := Task.genuine_of_underLock hkeyed hlock hc.1.extracted
      (continues_of_relies hs hc hget) hf
    have hcontinues : session.Continues m.takeEvents.2 := continues_takeEvents hmutates.continues
    have hnumbers := fun streamId => numbered_of_committed hcommits
      (advances_of_underLock hkeyed hlock hfresh hf) (hi.next _ session hget streamId)
      fun hnone => List.length_eq_zero_iff.mpr (List.eq_nil_iff_forall_not_mem.mpr
        fun frame hframe => by
          obtain ⟨-, session', hget', hmem, -⟩ := hi.issued _ streamId frame hframe
          obtain rfl : session = session' := Option.some.inj (hget.symm.trans hget')
          obtain ⟨stream, hstream⟩ := AssocMap.mem_keys_iff.mp hmem
          rw [hnone] at hstream
          cases hstream)
    refine ⟨fun id streamId => ?_, fun id session' hget' streamId stream hstream => ?_,
      fun id streamId frame hframe => ?_⟩
    · rw [happend]
      split_ifs with hid
      · obtain rfl : c.sessionId = id := hid
        rw [List.map_append, List.length_append, hi.numbered, (hnumbers streamId).1,
          List.range'_append_1]
      · rw [List.append_nil]
        exact hi.numbered id streamId
    · rw [hstore, AssocMap.get?_insert] at hget'
      rw [happend]
      split_ifs at hget' with hid
      · obtain rfl : m.takeEvents.2 = session' := Option.some.inj hget'
        rw [hid, if_pos rfl, List.length_append]
        exact (hnumbers streamId).2 stream hstream
      · rw [if_neg (Ne.symm hid), List.append_nil]
        exact hi.next id session' hget' streamId stream hstream
    · rw [happend] at hframe
      rw [hstore, AssocMap.get?_insert]
      rcases List.mem_append.mp hframe with hold | hnew
      · obtain ⟨hid, session', hget', hmem, hcarries⟩ := hi.issued id streamId frame hold
        refine ⟨hid, ?_⟩
        split_ifs with heq
        · obtain rfl : session' = session := by
            rw [heq, hget] at hget'
            exact (Option.some.inj hget').symm
          obtain ⟨stream, hstream⟩ := AssocMap.mem_keys_iff.mp hmem
          obtain ⟨stream', hstream', -⟩ := hcontinues.exists_stream hstream
          exact ⟨_, rfl, AssocMap.mem_keys_iff.mpr ⟨stream', hstream'⟩,
            hcarries.continues hcontinues⟩
        · exact ⟨session', hget', hmem, hcarries⟩
      · split_ifs at hnew with heq
        · obtain rfl : c.sessionId = id := heq
          have hid : frame.streamId = streamId := by
            rw [hcommits.share_eq] at hnew
            exact of_decide_eq_true (List.mem_filter.mp hnew).2
          rw [if_pos rfl]
          exact ⟨hid, _, rfl, mem_keys_of_committed hcommits (List.ne_nil_of_mem hnew),
            (hgenuine streamId frame hnew).continues hcontinues⟩
        · cases hnew

theorem Handling.Step.issued (hs : Handling.Accounts s) (hb : s.Booked)
    (ht : Handling.Relies s t) (hc : Handling.Carries s t) (hi : s.Issued)
    (h : Handling.Step s t s' t') : s'.Issued := by
  cases h with
  | repository h => exact issued_repository hs hb ht hi h
  | @save handle session events hid =>
    have hother : ∀ id session', s.sessions.repository.store.get? id = some session' →
        (s.sessions.repository.store.insert session.id session).get? id = some session' := by
      intro id session' hget
      rw [AssocMap.get?_insert, if_neg, hget]
      rintro rfl
      rw [hid] at hget
      cases hget
    refine ⟨hi.numbered, fun id session' hget streamId stream hstream => ?_,
      fun id streamId frame hframe => ?_⟩
    · change (s.sessions.repository.store.insert session.id session).get? id = some session'
        at hget
      rw [AssocMap.get?_insert] at hget
      split_ifs at hget
      · obtain rfl : session = session' := Option.some.inj hget
        rw [hc.2] at hstream
        cases hstream
      · exact hi.next id session' hget streamId stream hstream
    · obtain ⟨hstream, session', hget, hcarries⟩ := hi.issued id streamId frame hframe
      exact ⟨hstream, session', hother id session' hget, hcarries⟩
  | publish => exact ⟨hi.numbered, hi.next, hi.issued⟩
  | activate | inactive | taken | refuse => exact hi

end Issued

/-- The frames of a stream that the handlers of a session have appended to its history. -/
def appendedBy (appends : List Appended) (sessionId : SessionId) (streamId : StreamId) :
    List Frame :=
  appendedTo (appends.filter fun a => a.sessionId = sessionId) streamId

theorem appendedBy_concat (appends : List Appended) (a : Appended) (sessionId : SessionId)
    (streamId : StreamId) : appendedBy (appends ++ [a]) sessionId streamId =
      appendedBy appends sessionId streamId ++
        if a.sessionId = sessionId ∧ a.streamId = streamId then a.frames else [] := by
  rw [appendedBy, List.filter_append, List.filter_singleton]
  by_cases hid : a.sessionId = sessionId
  · simp only [hid, decide_true, cond_true, true_and]
    exact appendedTo_concat a streamId
  · simp [hid, appendedBy]

/-- What was appended to a history was appended for one session, if no other has the stream. -/
theorem appendedBy_eq {appends : List Appended} {sessionId : SessionId} {streamId : StreamId}
    (h : ∀ a ∈ appends, a.frames ≠ [] → a.streamId = streamId → a.sessionId = sessionId) :
    appendedBy appends sessionId streamId = appendedTo appends streamId := by
  induction appends using List.reverseRecOn with
  | nil => rfl
  | append_singleton appends a ih =>
    rw [appendedBy_concat, appendedTo_concat, ih fun a' ha' => h a' (List.mem_append_left _ ha')]
    congr 1
    by_cases hid : a.streamId = streamId
    · by_cases hframes : a.frames = []
      · simp [hframes]
      · simp [h a (by simp) hframes hid, hid]
    · simp [hid]

namespace Serving

/-- The frames of a stream that a handler of the session has committed and not appended. -/
def holds (sessionId : SessionId) (streamId : StreamId) : Serving → List Frame
  | .handling (.calling c) => (c.succeeded.map fun o =>
      if o.sessionId = sessionId then share o.request (framesOf o.value) streamId else []).getD []
  | .handling _ => []
  | .announcing id request frames _ => if id = sessionId then share request frames streamId else []
  | .appending id groups _ => if id = sessionId then ofStream groups streamId else []

section Step
variable {s s' : Server} {t t' : Serving} {sessionId : SessionId} {streamId : StreamId}

theorem holds_of_begins (h : t.Begins) : t.holds sessionId streamId = [] := by
  cases t with
  | handling t =>
    cases t with
    | calling c => rw [holds, AtomicCall.succeeded, show c.phase = _ from h]; rfl
    | opening => rfl
    | _ => exact h.elim
  | _ => exact h.elim

theorem holds_of_ended (h : t.Ended) : t.holds sessionId streamId = [] := by
  cases t with
  | handling t =>
    cases t with
    | publishing | refused => rfl
    | _ => exact h.elim
  | announcing => exact h.elim
  | appending id groups call =>
    cases groups with
    | nil => exact ite_self []
    | cons => exact h.elim

/-- A handler gets what is committed, and gives up what is appended. -/
theorem Step.holds (sessionId : SessionId) (streamId : StreamId) (h : Step s t s' t') :
    (t'.holds sessionId streamId : Multiset Frame) + appendedBy s'.appends sessionId streamId +
        s.service.committed sessionId streamId =
      (t.holds sessionId streamId : Multiset Frame) + appendedBy s.appends sessionId streamId +
        s'.service.committed sessionId streamId := by
  cases h with
  | handle h hgenerated =>
    cases h with
    | @repository c c' sessions' h =>
      obtain ⟨hid, hrequest, heffect⟩ := h.1.effect
      cases heffect with
      | quiet hstore hsucceeded hphase =>
        rw [Serving.holds, Serving.holds, hsucceeded,
          committed_of_journal (journal_of_quiet h hphase)]
      | @took env f session m value hlock hget hfresh hf hmutates hstore hbefore hphase =>
        have hafter : c'.succeeded = some ⟨c.sessionId, c.request, value, m.pendingEvents⟩ := by
          rw [AtomicCall.succeeded, hphase, hid, hrequest]
        rw [Serving.holds, Serving.holds, hafter, hbefore,
          committed_append (journal_of_took h hstore hphase), ← Multiset.coe_add]
        simp only [Option.map_some, Option.map_none, Option.getD_some, Option.getD_none,
          Multiset.coe_nil, zero_add]
        rw [add_comm (Multiset.ofList _), add_right_comm, add_assoc]
    | @taken handle id request value events =>
      have hvalue : framesOf value = [] := by
        cases value with
        | frames frames => exact absurd trivial hgenerated
        | _ => rfl
      simp [Serving.holds, AtomicCall.succeeded, hvalue, share_nil]
    | activate | inactive | save | refuse | publish => rfl
  | generated => rfl
  | publish => rfl
  | published hdone h =>
    rw [Serving.holds, Serving.holds, ofStream_of_groups h]
  | @append id streamId' group groups call =>
    rw [Serving.holds, Serving.holds, appendedBy_concat, ofStream_cons]
    by_cases hid : id = sessionId
    · by_cases hstream : streamId' = streamId
      · simp only [hid, hstream, if_true, and_self]
        rw [← Multiset.coe_add, ← Multiset.coe_add, add_comm (group : Multiset Frame),
          add_comm (appendedBy _ _ _ : Multiset Frame), ← add_assoc]
      · simp [hid, hstream]
    · simp [hid]

end Step

section Runs
variable {clock maxFramesPerStream : ℕ} {p : Pool Server Serving}

theorem issued_of_reachable
    (h : ReflTransGen (Pool.Step Begins Step) (idle clock maxFramesPerStream) p) :
    p.shared.service.Issued := by
  induction h with
  | refl =>
    exact ⟨fun _ _ => rfl, fun _ _ hget => (by cases hget), fun _ _ _ hframe => (by cases hframe)⟩
  | tail hreach hstep ih =>
    cases hstep with
    | start => exact ih
    | @step s s' l r t t' h =>
      obtain ⟨⟨haccounts, hkept⟩, hcalls, -⟩ := holds_of_reachable hreach
      obtain ⟨hrelies, hcarries⟩ := hcalls t (by simp)
      cases h with
      | handle h => exact h.issued haccounts hkept.booked hrelies hcarries ih
      | publish => exact ⟨ih.numbered, ih.next, ih.issued⟩
      | generated | published | append => exact ih

/-- What the handlers hold and what they have appended is what was committed. -/
theorem custody_of_reachable (sessionId : SessionId) (streamId : StreamId)
    (h : ReflTransGen (Pool.Step Begins Step) (idle clock maxFramesPerStream) p) :
    (p.calls.map fun t => (t.holds sessionId streamId : Multiset Frame)).sum +
      appendedBy p.shared.appends sessionId streamId =
        (p.shared.service.committed sessionId streamId : Multiset Frame) := by
  induction h with
  | refl => rfl
  | tail hreach hstep ih =>
    refine Pool.sum_step (fun t : Serving => (t.holds sessionId streamId : Multiset Frame))
      (fun (s : Server) held => held + appendedBy s.appends sessionId streamId =
        (s.service.committed sessionId streamId : Multiset Frame)) (fun t ht => ?_)
      (fun s t s' t' rest _ _ h hP => ?_) (holds_of_reachable hreach) hstep ih
    · change (t.holds sessionId streamId : Multiset Frame) = 0
      rw [holds_of_begins ht, Multiset.coe_nil]
    · have hmoved := h.holds sessionId streamId
      rw [← hP] at hmoved
      refine add_left_cancel (a := (t.holds sessionId streamId : Multiset Frame) +
        appendedBy s.appends sessionId streamId) ?_
      rw [← hmoved]
      abel

/-- The histories have what was committed, each frame at most once, and all of it when the
handlers have ended. -/
theorem appended_of_reachable {sessionId : SessionId} {streamId : StreamId}
    (h : ReflTransGen (Pool.Step Begins Step) (idle clock maxFramesPerStream) p)
    (hunique : ∀ other, other ≠ sessionId → ¬ p.shared.service.Has other streamId) :
    (appendedTo p.shared.appends streamId).Subperm (p.shared.service.committed sessionId streamId) ∧
    ((∀ t ∈ p.calls, t.Ended) →
      (appendedTo p.shared.appends streamId).Perm
        (p.shared.service.committed sessionId streamId)) := by
  obtain ⟨⟨-, hkept⟩, -⟩ := holds_of_reachable h
  have hcustody := custody_of_reachable sessionId streamId h
  have happended : appendedBy p.shared.appends sessionId streamId =
      appendedTo p.shared.appends streamId := appendedBy_eq fun a ha hne hid => by
    by_contra hother
    exact hunique a.sessionId hother (hid ▸ hkept.homed a ha hne)
  rw [happended] at hcustody
  refine ⟨?_, fun hended => ?_⟩
  · rw [← Multiset.coe_le, ← hcustody]
    exact Multiset.le_add_left _ _
  · have hnone : (p.calls.map fun t => (t.holds sessionId streamId : Multiset Frame)).sum = 0 := by
      refine List.sum_eq_zero fun m hm => ?_
      obtain ⟨t, ht, rfl⟩ := List.mem_map.mp hm
      rw [holds_of_ended (hended t ht), Multiset.coe_nil]
    rw [hnone, zero_add] at hcustody
    exact Multiset.coe_eq_coe.mp hcustody

end Runs

end Serving

end PJS.SessionCommandHandler
