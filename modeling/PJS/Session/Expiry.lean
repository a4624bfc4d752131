import PJS.Session.Accounts

/-! When a session expires. Only an extension moves the deadline, and it is refused once the
deadline has passed; so the deadline moves forward and an expired session stays expired, as long as
every extension fits both the signed seconds it is cast to and the range of dates. -/
namespace PJS

namespace DateTime

/-- So many seconds later is still a date, and the seconds survive the cast. -/
def Fits (t : DateTime) (n : UInt64) : Prop :=
  n.toNat ≤ 9223372036854775 ∧
    t.nanos + n.toNat * 1000000000 ≤ 8210266876799 * 1000000000 + 999999999

theorem toInt_toInt64 (n : UInt64) :
    n.toInt64.toInt = if n.toNat < 2 ^ 63 then (n.toNat : ℤ) else n.toNat - 2 ^ 64 := by
  have hcond : n.toInt64.toInt = _ := BitVec.toInt_eq_toNat_cond n.toBitVec
  rw [hcond]
  refine if_congr ?_ rfl rfl
  show 2 * n.toNat < 2 ^ 64 ↔ n.toNat < 2 ^ 63
  omega

theorem addSeconds?_eq_some_iff {t t' : DateTime} {s : ℤ} :
    t.addSeconds? s = some t' ↔ (-9223372036854775 ≤ s ∧ s ≤ 9223372036854775) ∧
      t'.nanos = t.nanos + s * 1000000000 := by
  unfold addSeconds?
  constructor
  · intro h
    split_ifs at h with hs hr
    cases h
    exact ⟨hs, rfl⟩
  · rintro ⟨hs, ht⟩
    have hlower := t'.lower
    have hupper := t'.upper
    rw [ht] at hlower hupper
    rw [if_pos hs, dif_pos ⟨hlower, hupper⟩]
    obtain ⟨nanos, lower, upper⟩ := t'
    cases ht
    rfl

/-- The cast seconds added to a date give the date that many seconds later just where they fit. -/
theorem addSeconds?_iff_fits (t : DateTime) (n : UInt64) :
    (∃ t', t.addSeconds? n.toInt64.toInt = some t' ∧
      t'.nanos = t.nanos + n.toNat * 1000000000) ↔ t.Fits n := by
  have hlt : n.toNat < 2 ^ 64 := n.toNat_lt
  have hlower := t.lower
  have hcast := toInt_toInt64 n
  constructor
  · rintro ⟨t', ht', hn⟩
    rw [addSeconds?_eq_some_iff] at ht'
    obtain ⟨⟨-, hs⟩, ht'⟩ := ht'
    have hupper := t'.upper
    constructor
    · split_ifs at hcast <;> omega
    · omega
  · rintro ⟨hn, hupper⟩
    rw [if_pos (by omega)] at hcast
    refine ⟨⟨t.nanos + n.toNat * 1000000000, by omega, hupper⟩, ?_, rfl⟩
    rw [addSeconds?_eq_some_iff, hcast]
    exact ⟨⟨by omega, by omega⟩, rfl⟩

end DateTime

namespace StreamSession

variable {session : StreamSession} {env : SessionEnv}

theorem expiresAt_withStream {α : Type} (id : StreamId) (f : Stream → DomainResult α × Stream) :
    (session.withStream id f).2.expiresAt = session.expiresAt := by
  unfold withStream
  split <;> rfl

theorem expiresAt_recordFrames (count bytes : ℕ) :
    (session.recordFrames env count bytes).expiresAt = session.expiresAt := by
  unfold recordFrames
  split_ifs <;> rfl

theorem expiresAt_createStream (data : DataDocument) :
    (session.createStream env data).2.expiresAt = session.expiresAt := by
  unfold createStream
  split_ifs <;> rfl

theorem expiresAt_of_withStream {α : Type} {id : StreamId} {f : Stream → DomainResult α × Stream}
    {r : DomainResult α} {session' : StreamSession} (h : session.withStream id f = (r, session')) :
    session'.expiresAt = session.expiresAt := by
  have hw : (session.withStream id f).2.expiresAt = session.expiresAt := expiresAt_withStream id f
  rwa [h] at hw

theorem expiresAt_updateStreamConfig (id : StreamId) (config : StreamConfig) :
    (session.updateStreamConfig env id config).2.expiresAt = session.expiresAt := by
  unfold updateStreamConfig
  split
  · rename_i hw
    exact expiresAt_of_withStream hw
  · rename_i hw
    have hs := expiresAt_of_withStream hw
    exact hs

theorem expiresAt_createStreamWithConfig (data : DataDocument) (config : Option StreamConfig) :
    (session.createStreamWithConfig env data config).2.expiresAt = session.expiresAt := by
  have h : (session.createStream env data).2.expiresAt = session.expiresAt :=
    expiresAt_createStream data
  unfold createStreamWithConfig
  split
  · rename_i hc
    rwa [hc] at h
  · rename_i id created hc
    rw [hc] at h
    split
    · exact h
    · rename_i config
      have hu : (created.updateStreamConfig (afterCreate env) id config).2.expiresAt =
          created.expiresAt := expiresAt_updateStreamConfig id config
      split
      · rename_i hu'
        rw [hu'] at hu
        exact hu.trans h
      · rename_i hu'
        rw [hu'] at hu
        exact hu.trans h

theorem expiresAt_startStream (id : StreamId) :
    (session.startStream env id).2.expiresAt = session.expiresAt := by
  unfold startStream
  split
  · rename_i hw
    exact expiresAt_of_withStream hw
  · rename_i hw
    have hs := expiresAt_of_withStream hw
    exact hs

theorem expiresAt_completeStream (id : StreamId) :
    (session.completeStream env id).2.expiresAt = session.expiresAt := by
  unfold completeStream
  split
  · rename_i hw
    exact expiresAt_of_withStream hw
  · rename_i hw
    have hs := expiresAt_of_withStream hw
    exact hs

theorem expiresAt_failStream (id : StreamId) (error : String) :
    (session.failStream env id error).2.expiresAt = session.expiresAt := by
  unfold failStream
  split
  · rename_i hw
    exact expiresAt_of_withStream hw
  · rename_i hw
    have hs := expiresAt_of_withStream hw
    exact hs

theorem expiresAt_commitPatchFramesForStream (id : StreamId)
    (patches : List (FramePatch × Priority)) (maxFrames : ℕ) :
    (session.commitPatchFramesForStream env id patches maxFrames).2.expiresAt = session.expiresAt := by
  unfold commitPatchFramesForStream
  split
  · rename_i hw
    exact expiresAt_of_withStream hw
  · rename_i hw
    exact (expiresAt_recordFrames _ _).trans (expiresAt_of_withStream hw)

theorem expiresAt_createStreamPatchFrames (id : StreamId) (threshold : Priority) (maxFrames : ℕ) :
    (session.createStreamPatchFrames env id threshold maxFrames).2.expiresAt =
      session.expiresAt := by
  unfold createStreamPatchFrames
  split
  · rfl
  · exact expiresAt_commitPatchFramesForStream _ _ _

theorem expiresAt_commitPriorityFrames (extracted : Extracted) (batchSize : ℕ) :
    (session.commitPriorityFrames env extracted batchSize).2.expiresAt = session.expiresAt := by
  unfold commitPriorityFrames
  split_ifs
  · rfl
  · exact expiresAt_recordFrames _ _

theorem expiresAt_close : (session.close env).2.expiresAt = session.expiresAt := by
  unfold close
  split <;> rfl

theorem expiresAt_forceCloseExpired :
    (session.forceCloseExpired env).2.expiresAt = session.expiresAt := by
  unfold forceCloseExpired
  split_ifs <;> rfl

theorem expiresAt_activate : (session.activate env).2.expiresAt = session.expiresAt := by
  unfold activate
  split <;> rfl

end StreamSession

namespace Call

variable {call : Call} {session : StreamSession}

/-- Only an extension moves the deadline, and only an extension may panic. -/
theorem run_of_ne_extendTimeout (h : ∀ n, call.op ≠ .extendTimeout n) :
    (call.run session).2.expiresAt = session.expiresAt ∧ (call.run session).1 ≠ .panic := by
  obtain ⟨env, op⟩ := call
  have hfinish : ∀ {α : Type} (f : α → Value) (r : DomainResult α × StreamSession),
      (finish f r).1 ≠ .panic := by
    intro α f r
    obtain ⟨_ | _, s⟩ := r <;> nofun
  cases op with
  | extendTimeout n => exact absurd rfl (h n)
  | activate => exact ⟨StreamSession.expiresAt_activate, hfinish _ _⟩
  | createStream data => exact ⟨StreamSession.expiresAt_createStream data, hfinish _ _⟩
  | createStreamWithConfig data config =>
    exact ⟨StreamSession.expiresAt_createStreamWithConfig data config, hfinish _ _⟩
  | updateStreamConfig id config =>
    exact ⟨StreamSession.expiresAt_updateStreamConfig id config, hfinish _ _⟩
  | startStream id => exact ⟨StreamSession.expiresAt_startStream id, hfinish _ _⟩
  | completeStream id => exact ⟨StreamSession.expiresAt_completeStream id, hfinish _ _⟩
  | failStream id error => exact ⟨StreamSession.expiresAt_failStream id error, hfinish _ _⟩
  | createStreamPatchFrames id threshold maxFrames =>
    exact ⟨StreamSession.expiresAt_createStreamPatchFrames id threshold maxFrames, hfinish _ _⟩
  | commitPatchFramesForStream id patches maxFrames =>
    exact ⟨StreamSession.expiresAt_commitPatchFramesForStream id patches maxFrames, hfinish _ _⟩
  | createPriorityFrames threshold batchSize =>
    exact ⟨StreamSession.expiresAt_commitPriorityFrames _ batchSize, hfinish _ _⟩
  | commitPriorityFrames extracted batchSize =>
    exact ⟨StreamSession.expiresAt_commitPriorityFrames extracted batchSize, hfinish _ _⟩
  | close => exact ⟨StreamSession.expiresAt_close, hfinish _ _⟩
  | forceCloseExpired => exact ⟨StreamSession.expiresAt_forceCloseExpired, hfinish _ _⟩
  | setClientInfo info agent address => exact ⟨rfl, nofun⟩
  | takeEvents => exact ⟨rfl, nofun⟩

/-- An extension of an expired session is refused. -/
theorem run_extendTimeout_of_expired {n : UInt64} (hop : call.op = .extendTimeout n)
    (he : session.isExpired (call.env.now 0) = true) :
    ∃ e, call.run session = (.err e, session) := by
  obtain ⟨env, op⟩ := call
  cases hop
  unfold run StreamSession.extendTimeout
  simp only [he, if_true]
  exact ⟨_, rfl⟩

/-- An extension of a session that is not expired does what the sum of dates does. -/
theorem run_extendTimeout {n : UInt64} (hop : call.op = .extendTimeout n)
    (he : session.isExpired (call.env.now 0) = false) :
    match session.expiresAt.addSeconds? n.toInt64.toInt with
    | some t => (call.run session).1 = .ok .unit ∧ (call.run session).2.expiresAt = t
    | none => call.run session = (.panic, session) := by
  obtain ⟨env, op⟩ := call
  cases hop
  unfold run StreamSession.extendTimeout
  simp only [he, Bool.false_eq_true, if_false]
  cases hsum : session.expiresAt.addSeconds? n.toInt64.toInt with
  | none => rfl
  | some t => exact ⟨rfl, rfl⟩

/-- The extension fails, or moves the deadline by that many seconds. -/
def ExtendsBy (call : Call) (session : StreamSession) (n : UInt64) : Prop :=
  (∃ e, (call.run session).1 = .err e ∧ (call.run session).2.expiresAt = session.expiresAt) ∨
    (call.run session).1 = .ok .unit ∧
      (call.run session).2.expiresAt.nanos = session.expiresAt.nanos + n.toNat * 1000000000

/-- An extension does so just if it is refused or fits. -/
theorem extendsBy_iff {n : UInt64} (hop : call.op = .extendTimeout n) :
    call.ExtendsBy session n ↔
      (session.isExpired (call.env.now 0) = false → session.expiresAt.Fits n) := by
  cases he : session.isExpired (call.env.now 0) with
  | true =>
    obtain ⟨e, hrun⟩ := run_extendTimeout_of_expired hop he
    constructor
    · intro _ h
      cases h
    · intro _
      exact .inl ⟨e, by rw [hrun], by rw [hrun]⟩
  | false =>
    have hrun := run_extendTimeout hop he
    rw [← DateTime.addSeconds?_iff_fits]
    cases hsum : session.expiresAt.addSeconds? n.toInt64.toInt with
    | none =>
      simp only [hsum] at hrun
      constructor
      · rintro (⟨e, hreply, -⟩ | ⟨hreply, -⟩)
        · rw [hrun] at hreply
          cases hreply
        · rw [hrun] at hreply
          cases hreply
      · intro h
        obtain ⟨t, ht, -⟩ := h rfl
        cases ht
    | some t =>
      simp only [hsum] at hrun
      obtain ⟨hreply, hexp⟩ := hrun
      constructor
      · rintro (⟨e, herr, -⟩ | ⟨-, hmoved⟩) _
        · rw [hreply] at herr
          cases herr
        · exact ⟨t, rfl, by rw [← hexp]; exact hmoved⟩
      · intro h
        obtain ⟨t', ht', hmoved⟩ := h rfl
        cases ht'
        exact .inr ⟨hreply, by rw [hexp]; exact hmoved⟩

theorem ExtendsBy.le {n : UInt64} (h : call.ExtendsBy session n) :
    session.expiresAt ≤ (call.run session).2.expiresAt := by
  rcases h with ⟨e, -, hexp⟩ | ⟨-, hexp⟩
  · exact le_of_eq (congrArg DateTime.nanos hexp).symm
  · show session.expiresAt.nanos ≤ (call.run session).2.expiresAt.nanos
    omega

/-- No call moves the deadline of a session that is expired when the call begins. -/
theorem expiresAt_run_of_expired (he : session.isExpired (call.env.now 0) = true) :
    (call.run session).2.expiresAt = session.expiresAt := by
  by_cases h : ∃ n, call.op = .extendTimeout n
  · obtain ⟨n, hop⟩ := h
    obtain ⟨e, hrun⟩ := run_extendTimeout_of_expired hop he
    rw [hrun]
  · exact (run_of_ne_extendTimeout fun n hop => h ⟨n, hop⟩).1

end Call

section Runs
open Call

/-- Every extension of the run that is not refused fits. -/
def ExtensionsFit (session : StreamSession) (calls : List Call) : Prop :=
  ∀ before call later n, calls = before ++ call :: later → call.op = .extendTimeout n →
    (after session before).isExpired (call.env.now 0) = false →
      (after session before).expiresAt.Fits n

/-- What a run promises about the deadline. The session is asked whether it is expired at `t`, before
the calls `mid`, and again at `t'`, after them; the clock does not go back. -/
structure KeepsDeadline (session : StreamSession) (calls : List Call) : Prop where
  extends_by : ∀ before call later n, calls = before ++ call :: later → call.op = .extendTimeout n →
    call.ExtendsBy (after session before) n
  no_panic : ∀ before call later, calls = before ++ call :: later →
    (call.run (after session before)).1 ≠ .panic
  mono : ∀ before mid later, calls = before ++ mid ++ later →
    (after session before).expiresAt ≤ (after session (before ++ mid)).expiresAt
  stays_expired : ∀ before mid later t t', calls = before ++ mid ++ later →
    (∀ call ∈ mid, ∀ i, t ≤ call.env.now i) → t ≤ t' →
      (after session before).isExpired t = true → (after session (before ++ mid)).isExpired t' = true

variable {session : StreamSession} {calls before mid later : List Call}

theorem ExtensionsFit.sublist (h : ExtensionsFit session calls)
    (hs : calls = before ++ mid ++ later) : ExtensionsFit (after session before) mid := by
  intro pre call post n hmid hop he
  rw [← after_append] at he ⊢
  refine h (before ++ pre) call (post ++ later) n ?_ hop he
  rw [hs, hmid]
  simp only [List.append_assoc, List.cons_append]

theorem ExtensionsFit.extendsBy (h : ExtensionsFit session calls) {call : Call} {n : UInt64}
    (hs : calls = before ++ call :: later) (hop : call.op = .extendTimeout n) :
    call.ExtendsBy (after session before) n :=
  (extendsBy_iff hop).mpr (h before call later n hs hop)

/-- One call does not move the deadline back. -/
theorem expiresAt_le_run {call : Call} (h : ExtensionsFit session (call :: calls)) :
    session.expiresAt ≤ (call.run session).2.expiresAt := by
  by_cases hop : ∃ n, call.op = .extendTimeout n
  · obtain ⟨n, hop⟩ := hop
    have hextends : call.ExtendsBy (after session []) n := h.extendsBy rfl hop
    exact hextends.le
  · have hsame := (run_of_ne_extendTimeout fun n hop' => hop ⟨n, hop'⟩ :
      (call.run session).2.expiresAt = session.expiresAt ∧ _).1
    exact le_of_eq (congrArg DateTime.nanos hsame).symm

theorem expiresAt_le_after (h : ExtensionsFit session calls) :
    session.expiresAt ≤ (after session calls).expiresAt := by
  induction calls generalizing session with
  | nil => exact le_refl session.expiresAt.nanos
  | cons call calls ih =>
    have hcalls : call :: calls = [call] ++ calls ++ [] := by simp
    have hrest : ExtensionsFit (call.run session).2 calls := h.sublist hcalls
    exact Int.le_trans (expiresAt_le_run h) (ih hrest)

/-- Calls made after a session was found expired leave its deadline alone. -/
theorem expiresAt_after_of_expired {t : DateTime} (he : session.isExpired t = true)
    (hclock : ∀ call ∈ calls, ∀ i, t ≤ call.env.now i) :
    (after session calls).expiresAt = session.expiresAt := by
  induction calls generalizing session with
  | nil => rfl
  | cons call calls ih =>
    rw [List.forall_mem_cons] at hclock
    have hlt : session.expiresAt.nanos < t.nanos := of_decide_eq_true he
    have hnow : session.isExpired (call.env.now 0) = true :=
      decide_eq_true (lt_of_lt_of_le hlt (hclock.1 0) : session.expiresAt.nanos < _)
    have hrun := expiresAt_run_of_expired hnow
    have he' : (call.run session).2.isExpired t = true := by
      unfold StreamSession.isExpired
      rw [hrun]
      exact he
    exact (ih he' hclock.2).trans hrun

/-- A run keeps the promise about the deadline exactly if every extension that is not refused fits. -/
theorem keepsDeadline_iff (session : StreamSession) (calls : List Call) :
    KeepsDeadline session calls ↔ ExtensionsFit session calls := by
  constructor
  · intro h before call later n hs hop
    exact (extendsBy_iff hop).mp (h.extends_by before call later n hs hop)
  · intro h
    constructor
    · intro before call later n hs hop
      exact h.extendsBy hs hop
    · intro before call later hs
      by_cases hop : ∃ n, call.op = .extendTimeout n
      · obtain ⟨n, hop⟩ := hop
        rcases h.extendsBy hs hop with ⟨e, hreply, -⟩ | ⟨hreply, -⟩
        · rw [hreply]
          nofun
        · rw [hreply]
          nofun
      · exact (run_of_ne_extendTimeout fun n hop' => hop ⟨n, hop'⟩).2
    · intro before mid later hs
      rw [after_append]
      exact expiresAt_le_after (h.sublist hs)
    · intro before mid later t t' hs hclock ht he
      have hsame := expiresAt_after_of_expired he hclock
      have hlt : (after session before).expiresAt.nanos < t.nanos := of_decide_eq_true he
      rw [after_append]
      unfold StreamSession.isExpired
      rw [hsame]
      exact decide_eq_true (lt_of_lt_of_le hlt ht : (after session before).expiresAt.nanos < _)

/-- An extension by the largest number of seconds moves the deadline back by one. -/
theorem extension_moves_back :
    ¬ ∀ (session : StreamSession) (calls : List Call), KeepsDeadline session calls := by
  intro h
  have hle := (h StreamSession.atEpoch [⟨.still ⟨1⟩ .epoch, .activate⟩,
    ⟨.still ⟨1⟩ .epoch, .extendTimeout 18446744073709551615⟩]).mono
      [⟨.still ⟨1⟩ .epoch, .activate⟩]
      [⟨.still ⟨1⟩ .epoch, .extendTimeout 18446744073709551615⟩] [] rfl
  exact absurd hle (by decide +kernel)

end Runs

end PJS
