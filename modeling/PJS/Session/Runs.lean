import PJS.Session.Refinement

/-! Runs of calls, and what the ledger entries of a run say about its calls. -/
namespace PJS

open Ledger (Entry Steps)

namespace Call

section Entries

/-- The call ends the session: a close of an active one, or a forced close of an expired one. -/
def EndsSession (call : Call) (session : StreamSession) : Prop :=
  (call.op = .close ∧ session.state = .active) ∨
    (call.op = .forceCloseExpired ∧ session.isExpired (call.env.now 0) = true)

theorem mem_reply_entry {reply : Reply} {e entry : Entry} (h : e ∈ reply.entry entry) :
    e = entry := by
  unfold Reply.entry at h
  split at h
  · exact List.mem_singleton.mp h
  · cases h

theorem eq_emit_of_mem_map {showFloat : Float → String} {frames : List Frame} {e : Entry}
    (h : e ∈ frames.map (Frame.entry showFloat)) :
    ∃ id sequence bytes, e = .emit id sequence bytes := by
  obtain ⟨f, -, rfl⟩ := List.mem_map.mp h
  exact ⟨_, _, _, rfl⟩

theorem emitted_map_entry (showFloat : Float → String) (frames : List Frame) (id : StreamId) :
    Ledger.emitted id (frames.map (Frame.entry showFloat)) =
      (frames.filter fun frame => frame.streamId = id).map Frame.sequence := by
  induction frames with
  | nil => rfl
  | cons frame frames ih =>
    rw [List.map_cons, ← List.singleton_append, Ledger.emitted_append, ih, Frame.entry,
      Ledger.emitted_emit]
    by_cases hid : frame.streamId = id
    · simp [hid]
    · simp [hid]

variable (call : Call) (session : StreamSession)

/-- What an entry says about the call that made it. -/
def Source : Entry → Prop
  | .create id => call.drawn = some id
  | .close => call.op = .close ∧ session.state = .active
  | .wipe => call.op = .forceCloseExpired ∧ session.isExpired (call.env.now 0) = true ∧
    (call.run session).1 = .ok (.flag true)
  | _ => True

theorem source_of_mem_entries {e : Entry} (h : e ∈ call.entries session) :
    call.Source session e := by
  obtain ⟨env, op⟩ := call
  cases op with
  | activate =>
    cases mem_reply_entry h
    trivial
  | createStream data =>
    cases mem_reply_entry h
    rfl
  | createStreamWithConfig data config =>
    cases mem_reply_entry h
    rfl
  | startStream id =>
    cases mem_reply_entry h
    trivial
  | completeStream id =>
    cases mem_reply_entry h
    trivial
  | failStream id error =>
    cases mem_reply_entry h
    trivial
  | close =>
    cases mem_reply_entry h
    rcases session.close_cases env with ⟨-, e, herr⟩ | ⟨a, session', -, htook⟩
    · simp only [entries, run, finish, herr] at h
      cases h
    · exact ⟨rfl, htook.allowed⟩
  | forceCloseExpired =>
    rcases session.forceCloseExpired_cases env with ⟨-, hok⟩ | ⟨hexpired, session', hok, -⟩
    · simp only [entries, run, finish, hok] at h
      cases h
    · simp only [entries, run, finish, hok, Reply.ofResult, List.mem_singleton] at h
      subst h
      refine ⟨rfl, hexpired, ?_⟩
      simp only [run, finish, hok]
      rfl
  | _ =>
    obtain ⟨id, sequence, bytes, rfl⟩ := eq_emit_of_mem_map h
    trivial

/-- Only a call that draws an identifier creates a stream, and it creates one at most. -/
theorem createdIds_entries :
    (Ledger.createdIds (call.entries session)).Sublist call.drawn.toList := by
  have hsource : ∀ e ∈ call.entries session, call.Source session e :=
    fun _ hmem => call.source_of_mem_entries session hmem
  have h := call.outcome session
  generalize call.committed session = committed at h
  generalize call.entries session = entries at h hsource ⊢
  generalize (call.run session).1 = reply at h
  generalize (call.run session).2 = session' at h
  cases h with
  | failed _ => exact List.nil_sublist _
  | kept _ _ _ => exact List.nil_sublist _
  | @took _ _ entry _ _ _ =>
    cases entry with
    | create id =>
      have hdrawn : call.drawn = some id := hsource (.create id) (by simp)
      rw [hdrawn]
      exact List.Sublist.refl _
    | _ => exact List.nil_sublist _
  | emitted _ _ =>
    have hnone : Ledger.createdIds (committed.map (Frame.entry call.env.showFloat)) = [] := by
      simp [Ledger.createdIds, Frame.entry]
    rw [hnone]
    exact List.nil_sublist _

/-- The entries that end a session come from the calls that do. -/
theorem endsSession_of_mem_entries {e : Entry} (hmem : e ∈ call.entries session) (he : e.Ends) :
    call.EndsSession session := by
  have hsource := call.source_of_mem_entries session hmem
  rcases he with rfl | rfl
  · exact Or.inl hsource
  · exact Or.inr ⟨hsource.1, hsource.2.1⟩

/-- A call that ends the session makes an ending entry. -/
theorem EndsSession.took {call : Call} {session : StreamSession} (h : call.EndsSession session) :
    ∃ e : Entry, e.Ends ∧ session.Took e (call.run session).2 := by
  obtain ⟨env, op⟩ := call
  rcases h with ⟨hop, hs⟩ | ⟨hop, hexpired⟩
  · cases hop
    rcases session.close_cases env with ⟨hne, -⟩ | ⟨a, session', hok, htook⟩
    · exact absurd hs hne
    · refine ⟨.close, Or.inl rfl, ?_⟩
      simp only [run, finish, hok]
      exact htook
  · cases hop
    rcases session.forceCloseExpired_cases env with ⟨hne, -⟩ | ⟨-, session', hok, htook⟩
    · cases hne.symm.trans hexpired
    · refine ⟨.wipe, Or.inr rfl, ?_⟩
      simp only [run, finish, hok]
      exact htook

/-- The numbers a call emits are those of the frames it commits. -/
theorem emitted_entries (id : StreamId) : Ledger.emitted id (call.entries session) =
    ((call.committed session).filter fun frame => frame.streamId = id).map Frame.sequence := by
  have h := call.outcome session
  generalize call.committed session = committed at h ⊢
  generalize call.entries session = entries at h ⊢
  generalize (call.run session).1 = reply at h
  generalize (call.run session).2 = session' at h
  cases h with
  | failed e => rfl
  | kept _ _ _ => rfl
  | took _ hemit _ => exact hemit id
  | emitted _ _ => exact emitted_map_entry _ _ _

end Entries

section Runs
variable (session : StreamSession) (calls rest : List Call)

/-- The ledger entries of a run. -/
def entriesOf : StreamSession → List Call → List Entry
  | _, [] => []
  | session, call :: calls => call.entries session ++ entriesOf (call.run session).2 calls

theorem after_append : after session (calls ++ rest) = after (after session calls) rest :=
  List.foldl_append

variable {session}

/-- A run keeps the ledger by legal entries. -/
theorem refines_after (hk : WellKeyed session.streams) :
    Steps session.ledger (entriesOf session calls) (after session calls).ledger ∧
      WellKeyed (after session calls).streams := by
  induction calls generalizing session with
  | nil => exact ⟨.nil, hk⟩
  | cons call calls ih =>
    obtain ⟨hstep, hk₁⟩ := call.refines hk
    obtain ⟨hsteps, hk₂⟩ := ih hk₁
    exact ⟨hstep.append hsteps, hk₂⟩

variable (session)

theorem createdIds_entriesOf :
    (Ledger.createdIds (entriesOf session calls)).Sublist (calls.filterMap drawn) := by
  induction calls generalizing session with
  | nil => exact List.nil_sublist _
  | cons call calls ih =>
    rw [entriesOf, Ledger.createdIds_append, ← List.singleton_append, List.filterMap_append]
    refine List.Sublist.append ?_ (ih _)
    have hcall := call.createdIds_entries session
    cases hd : call.drawn with
    | none => simpa [hd] using hcall
    | some id => simpa [hd] using hcall

theorem emitted_entriesOf (id : StreamId) : Ledger.emitted id (entriesOf session calls) =
    (((journal session calls).flatMap Prod.snd).filter fun frame => frame.streamId = id).map
      Frame.sequence := by
  induction calls generalizing session with
  | nil => rfl
  | cons call calls ih =>
    rw [entriesOf, Ledger.emitted_append, call.emitted_entries session id, ih, journal,
      List.flatMap_cons, List.filter_append, List.map_append]

/-- Every entry of a run belongs to one of its calls. -/
theorem exists_split_of_mem_entriesOf {e : Entry} (h : e ∈ entriesOf session calls) :
    ∃ before call rest, calls = before ++ call :: rest ∧
      e ∈ call.entries (after session before) := by
  induction calls generalizing session with
  | nil => cases h
  | cons call calls ih =>
    rcases List.mem_append.mp h with h | h
    · exact ⟨[], call, calls, rfl, h⟩
    · obtain ⟨before, c, rest, rfl, hmem⟩ := ih _ h
      exact ⟨call :: before, c, rest, rfl, hmem⟩

end Runs

section NewSession
variable {config : SessionConfig} {id : SessionId} {now : DateTime} {session : StreamSession}

/-- A new session has empty books. -/
theorem ledger_withTimeProvider (h : StreamSession.withTimeProvider config id now = some session) :
    session.ledger = Ledger.initial ∧ WellKeyed session.streams := by
  unfold StreamSession.withTimeProvider at h
  obtain ⟨expiresAt, -, hsome⟩ := Option.bind_eq_some_iff.mp h
  cases hsome
  exact ⟨rfl, fun _ _ hget => by cases hget⟩

variable (h : StreamSession.withTimeProvider config id now = some session) (calls : List Call)
include h

theorem steps_of_run :
    Steps Ledger.initial (entriesOf session calls) (after session calls).ledger := by
  obtain ⟨hledger, hk⟩ := ledger_withTimeProvider h
  rw [← hledger]
  exact (refines_after calls hk).1

theorem wellKeyed_of_run : WellKeyed (after session calls).streams :=
  (refines_after calls (ledger_withTimeProvider h).2).2

/-- An identifier that is drawn once is new when it is drawn. -/
theorem get?_drawn {call : Call} {id : StreamId}
    (hn : ((calls ++ [call]).filterMap drawn).Nodup) (hd : call.drawn = some id) :
    (after session calls).ledger.rows.get? id = none := by
  by_contra hget
  obtain ⟨r, hr⟩ := Option.ne_none_iff_exists'.mp hget
  have hold : id ∈ calls.filterMap drawn :=
    (createdIds_entriesOf session calls).subset
      (Ledger.mem_createdIds_of_get? (steps_of_run h calls) hr)
  rw [List.filterMap_append, List.nodup_append'] at hn
  exact List.disjoint_left.mp hn.2.2 hold (by simp [hd])

theorem idle_of_run : (after session calls).ledger.Idle :=
  Ledger.idle_of_steps (steps_of_run h calls)

end NewSession

end Call

end PJS
