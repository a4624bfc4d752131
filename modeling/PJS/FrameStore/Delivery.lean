import PJS.FrameStore.AppendOrder
import PJS.Session.Delivery

/-! What polling clients show while handlers run, in any interleaving. Frames may be appended out
of order, be evicted before a client comes to them, or never be appended at all; what a client
shows is always a part of the source data, and grows. -/
namespace PJS

namespace InMemoryFrameStore

theorem subset_foldl_push (cap : ℕ) (log new : List Frame) :
    new.foldl (Feed.push cap) log ⊆ log ++ new := by
  induction new generalizing log with
  | nil => simp
  | cons a new ih =>
    have hpush : Feed.push cap log a ⊆ log ++ [a] := by
      unfold Feed.push
      split_ifs
      · exact (log.tail_sublist.append_right [a]).subset
      · exact List.Subset.refl _
    intro f hf
    rcases List.mem_append.mp (ih _ hf) with hf | hf
    · rcases List.mem_append.mp (hpush hf) with hf | hf
      · exact List.mem_append_left _ hf
      · exact List.mem_append_right _ (by simpa using Or.inl hf)
    · exact List.mem_append_right _ (List.mem_cons_of_mem a hf)

namespace World

variable {ι : Type*} {clients : ι → Client} {w : World ι}

/-- Whatever the order of the appends, the store has only what was appended, and so do clients. -/
structure Within (clients : ι → Client) (w : World ι) : Prop where
  retained : ∀ id, w.store.history id ⊆ w.appended id
  received : ∀ i, w.received i ⊆ w.appended (clients i).streamId

theorem within_start (maxFramesPerStream : ℕ) : Within clients (start maxFramesPerStream) where
  retained _ := List.nil_subset _
  received _ := List.nil_subset _

variable [DecidableEq ι]

theorem appended_subset_post (w : World ι) (e : Event ι) (id : StreamId) :
    w.appended id ⊆ (w.post clients e).appended id := by
  cases e with
  | append streamId frames =>
    simp only [post, Function.update_apply]
    split_ifs with hid
    · rw [hid]
      exact List.subset_append_left _ _
    · exact List.Subset.refl _
  | poll i limit => exact List.Subset.refl _

theorem received_prefix_post (w : World ι) (e : Event ι) (i : ι) :
    w.received i <+: (w.post clients e).received i := by
  cases e with
  | append streamId frames => exact List.prefix_rfl
  | poll j limit =>
    simp only [post, Function.update_apply]
    split_ifs with hj
    · rw [hj]
      exact List.prefix_append _ _
    · exact List.prefix_rfl

theorem Within.post (h : w.Within clients) (e : Event ι) : (w.post clients e).Within clients := by
  have hmono := @appended_subset_post _ clients _ w e
  cases e with
  | append streamId frames =>
    refine ⟨fun id => ?_, fun i => List.Subset.trans (h.received i) (hmono _)⟩
    change (w.store.appendFrames streamId frames).history id ⊆
      Function.update w.appended streamId (w.appended streamId ++ frames) id
    rw [history_appendFrames, Function.update_apply]
    split_ifs with hid
    · intro f hf
      rcases List.mem_append.mp (subset_foldl_push _ _ _ hf) with hf | hf
      · exact List.mem_append_left _ (h.retained streamId hf)
      · exact List.mem_append_right _ hf
    · exact h.retained id
  | poll i limit =>
    refine ⟨h.retained, fun j => ?_⟩
    simp only [World.post, Function.update_apply]
    split_ifs with hj
    · subst hj
      intro f hf
      rcases List.mem_append.mp hf with hf | hf
      · exact h.received j hf
      · rw [page_eq] at hf
        have hahead := (isPrefix_capped limit _).subset hf
        exact h.retained _ (List.mem_filter.mp hahead).1
    · exact h.received j

end World

end InMemoryFrameStore

namespace SessionCommandHandler

open Relation GatInMemoryStreamRepository InMemoryFrameStore

namespace Task

variable {ι : Type*} {clients : ι → Client} {sessionId : SessionId} {b b' : Backend ι}
  {t t' u : Task ι}

/-- The snapshot a handler works from. -/
def snapshot : Task ι → Option StreamSession
  | .calling c => c.snapshot
  | _ => none

/-- The frames that were appended, and so those that clients have, are genuine. -/
structure Honest (clients : ι → Client) (sessionId : SessionId) (b : Backend ι) : Prop where
  within : b.frames.Within clients
  keyed : ∀ session, b.repository.store.get? sessionId = some session → WellKeyed session.streams
  genuine : ∀ session, b.repository.store.get? sessionId = some session →
    ∀ id, ∀ f ∈ b.frames.appended id, session.Genuine id f

/-- A handler holds genuine frames, or works from a session of the past. -/
structure Carrying (sessionId : SessionId) (b : Backend ι) (t : Task ι) : Prop where
  calls : t.Calls sessionId
  past : ∀ session, b.repository.store.get? sessionId = some session →
    ∀ past, t.snapshot = some past → past.Continues session
  genuine : ∀ session, b.repository.store.get? sessionId = some session →
    ∀ id, ∀ f ∈ t.held id, session.Genuine id f

/-- What a step does, as far as it matters for what frames carry. -/
inductive Moves (clients : ι → Client) [DecidableEq ι] (sessionId : SessionId) (b : Backend ι)
    (t : Task ι) (b' : Backend ι) (t' : Task ι) : Prop
  | quiet (hstore : b'.repository.store = b.repository.store) (hframes : b'.frames = b.frames)
    (hheld : ∀ id, t'.held id ⊆ t.held id)
    (hsnapshot : ∀ past, t'.snapshot = some past → b.repository.store.get? sessionId = some past)
  | commits {session m : StreamSession} (hget : b.repository.store.get? sessionId = some session)
    (hstore : b'.repository.store = b.repository.store.insert sessionId m)
    (hcontinues : session.Continues m) (hkeyed : WellKeyed m.streams)
    (hframes : b'.frames = b.frames) (hgenuine : ∀ id, ∀ f ∈ t'.held id, m.Genuine id f)
    (hsnapshot : t'.snapshot = none)
  | posts {e : Event ι} (hstore : b'.repository = b.repository)
    (hframes : b'.frames = b.frames.post clients e) (hheld : ∀ id, t'.held id ⊆ t.held id)
    (hsnapshot : t'.snapshot = none)
    (hnew : ∀ id, ∀ f ∈ b'.frames.appended id, f ∈ b.frames.appended id ∨ f ∈ t.held id)

theorem carrying_of_begins (h : t.Begins sessionId) : Carrying sessionId b t := by
  have hholding := holding_of_begins (b := b) h
  refine ⟨hholding.calls, fun session _ past hpast => ?_, fun session _ id f hf => ?_⟩
  · cases t with
    | calling c =>
      rw [snapshot, AtomicCall.snapshot, show c.phase = .called from h.1] at hpast
      cases hpast
    | _ => cases hpast
  · rw [held_of_begins h] at hf
    cases hf

/-- What an operation commits under the lock is genuine. -/
theorem genuine_of_underLock {c : AtomicCall} {env : SessionEnv} {session m : StreamSession}
    {value : Value} {f : StreamSession → DomainResult Value × StreamSession}
    (hk : WellKeyed session.streams) (hlock : c.request.underLock env c.phase = some f)
    (hextracted : c.Extracted) (hpast : ∀ past, c.snapshot = some past → past.Continues session)
    (hf : f session = (.ok value, m)) :
    ∀ id, ∀ f ∈ share c.request (framesOf value) id, session.Genuine id f := by
  have hnone : framesOf value = [] →
      ∀ id, ∀ f ∈ share c.request (framesOf value) id, session.Genuine id f := by
    intro hvalue id f hmem
    rw [hvalue, share_nil] at hmem
    cases hmem
  obtain ⟨handle, sessionId, request, phase⟩ := c
  cases request with
  | createStreamPatchFrames streamId priorityThreshold maxFrames =>
    cases phase with
    | extractedPatches snapshot patches =>
      cases hlock
      obtain ⟨frames, hr, rfl⟩ := returns_eq_ok hf
      have hpatches : ∀ p ∈ patches, session.SetsLeaf streamId p.1 := by
        change snapshot.extractPrioritizedPatchesForStream streamId priorityThreshold =
          .ok patches at hextracted
        unfold StreamSession.extractPrioritizedPatchesForStream at hextracted
        cases hget : snapshot.streams.get? streamId with
        | none =>
          rw [hget] at hextracted
          cases hextracted
        | some stream =>
          rw [hget] at hextracted
          exact fun p hp => (StreamSession.setsLeaf_of_extract hget hextracted p hp).continues
            (hpast snapshot rfl)
      intro id f hmem
      simp only [share, framesOf] at hmem
      split_ifs at hmem with hid
      · rw [← hid]
        exact StreamSession.genuine_of_commit hpatches hr f hmem
      · cases hmem
    | _ => cases hlock
  | batchGenerateFrames priorityThreshold maxFrames =>
    cases phase with
    | extractedStreams snapshot extracted =>
      cases hlock
      obtain ⟨frames, hr, rfl⟩ := returns_eq_ok hf
      obtain ⟨env₀, rfl⟩ := hextracted
      intro id f hmem
      obtain ⟨hmem, hid⟩ := List.mem_filter.mp hmem
      rw [← of_decide_eq_true hid]
      exact StreamSession.genuine_of_batch hk (fun e he p hp =>
        (StreamSession.setsLeaf_of_mem_extracted e he p hp).continues (hpast snapshot rfl)) hr f hmem
    | _ => cases hlock
  | createStream | startStream | completeStream | closeSession =>
    cases phase <;> cases hlock
    obtain ⟨_, -, rfl⟩ := returns_eq_ok hf
    exact hnone rfl

variable [DecidableEq ι]

theorem moves_repository {c c' : AtomicCall} {repository' : GatInMemoryStreamRepository}
    (hb : Honest clients sessionId b) (ht : Carrying sessionId b (.calling c : Task ι))
    (h : AtomicCall.Step b.repository c repository' c') :
    (Task.calling c' : Task ι).Calls sessionId ∧
      Moves clients sessionId b (.calling c) { b with repository := repository' }
        (.calling c') := by
  obtain ⟨rfl, hextracted⟩ := ht.calls
  obtain ⟨hid, hrequest, heffect⟩ := h.effect
  cases heffect with
  | quiet hstore hsucceeded hphase hextracted' hsnapshot =>
    refine ⟨⟨hid, hextracted'⟩, .quiet hstore rfl (fun id => ?_) hsnapshot⟩
    simp only [held, hsucceeded]
    exact List.Subset.refl _
  | @took env f session m value hlock hget hfresh hf hmutates hstore hbefore hphase =>
    have hsnapshot : c'.snapshot = none := by rw [AtomicCall.snapshot, hphase]
    have hk := hb.keyed session hget
    have hcommitted := committed_of_underLock hk hlock hextracted hfresh hf
    refine ⟨⟨hid, extracted_of_snapshot hsnapshot⟩,
      .commits hget hstore (continues_takeEvents hmutates.continues) hcommitted.keyed rfl
        (fun id f hmem => ?_) hsnapshot⟩
    simp only [held, AtomicCall.succeeded, hphase, hrequest] at hmem
    exact (genuine_of_underLock hk hlock hextracted (ht.past session hget) hf id f hmem).continues
      (continues_takeEvents hmutates.continues)

theorem Step.moves (hb : Honest clients sessionId b) (ht : Carrying sessionId b t)
    (h : Step clients b t b' t') :
    t'.Calls sessionId ∧ Moves clients sessionId b t b' t' := by
  have hnil : ∀ {u : Task ι}, (∀ id, u.held id = []) → ∀ id, u.held id ⊆ t.held id := by
    intro u hu id
    rw [hu]
    exact List.nil_subset _
  cases h with
  | repository h => exact moves_repository hb ht h
  | generated =>
    exact ⟨trivial, .quiet rfl rfl (fun id => List.Subset.refl _) fun _ h => by cases h⟩
  | refused => exact ⟨trivial, .quiet rfl rfl (hnil fun _ => rfl) fun _ h => by cases h⟩
  | unpublished => exact ⟨trivial, .quiet rfl rfl (hnil fun _ => rfl) fun _ h => by cases h⟩
  | published h =>
    refine ⟨trivial, .quiet rfl rfl (fun id => ?_) fun _ h => by cases h⟩
    rw [held, held, ofStream_of_groups h]
    exact List.Subset.refl _
  | @append streamId group groups frames =>
    have hheld := held_append (ι := ι) streamId group groups frames
    refine ⟨trivial, .posts (e := .append streamId group) rfl rfl (fun id => ?_) rfl
      fun id f hf => ?_⟩
    · rw [hheld]
      exact List.subset_append_right _ _
    · refine (mem_appended_post hf).imp_right fun hnew => ?_
      obtain ⟨rfl, hgroup⟩ := hnew
      rw [hheld, if_pos rfl]
      exact List.mem_append_left _ hgroup
  | done => exact ⟨trivial, .quiet rfl rfl (hnil fun _ => rfl) fun _ h => by cases h⟩
  | @poll i limit =>
    exact ⟨trivial, .posts (e := .poll i limit) rfl rfl (hnil fun _ => rfl) rfl
      fun id f hf => Or.inl hf⟩

theorem Moves.own (hb : Honest clients sessionId b) (ht : Carrying sessionId b t)
    (hcalls : t'.Calls sessionId) (h : Moves clients sessionId b t b' t') :
    Honest clients sessionId b' ∧ Carrying sessionId b' t' := by
  cases h with
  | quiet hstore hframes hheld hsnapshot =>
    refine ⟨⟨hframes ▸ hb.within, hstore ▸ hb.keyed, ?_⟩, hcalls, fun session hget past hpast => ?_,
      fun session hget id f hf => ?_⟩
    · rw [hstore, hframes]
      exact hb.genuine
    · rw [hstore, hsnapshot past hpast, Option.some.injEq] at hget
      rw [hget]
      exact StreamSession.continues_refl session
    · exact ht.genuine session (hstore ▸ hget) id f (hheld id hf)
  | @commits session m hget hstore hcontinues hkeyed hframes hgenuine hsnapshot =>
    have hnow : ∀ session', b'.repository.store.get? sessionId = some session' → session' = m := by
      intro session' hget'
      rw [hstore, AssocMap.get?_insert_self] at hget'
      exact (Option.some.inj hget').symm
    refine ⟨⟨hframes ▸ hb.within, fun session' hget' => ?_, fun session' hget' id f hf => ?_⟩,
      hcalls, fun session' hget' past hpast => ?_, fun session' hget' id f hf => ?_⟩
    · rw [hnow session' hget']
      exact hkeyed
    · rw [hnow session' hget']
      rw [hframes] at hf
      exact (hb.genuine session hget id f hf).continues hcontinues
    · rw [hsnapshot] at hpast
      cases hpast
    · rw [hnow session' hget']
      exact hgenuine id f hf
  | posts hstore hframes hheld hsnapshot hnew =>
    refine ⟨⟨hframes ▸ hb.within.post _, hstore ▸ hb.keyed, fun session hget id f hf => ?_⟩, hcalls,
      fun session hget past hpast => ?_, fun session hget id f hf => ?_⟩
    · rw [hstore] at hget
      rcases hnew id f hf with hold | hheld
      · exact hb.genuine session hget id f hold
      · exact ht.genuine session hget id f hheld
    · rw [hsnapshot] at hpast
      cases hpast
    · exact ht.genuine session (hstore ▸ hget) id f (hheld id hf)

theorem Moves.other (hu : Carrying sessionId b u) (h : Moves clients sessionId b t b' t') :
    Carrying sessionId b' u := by
  cases h with
  | quiet hstore hframes hheld hsnapshot =>
    exact ⟨hu.calls, hstore ▸ hu.past, hstore ▸ hu.genuine⟩
  | @commits session m hget hstore hcontinues hkeyed hframes hgenuine hsnapshot =>
    have hnow : ∀ session', b'.repository.store.get? sessionId = some session' → session' = m := by
      intro session' hget'
      rw [hstore, AssocMap.get?_insert_self] at hget'
      exact (Option.some.inj hget').symm
    refine ⟨hu.calls, fun session' hget' past hpast => ?_, fun session' hget' id f hf => ?_⟩
    · rw [hnow session' hget']
      exact (hu.past session hget past hpast).trans hcontinues
    · rw [hnow session' hget']
      exact (hu.genuine session hget id f hf).continues hcontinues
  | posts hstore hframes hheld hsnapshot hnew =>
    exact ⟨hu.calls, hstore ▸ hu.past, hstore ▸ hu.genuine⟩

/-- Nothing has to be kept apart: the order of the appends does not matter here. -/
theorem delivery_outline (clients : ι → Client) (sessionId : SessionId) :
    Pool.Outline (Begins sessionId) (Step clients) (Honest clients sessionId)
      (Carrying sessionId) fun _ _ => True where
  symm := fun _ => trivial
  begins := fun _ ht => carrying_of_begins ht
  begins_apart := fun _ _ => trivial
  own := fun hb ht h =>
    have ⟨hcalls, hmoves⟩ := h.moves hb ht
    hmoves.own hb ht hcalls
  other := fun hb ht hu _ h => ⟨(h.moves hb ht).2.other hu, trivial⟩

/-- The session goes on with its streams, whatever steps are taken. -/
theorem Step.continues (h : Step clients b t b' t') {session : StreamSession}
    (hget : b.repository.store.get? sessionId = some session) :
    ∃ session', b'.repository.store.get? sessionId = some session' ∧
      session.Continues session' := by
  cases h with
  | @repository c c' repository' h =>
    obtain ⟨-, -, heffect⟩ := h.effect
    cases heffect with
    | quiet hstore => exact ⟨session, hstore ▸ hget, StreamSession.continues_refl session⟩
    | @took env f session₁ m value hlock hget₁ hfresh hf hmutates hstore =>
      simp only [hstore, AssocMap.get?_insert]
      split_ifs with hid
      · rw [hid, hget₁, Option.some.injEq] at hget
        exact ⟨_, rfl, hget ▸ continues_takeEvents hmutates.continues⟩
      · exact ⟨session, hget, StreamSession.continues_refl session⟩
  | _ => exact ⟨session, hget, StreamSession.continues_refl session⟩

variable {p q : Pool (Backend ι) (Task ι)}

theorem continues_of_reachable
    (h : ReflTransGen (Pool.Step (Begins sessionId) (Step clients)) p q)
    {session : StreamSession}
    (hget : p.shared.repository.store.get? sessionId = some session) :
    ∃ session', q.shared.repository.store.get? sessionId = some session' ∧
      session.Continues session' := by
  induction h with
  | refl => exact ⟨session, hget, StreamSession.continues_refl session⟩
  | tail _ hstep ih =>
    obtain ⟨session₁, hget₁, hcontinues₁⟩ := ih
    cases hstep with
    | start => exact ⟨session₁, hget₁, hcontinues₁⟩
    | step hstep =>
      obtain ⟨session₂, hget₂, hcontinues₂⟩ := hstep.continues hget₁
      exact ⟨session₂, hget₂, hcontinues₁.trans hcontinues₂⟩

/-- Clients keep what they have. -/
theorem received_prefix_of_reachable
    (h : ReflTransGen (Pool.Step (Begins sessionId) (Step clients)) p q) (i : ι) :
    p.shared.frames.received i <+: q.shared.frames.received i := by
  induction h with
  | refl => exact List.prefix_rfl
  | tail _ hstep ih =>
    refine ih.trans ?_
    cases hstep with
    | start => exact List.prefix_rfl
    | step hstep =>
      cases hstep with
      | append => exact World.received_prefix_post _ (.append _ _) i
      | poll => exact World.received_prefix_post _ (.poll _ _) i
      | _ => exact List.prefix_rfl

section Runs
variable {config : SessionConfig} {now : DateTime} {first : StreamSession} {calls : List Call}
  {store : AssocMap SessionId StreamSession} {clock maxFramesPerStream : ℕ}

omit [DecidableEq ι] in
theorem honest_idle (hnew : StreamSession.withTimeProvider config sessionId now = some first)
    (hstored : store.get? sessionId = some (Call.after first calls)) :
    Honest clients sessionId ⟨ofStore store clock, .start maxFramesPerStream⟩ where
  within := World.within_start maxFramesPerStream
  keyed := fun session hget => by
    obtain rfl : Call.after first calls = session := Option.some.inj (hstored.symm.trans hget)
    exact Call.wellKeyed_of_run hnew calls
  genuine := fun session _ id f hf => by cases hf

/-- Handlers and polls may interleave in any way: what a client shows of a stream is at any time
the stream's source data with the leaves that it has received and blanks for the rest. So it never
shows a wrong value, never loses one again, and has the whole exactly when every leaf has come whose
value is not blank. -/
theorem view_of_reachable
    (hnew : StreamSession.withTimeProvider config sessionId now = some first)
    (hstored : store.get? sessionId = some (Call.after first calls))
    (h : ReflTransGen (Pool.Step (Begins sessionId) (Step clients))
      (idle store clock maxFramesPerStream) p)
    {session : StreamSession}
    (hsession : p.shared.repository.store.get? sessionId = some session) {i : ι} {stream : Stream}
    (hstream : session.streams.get? (clients i).streamId = some stream) {d : DataDocument}
    (hdata : stream.sourceData = some d)
    (hlater : ReflTransGen (Pool.Step (Begins sessionId) (Step clients)) p q) :
    let before := Frame.settings (p.shared.frames.received i)
    let settings := Frame.settings (q.shared.frames.received i)
    Doc.runAll settings (Stream.generateSkeleton d.value) = some (Stream.view d.value settings) ∧
    (Stream.view d.value settings).Below Stream.Stands d.value ∧
    (Stream.view d.value before).Below Stream.Stands (Stream.view d.value settings) ∧
    ((∀ s, d.value ≠ .scalar s) → (Stream.view d.value settings = d.value ↔
      ∀ leaf ∈ d.value.leaves (fun _ => True),
        leaf ∈ settings ∨ leaf.SetsBlank Stream.IsZero)) := by
  intro before settings
  have hstart : Pool.Holds (Honest clients sessionId) (Carrying sessionId) (fun _ _ => True)
      (idle store clock maxFramesPerStream : Pool (Backend ι) (Task ι)) :=
    Pool.holds_nil (honest_idle hnew hstored)
  have hholds := (delivery_outline clients sessionId).reachable hstart (h.trans hlater)
  obtain ⟨session', hsession', hcontinues⟩ := continues_of_reachable hlater hsession
  obtain ⟨stream', hstream', hmaterial⟩ := hcontinues.exists_stream hstream
  have hdata' : stream'.sourceData = some d := (congrArg Prod.snd hmaterial).trans hdata
  have hgenuine : ∀ frame ∈ q.shared.frames.received i,
      session'.Genuine (clients i).streamId frame := fun frame hframe =>
    hholds.shared.genuine session' hsession' _ frame (hholds.shared.within.received i hframe)
  have hleaves : ∀ leaf ∈ settings, leaf ∈ d.value.leaves ValidKey :=
    StreamSession.mem_leaves_of_genuine hstream' hdata' hgenuine
  have hgrown : before ⊆ settings := by
    obtain ⟨rest, hrest⟩ := received_prefix_of_reachable hlater i
    change Frame.settings (p.shared.frames.received i) ⊆
      Frame.settings (q.shared.frames.received i)
    rw [← hrest, Frame.settings_append]
    exact List.subset_append_left _ _
  exact ⟨Stream.runAll_eq_view hleaves, Stream.view_below d settings, Stream.view_mono d hgrown,
    fun hroot => Stream.view_eq_self_iff hroot hleaves⟩

/-- The client that missed the frame that was overtaken has the whole document nevertheless. -/
theorem view_of_reachable_overtaken :
    let settings := Frame.settings (overtaken.shared.frames.received ())
    (overtaken.shared.frames.received ()).map Frame.sequence = [2] ∧
    (overtaken.shared.frames.store.history ⟨1⟩).map Frame.sequence = [2, 1] ∧
    Doc.runAll settings (Stream.generateSkeleton Stream.userDocument.value) =
      some (Stream.view Stream.userDocument.value settings) ∧
    Stream.view Stream.userDocument.value settings = Stream.userDocument.value := by
  have hstored : backend.repository.store.get? ⟨0⟩ = some streaming :=
    AssocMap.get?_insert_self _ _ _
  obtain ⟨session, hsession, hcontinues⟩ := continues_of_reachable reaches_overtaken hstored
  obtain ⟨first, hfirst, hdata⟩ : ∃ first, streaming.streams.get? ⟨1⟩ = some first ∧
      first.sourceData = some Stream.userDocument := ⟨_, rfl, rfl⟩
  obtain ⟨stream, hstream, hmaterial⟩ := hcontinues.exists_stream hfirst
  have hview := view_of_reachable StreamSession.withTimeProvider_atEpoch
    (AssocMap.get?_insert_self (⟨0⟩ : SessionId) streaming .empty) reaches_overtaken hsession
    (i := ()) hstream ((congrArg Prod.snd hmaterial).trans hdata) .refl
  exact ⟨by decide +kernel, by decide +kernel, hview.1, by decide +kernel⟩

end Runs

end Task

end SessionCommandHandler

end PJS
