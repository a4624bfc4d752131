import PJS.Publisher.Custody
import PJS.Repository.SessionQuery

/-! `StreamQueryHandler` for the frames of a stream, beside the handlers of commands. A query
looks for the session and its stream, and reads the frame store later, which knows nothing of
sessions. -/
namespace PJS

inductive ApplicationError where
  | domain (e : DomainError)
  | notFound (msg : String)

/-- Get frames for a stream with filtering. -/
structure GetStreamFramesQuery where
  sessionId : SessionId
  streamId : StreamId
  sinceSequence : Option ℕ
  priorityFilter : Option UInt8
  limit : Option ℕ

/-- The frames that a query asks for. -/
def GetStreamFramesQuery.wants (query : GetStreamFramesQuery) (frame : Frame) : Bool :=
  query.sinceSequence.all (· < frame.sequence) &&
    query.priorityFilter.all (·.toNat ≤ frame.priority.value)

structure FramesResponse where
  frames : List Frame
  totalCount : ℕ

/-- Hard cap on frames returned. -/
def maxFramesPageSize : ℕ := maxPaginationLimit

namespace StreamQueryHandler

/-- The session and its stream exist, and the filter is a priority. -/
def locate (repository : GatInMemoryStreamRepository) (query : GetStreamFramesQuery) :
    Except ApplicationError (Option Priority) :=
  match repository.store.get? query.sessionId with
  | none => .error (.notFound s!"Session {query.sessionId.toString} not found")
  | some session =>
    match session.streams.get? query.streamId with
    | none => .error (.notFound s!"Stream {query.streamId.toString} not found")
    | some _ =>
      match query.priorityFilter with
      | none => .ok none
      | some value => ((Priority.new value).map some).mapError .domain

/-- `None` asks for everything up to the cap. -/
def pageSize (query : GetStreamFramesQuery) : ℕ :=
  (query.limit.map fun limit => min limit maxFramesPageSize).getD maxFramesPageSize

def respond (store : InMemoryFrameStore) (query : GetStreamFramesQuery)
    (priorityFilter : Option Priority) : FramesResponse :=
  let page := store.getFrames query.streamId query.sinceSequence priorityFilter
    (some (pageSize query))
  ⟨page.frames, page.totalMatching⟩

def handle (repository : GatInMemoryStreamRepository) (store : InMemoryFrameStore)
    (query : GetStreamFramesQuery) : Except ApplicationError FramesResponse :=
  (locate repository query).map (respond store query)

end StreamQueryHandler

namespace SessionCommandHandler

open Relation GatInMemoryStreamRepository InMemoryFrameStore StreamQueryHandler

/-- The handler of a command, or that of a query between its two accesses. -/
inductive Interaction where
  | command (t : Serving)
  | asked (query : GetStreamFramesQuery)
  | located (query : GetStreamFramesQuery) (priorityFilter : Option Priority)
  | answered (query : GetStreamFramesQuery) (response : FramesResponse)
  | refused (query : GetStreamFramesQuery) (e : ApplicationError)

namespace Interaction

inductive Step (s : Server) : Interaction → Server → Interaction → Prop
  | command {t t' : Serving} {s' : Server} (h : Serving.Step s t s' t') :
    Step s (.command t) s' (.command t')
  | locate {query : GetStreamFramesQuery} {priorityFilter : Option Priority}
    (h : StreamQueryHandler.locate s.service.sessions.repository query = .ok priorityFilter) :
    Step s (.asked query) s (.located query priorityFilter)
  | refuse {query : GetStreamFramesQuery} {e : ApplicationError}
    (h : StreamQueryHandler.locate s.service.sessions.repository query = .error e) :
    Step s (.asked query) s (.refused query e)
  | answer {query : GetStreamFramesQuery} {priorityFilter : Option Priority} :
    Step s (.located query priorityFilter) s
      (.answered query (respond s.store query priorityFilter))

def Begins : Interaction → Prop
  | .command t => t.Begins
  | .asked _ => True
  | _ => False

def toCommand : Interaction → Option Serving
  | .command t => some t
  | _ => none

def idle (clock maxFramesPerStream : ℕ) : Pool Server Interaction :=
  ⟨(Serving.idle clock maxFramesPerStream).shared, []⟩

/-- The answer to a query when these frames were appended to the history of the stream. -/
def answerAt (maxFramesPerStream : ℕ) (appended : List Frame) (query : GetStreamFramesQuery) :
    FramesResponse :=
  let frames := (Feed.retained maxFramesPerStream appended).filter query.wants
  ⟨frames.take (pageSize query), frames.length⟩

/-- The session of a query had the stream, and has it for good. An answer is what the query gets at
one moment. -/
def Told (s : Server) : Interaction → Prop
  | .located query priorityFilter => s.service.Has query.sessionId query.streamId ∧
    priorityFilter.map Priority.value = query.priorityFilter.map UInt8.toNat
  | .answered query response => s.service.Has query.sessionId query.streamId ∧
    ∃ appended, appended <+: appendedTo s.appends query.streamId ∧
      response = answerAt s.store.maxFramesPerStream appended query
  | _ => True

section Queries
variable {s s' : Server} {t t' : Interaction} {query : GetStreamFramesQuery}
  {priorityFilter : Option Priority}

theorem value_of_new {value : UInt8} {priority : Priority}
    (h : Priority.new value = .ok priority) : priority.value = value.toNat := by
  unfold Priority.new at h
  split_ifs at h
  cases h
  rfl

theorem told_of_locate
    (h : StreamQueryHandler.locate s.service.sessions.repository query = .ok priorityFilter) :
    Told s (.located query priorityFilter) := by
  unfold StreamQueryHandler.locate at h
  cases hsession : s.service.sessions.repository.store.get? query.sessionId with
  | none => simp [hsession] at h
  | some session =>
    cases hstream : session.streams.get? query.streamId with
    | none => simp [hsession, hstream] at h
    | some stream =>
      refine ⟨⟨session, hsession, AssocMap.mem_keys_iff.mpr ⟨stream, hstream⟩⟩, ?_⟩
      simp only [hsession, hstream] at h
      cases hfilter : query.priorityFilter with
      | none =>
        rw [hfilter] at h
        cases h
        rfl
      | some value =>
        cases hnew : Priority.new value with
        | error e =>
          simp only [hfilter, hnew] at h
          cases h
        | ok priority =>
          simp only [hfilter, hnew] at h
          cases h
          exact congrArg some (value_of_new hnew)

/-- What the store matches is what the query wants. -/
theorem respond_eq_answerAt (hs : Serving.Kept s)
    (hfilter : priorityFilter.map Priority.value = query.priorityFilter.map UInt8.toNat) :
    respond s.store query priorityFilter = answerAt s.store.maxFramesPerStream
      (appendedTo s.appends query.streamId) query := by
  have hwants : matching query.sinceSequence priorityFilter = query.wants := by
    funext frame
    have hall := congrArg (Option.all fun value => decide (value ≤ frame.priority.value)) hfilter
    rw [Option.all_map, Option.all_map] at hall
    exact congrArg (query.sinceSequence.all (· < frame.sequence) && ·) hall
  rw [respond, getFrames_eq, hs.retained, hwants]
  rfl

theorem Told.grows {u : Interaction} (hu : Told s u)
    (hhas : ∀ sessionId streamId, s.service.Has sessionId streamId →
      s'.service.Has sessionId streamId)
    (hcap : s'.store.maxFramesPerStream = s.store.maxFramesPerStream)
    (happends : ∀ streamId, appendedTo s.appends streamId <+: appendedTo s'.appends streamId) :
    Told s' u := by
  cases u with
  | located query => exact ⟨hhas _ _ hu.1, hu.2⟩
  | answered query response =>
    obtain ⟨hhad, appended, hprefix, hresponse⟩ := hu
    exact ⟨hhas _ _ hhad, appended, hprefix.trans (happends _), hcap ▸ hresponse⟩
  | _ => trivial

end Queries

section Runs
variable {clock maxFramesPerStream : ℕ} {p : Pool Server Interaction}

/-- Queries change nothing for the handlers of commands. -/
theorem commands_of_reachable
    (h : ReflTransGen (Pool.Step Begins Step) (idle clock maxFramesPerStream) p) :
    ReflTransGen (Pool.Step Serving.Begins Serving.Step) (Serving.idle clock maxFramesPerStream)
      ⟨p.shared, p.calls.filterMap toCommand⟩ := by
  refine Pool.filterMap_reachable toCommand (fun t u ht hu => ?_) (fun s t s' t' h => ?_) h
  · cases t with
    | command t =>
      obtain rfl : t = u := Option.some.inj hu
      exact ht
    | _ => cases hu
  · cases h with
    | command h => exact .inl ⟨_, _, rfl, rfl, h⟩
    | locate | refuse | answer => exact .inr ⟨rfl, rfl⟩

/-- Sessions keep their streams, and the store what was appended to it. -/
theorem grows_of_step {s s' : Server} {t t' : Serving} (hs : Handling.Accounts s.service)
    (hk : Serving.Kept s) (ht : Handling.Relies s.service t.toHandling) (hc : Serving.Carries s t)
    (h : Serving.Step s t s' t') {u : Interaction} (hu : Told s u) : Told s' u := by
  obtain ⟨-, -, hmoves⟩ := h.keeps hs ht hk hc
  refine hu.grows hmoves.has ?_ fun streamId => ?_
  · cases h with
    | append => exact maxFramesPerStream_appendFrames _ _ _
    | _ => rfl
  · cases h with
    | append =>
      rw [appendedTo_concat]
      exact List.prefix_append _ _
    | _ => exact List.prefix_rfl

theorem told_of_reachable
    (h : ReflTransGen (Pool.Step Begins Step) (idle clock maxFramesPerStream) p) :
    ∀ t ∈ p.calls, Told p.shared t := by
  induction h with
  | refl => exact fun t ht => by cases ht
  | tail hreach hstep ih =>
    cases hstep with
    | @start s calls t ht =>
      intro u hu
      rcases List.mem_append.mp hu with hu | hu
      · exact ih u hu
      · obtain rfl := List.mem_singleton.mp hu
        cases u with
        | command | asked => trivial
        | _ => exact ht.elim
    | @step s s' l r t t' h =>
      obtain ⟨⟨haccounts, hkept⟩, hcalls, -⟩ :=
        Serving.holds_of_reachable (commands_of_reachable hreach)
      have hmiddle := ih t (by simp)
      have hown : Told s' t' ∧ ∀ u, Told s u → Told s' u := by
        cases h with
        | @command t t' s' h =>
          have hmem : t ∈ (l ++ .command t :: r).filterMap toCommand :=
            List.mem_filterMap.mpr ⟨.command t, by simp, rfl⟩
          obtain ⟨hrelies, hcarries⟩ := hcalls t hmem
          exact ⟨trivial, fun u hu => grows_of_step haccounts hkept hrelies hcarries h hu⟩
        | locate h => exact ⟨told_of_locate h, fun u hu => hu⟩
        | refuse h => exact ⟨trivial, fun u hu => hu⟩
        | answer =>
          exact ⟨⟨hmiddle.1, _, List.prefix_rfl, respond_eq_answerAt hkept hmiddle.2⟩,
            fun u hu => hu⟩
      intro u hu
      rcases List.mem_append.mp hu with hu | hu
      · exact hown.2 u (ih u (by simp [hu]))
      · rcases List.mem_cons.mp hu with rfl | hu
        · exact hown.1
        · exact hown.2 u (ih u (by simp [hu]))

/-- Queries may come between the steps of the handlers, and these between the two accesses of a
query. Only the session of a stream gets its frames: distinct frames out of those that operations on
this session have committed, which are numbered from 1 on, so that any two answers agree on the
frame of a number. Whichever of them a client applies, it shows the source data with the leaves that
came and blanks for the rest. When all handlers have ended, and as long as the history retains all,
an answer misses nothing. -/
theorem answers_of_reachable {sessionId : SessionId} {streamId : StreamId}
    (h : ReflTransGen (Pool.Step Begins Step) (idle clock maxFramesPerStream) p)
    {session : StreamSession}
    (hsession : p.shared.service.sessions.repository.store.get? sessionId = some session)
    {stream : Stream} (hstream : session.streams.get? streamId = some stream) {d : DataDocument}
    (hdata : stream.sourceData = some d)
    -- identifiers of streams are unique
    (hunique : ∀ other, other ≠ sessionId → ¬ p.shared.service.Has other streamId) :
    let committed := p.shared.service.committed sessionId streamId
    committed.map Frame.sequence = List.range' 1 committed.length ∧
    (∀ query response, .answered query response ∈ p.calls → query.streamId = streamId →
      query.sessionId = sessionId ∧ response.frames.Subperm committed ∧
      (response.frames.map Frame.sequence).Nodup ∧ (∀ frame ∈ response.frames, query.wants frame) ∧
      response.frames.length = min (pageSize query) response.totalCount) ∧
    (∀ frames : List Frame, (∀ frame ∈ frames, ∃ query response,
        .answered query response ∈ p.calls ∧ query.streamId = streamId ∧
          frame ∈ response.frames) →
      let settings := Frame.settings frames
      (∀ f ∈ frames, ∀ g ∈ frames, f.sequence = g.sequence → f = g) ∧
      Doc.runAll settings (Stream.generateSkeleton d.value) = some (Stream.view d.value settings) ∧
      (Stream.view d.value settings).Below Stream.Stands d.value ∧
      ((∀ s, d.value ≠ .scalar s) → (Stream.view d.value settings = d.value ↔
        ∀ leaf ∈ d.value.leaves (fun _ => True),
          leaf ∈ settings ∨ leaf.SetsBlank Stream.IsZero))) ∧
    ((∀ t, .command t ∈ p.calls → t.Ended) →
      committed.length ≤ p.shared.store.maxFramesPerStream →
      ∀ query response, query.streamId = streamId →
        handle p.shared.service.sessions.repository p.shared.store query = .ok response →
        response.totalCount = (committed.filter query.wants).length ∧
        (response.totalCount ≤ pageSize query →
          response.frames.Perm (committed.filter query.wants))) := by
  intro committed
  have hcommands := commands_of_reachable h
  obtain ⟨⟨-, hkept⟩, -⟩ := Serving.holds_of_reachable hcommands
  obtain ⟨hstored, hall⟩ := Serving.appended_of_reachable hcommands hunique
  have hissued := Serving.issued_of_reachable hcommands
  have hnumbered := hissued.numbered sessionId streamId
  have hnodup : (committed.map Frame.sequence).Nodup := hnumbered ▸ List.nodup_range'
  have hanswers : ∀ query response, .answered query response ∈ p.calls →
      query.streamId = streamId →
      query.sessionId = sessionId ∧ response.frames.Subperm committed ∧
      (∀ frame ∈ response.frames, query.wants frame) ∧
      response.frames.length = min (pageSize query) response.totalCount := by
    rintro query response hmem rfl
    obtain ⟨hhas, appended, hprefix, rfl⟩ := told_of_reachable h _ hmem
    have hsub : ((answerAt p.shared.store.maxFramesPerStream appended query).frames).Sublist
        (appendedTo p.shared.appends query.streamId) :=
      ((List.take_sublist _ _).trans List.filter_sublist).trans
        ((Feed.retained_suffix _ _).sublist.trans hprefix.sublist)
    refine ⟨?_, hsub.subperm.trans hstored, fun frame hframe => ?_, List.length_take⟩
    · by_contra hother
      exact hunique _ hother hhas
    · exact (List.mem_filter.mp (List.take_subset _ _ hframe)).2
  refine ⟨hnumbered, fun query response hmem hid => ?_, fun frames hframes => ?_,
    fun hended hcap query response hid hresponse => ?_⟩
  · obtain ⟨hown, hsub, hwants, hlength⟩ := hanswers query response hmem hid
    refine ⟨hown, hsub, ?_, hwants, hlength⟩
    obtain ⟨frames, hperm, hsublist⟩ := hsub
    exact (hperm.map Frame.sequence).nodup_iff.mp (hnodup.sublist (hsublist.map _))
  · have hmem : ∀ frame ∈ frames, frame ∈ committed := fun frame hframe => by
      obtain ⟨query, response, hanswered, hid, hin⟩ := hframes frame hframe
      exact (hanswers query response hanswered hid).2.1.subset hin
    have hgenuine : ∀ frame ∈ frames, session.Genuine streamId frame := fun frame hframe => by
      obtain ⟨-, session', hget, -, hgenuine⟩ :=
        hissued.issued sessionId streamId frame (hmem frame hframe)
      obtain rfl : session = session' := Option.some.inj (hsession.symm.trans hget)
      exact hgenuine
    have hleaves := StreamSession.mem_leaves_of_genuine hstream hdata hgenuine
    exact ⟨fun f hf g hg => List.inj_on_of_nodup_map hnodup (hmem f hf) (hmem g hg),
      Stream.runAll_eq_view hleaves, Stream.view_below d _,
      fun hroot => Stream.view_eq_self_iff hroot hleaves⟩
  · subst hid
    have hperm : (appendedTo p.shared.appends query.streamId).Perm committed := by
      refine hall fun t ht => ?_
      obtain ⟨u, hu, hpick⟩ := List.mem_filterMap.mp ht
      cases u with
      | command u =>
        obtain rfl : u = t := Option.some.inj hpick
        exact hended u hu
      | _ => cases hpick
    have hretained : Feed.retained p.shared.store.maxFramesPerStream
        (appendedTo p.shared.appends query.streamId) =
          appendedTo p.shared.appends query.streamId := by
      rw [Feed.retained, hperm.length_eq, Nat.sub_eq_zero_of_le hcap, List.drop_zero]
    have hwanted := hperm.filter query.wants
    rw [handle] at hresponse
    cases hlocate : locate p.shared.service.sessions.repository query with
    | error e =>
      rw [hlocate] at hresponse
      cases hresponse
    | ok priorityFilter =>
      rw [hlocate] at hresponse
      obtain rfl := Except.ok.inj hresponse
      rw [respond_eq_answerAt hkept (told_of_locate hlocate).2, answerAt, hretained]
      refine ⟨hwanted.length_eq, fun hle => ?_⟩
      dsimp only at hle ⊢
      rw [List.take_of_length_le hle]
      exact hwanted

end Runs

section Served

open SessionCommandHandler.Task (obtained)

def query : GetStreamFramesQuery := ⟨⟨0⟩, ⟨1⟩, none, none, none⟩

/-- A handler has committed two frames, and the first is appended, after the query had found the
stream. -/
def served : Pool Server Interaction :=
  let frames := obtained Serving.started.repository (Serving.oneFrame Serving.started)
  let server : Server := { Serving.halfway.shared with
    store := Serving.halfway.shared.store.appendFrames ⟨1⟩ frames
    appends := [⟨⟨0⟩, ⟨1⟩, frames⟩] }
  ⟨server, (Serving.halfway.calls.set 3
      (.appending ⟨0⟩ [] ⟨[Serving.batched], 0, .removing []⟩)).map .command ++
    [.answered query (respond server.store query none)]⟩

theorem reaches_served : ReflTransGen (Pool.Step Begins Step) (idle 0 2) served := by
  have hhalfway : ReflTransGen (Pool.Step Begins Step) (idle 0 2)
      ⟨Serving.halfway.shared, Serving.halfway.calls.map .command⟩ :=
    Pool.map_reachable Interaction.command (fun _ ht => ht) (fun _ _ _ _ h => .command h)
      Serving.reaches_halfway
  have hlocate : locate Serving.halfway.shared.service.sessions.repository query = .ok none := rfl
  refine hhalfway.trans ?_
  refine .head (.start (show Begins (.asked query) from trivial)) ?_
  refine .head (.step (l := [_, _, _, _, _]) (r := []) (.locate hlocate)) ?_
  refine .head (.step (l := [_, _, _]) (r := [_, _]) (.command (.published rfl .one))) ?_
  refine .head (.step (l := [_, _, _]) (r := [_, _]) (.command .append)) ?_
  exact .single (.step (l := [_, _, _, _, _]) (r := []) .answer)

theorem answers_of_reachable_served :
    let response := respond served.shared.store query none
    .answered query response ∈ served.calls ∧ response.frames.map Frame.sequence = [1] ∧
    (served.shared.service.committed ⟨0⟩ ⟨1⟩).map Frame.sequence = [1, 2] ∧
    response.frames.Subperm (served.shared.service.committed ⟨0⟩ ⟨1⟩) := by
  intro response
  have hkeys : served.shared.service.sessions.repository.store.keys = [⟨0⟩] := by decide +kernel
  have hunique : ∀ other, other ≠ ⟨0⟩ → ¬ served.shared.service.Has other ⟨1⟩ := by
    rintro other hne ⟨session, hget, -⟩
    have hmem : other ∈ served.shared.service.sessions.repository.store.keys :=
      AssocMap.mem_keys_iff.mpr ⟨session, hget⟩
    rw [hkeys, List.mem_singleton] at hmem
    exact hne hmem
  obtain ⟨session, hsession, stream, hstream, hdata⟩ : ∃ session,
      served.shared.service.sessions.repository.store.get? ⟨0⟩ = some session ∧ ∃ stream,
        session.streams.get? ⟨1⟩ = some stream ∧
          stream.sourceData = some Stream.userDocument := ⟨_, rfl, _, rfl, rfl⟩
  have hmem : .answered query response ∈ served.calls := by
    rw [served]
    exact List.mem_append_right _ (List.mem_singleton_self _)
  have hanswers := answers_of_reachable reaches_served hsession hstream hdata hunique
  exact ⟨hmem, by decide +kernel, by decide +kernel, (hanswers.2.1 query response hmem rfl).2.1⟩

end Served

end Interaction

end SessionCommandHandler

end PJS
