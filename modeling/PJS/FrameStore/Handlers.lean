import PJS.Session.CommitOrder
import PJS.Repository.Repository
import PJS.FrameStore.Polling

/-! The handlers of `GenerateFramesCommand` and `BatchGenerateFramesCommand`, with clients that
poll meanwhile. A handler has the repository generate frames, publishes the events and trains the
dictionary, and then appends the frames of each stream to the frame store. -/
namespace PJS.SessionCommandHandler

open GatInMemoryStreamRepository InMemoryFrameStore

/-- The sessions, and the frame store with what its clients have received. -/
structure Backend (ι : Type*) where
  repository : GatInMemoryStreamRepository
  frames : World ι

/-- Group frames by stream. -/
def buckets (frames : List Frame) : AssocMap StreamId (List Frame) :=
  frames.foldl (fun buckets frame =>
    buckets.insert frame.streamId ((buckets.get? frame.streamId).getD [] ++ [frame])) .empty

/-- What a handler appends, stream by stream: frames of one stream all at once, those of a batch
in the order in which the map of groups is iterated. -/
inductive Groups :
    GatInMemoryStreamRepository.Request → List Frame → List (StreamId × List Frame) → Prop
  | one {streamId : StreamId} {priorityThreshold : Priority} {maxFrames : ℕ} {frames : List Frame} :
    Groups (.createStreamPatchFrames streamId priorityThreshold maxFrames) frames
      [(streamId, frames)]
  | many {priorityThreshold : Priority} {maxFrames : ℕ} {frames : List Frame}
    {groups : List (StreamId × List Frame)} (h : groups.Perm (buckets frames).entries) :
    Groups (.batchGenerateFrames priorityThreshold maxFrames) frames groups

/-- A handler whose command is valid, or a client that polls once. -/
inductive Task (ι : Type*)
  | calling (c : AtomicCall)
  | publishing (request : GatInMemoryStreamRepository.Request) (frames : List Frame)
  | appending (groups : List (StreamId × List Frame)) (frames : List Frame)
  | returned (frames : List Frame)
  | failed
  | polling (i : ι) (limit : Option ℕ)
  | polled (i : ι)

namespace Task

variable {ι : Type*} [DecidableEq ι] (clients : ι → Client)

/-- The steps of a handler: those of its call of the repository, the publication of the events,
which may fail, and one for each group that it appends. -/
inductive Step (s : Backend ι) : Task ι → Backend ι → Task ι → Prop
  | repository {c c' : AtomicCall} {repository' : GatInMemoryStreamRepository}
    (h : AtomicCall.Step s.repository c repository' c') :
    Step s (.calling c) { s with repository := repository' } (.calling c')
  | generated {handle : ℕ} {sessionId : SessionId}
    {request : GatInMemoryStreamRepository.Request} {frames : List Frame}
    {events : List DomainEvent} :
    Step s (.calling ⟨handle, sessionId, request, .returned (.ok (.frames frames, events))⟩) s
      (.publishing request frames)
  | refused {handle : ℕ} {sessionId : SessionId}
    {request : GatInMemoryStreamRepository.Request} {e : DomainError} :
    Step s (.calling ⟨handle, sessionId, request, .returned (.error e)⟩) s .failed
  | unpublished {request : GatInMemoryStreamRepository.Request} {frames : List Frame} :
    Step s (.publishing request frames) s .failed
  | published {request : GatInMemoryStreamRepository.Request} {frames : List Frame}
    {groups : List (StreamId × List Frame)} (h : Groups request frames groups) :
    Step s (.publishing request frames) s (.appending groups frames)
  | append {streamId : StreamId} {group : List Frame} {groups : List (StreamId × List Frame)}
    {frames : List Frame} :
    Step s (.appending ((streamId, group) :: groups) frames)
      { s with frames := s.frames.post clients (.append streamId group) }
      (.appending groups frames)
  | done {frames : List Frame} : Step s (.appending [] frames) s (.returned frames)
  | poll {i : ι} {limit : Option ℕ} :
    Step s (.polling i limit) { s with frames := s.frames.post clients (.poll i limit) }
      (.polled i)

/-- Operations on one session, among them those of the two handlers, and polls. -/
def Begins (sessionId : SessionId) : Task ι → Prop
  | .calling c => c.Begins ∧ c.sessionId = sessionId
  | .polling _ _ => True
  | _ => False

/-- One repository with these sessions, an empty frame store, and clients that have nothing. -/
def idle (store : AssocMap SessionId StreamSession) (clock maxFramesPerStream : ℕ) :
    Pool (Backend ι) (Task ι) :=
  ⟨⟨ofStore store clock, .start maxFramesPerStream⟩, []⟩

end Task

section Buckets

theorem get?_buckets (frames : List Frame) (id : StreamId) :
    ((buckets frames).get? id).getD [] = frames.filter fun f => f.streamId = id := by
  have hloop : ∀ (m : AssocMap StreamId (List Frame)),
      ((frames.foldl (fun buckets frame => buckets.insert frame.streamId
        ((buckets.get? frame.streamId).getD [] ++ [frame])) m).get? id).getD [] =
      (m.get? id).getD [] ++ frames.filter fun f => f.streamId = id := by
    induction frames with
    | nil => intro m; simp
    | cons frame frames ih =>
      intro m
      rw [List.foldl_cons, ih, AssocMap.get?_insert]
      by_cases hid : frame.streamId = id
      · subst hid
        simp
      · simp [hid, Ne.symm hid]
  have h := hloop .empty
  rwa [show (AssocMap.empty : AssocMap StreamId (List Frame)).get? id = none from rfl,
    Option.getD_none, List.nil_append] at h

/-- The frames that a list of groups has for a stream. -/
def ofStream (groups : List (StreamId × List Frame)) (id : StreamId) : List Frame :=
  (groups.filter fun g => g.1 = id).flatMap Prod.snd

theorem ofStream_cons (streamId : StreamId) (group : List Frame)
    (groups : List (StreamId × List Frame)) (id : StreamId) :
    ofStream ((streamId, group) :: groups) id =
      (if streamId = id then group else []) ++ ofStream groups id := by
  rw [ofStream, List.filter_cons]
  by_cases hid : streamId = id <;> simp [hid, ofStream]

theorem ofStream_of_perm {groups : List (StreamId × List Frame)}
    {m : AssocMap StreamId (List Frame)} (h : groups.Perm m.entries) (id : StreamId) :
    ofStream groups id = (m.get? id).getD [] := by
  have hnodup : (groups.map Prod.fst).Nodup := (h.map Prod.fst).nodup_iff.mpr m.nodup
  have hlookup : groups.lookup id = m.get? id := by
    cases hget : m.get? id with
    | none =>
      refine Assoc.lookup_eq_none_iff_notMem.mpr fun hmem => ?_
      exact Assoc.lookup_eq_none_iff_notMem.mp hget ((h.map Prod.fst).mem_iff.mp hmem)
    | some frames =>
      exact Assoc.lookup_of_mem hnodup (h.mem_iff.mpr (AssocMap.get?_eq_some_iff.mp hget))
  rw [← hlookup]
  clear h hlookup
  induction groups with
  | nil => rfl
  | cons g groups ih =>
    obtain ⟨streamId, group⟩ := g
    rw [List.map_cons, List.nodup_cons] at hnodup
    rw [ofStream_cons, ih hnodup.2]
    by_cases hid : streamId = id
    · subst hid
      rw [Assoc.lookup_eq_none_iff_notMem.mpr hnodup.1]
      simp
    · rw [if_neg hid, Assoc.lookup_cons_ne (Ne.symm hid), List.nil_append]

/-- The frames that a handler has for a stream. -/
def share (request : GatInMemoryStreamRepository.Request) (frames : List Frame) (id : StreamId) :
    List Frame :=
  match request with
  | .createStreamPatchFrames streamId _ _ => if streamId = id then frames else []
  | _ => frames.filter fun f => f.streamId = id

theorem ofStream_of_groups {request : GatInMemoryStreamRepository.Request} {frames : List Frame}
    {groups : List (StreamId × List Frame)} (h : Groups request frames groups) (id : StreamId) :
    ofStream groups id = share request frames id := by
  cases h with
  | one =>
    rw [ofStream_cons, share]
    exact List.append_nil _
  | many h =>
    rw [ofStream_of_perm h, get?_buckets]
    rfl

end Buckets

end PJS.SessionCommandHandler
