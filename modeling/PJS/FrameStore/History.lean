import PJS.Lib.Assoc
import PJS.Lib.Feed
import PJS.Domain.Frame

/-! `InMemoryFrameStore`: the latest frames of every stream, and the pages read from them. -/
namespace PJS

structure FrameStorePage where
  frames : List Frame
  totalMatching : ℕ
deriving DecidableEq

structure InMemoryFrameStore where
  frames : AssocMap StreamId (List Frame)
  maxFramesPerStream : ℕ
  pos : 0 < maxFramesPerStream

namespace InMemoryFrameStore

/-- A zero capacity counts as 1. -/
def withCapacity (maxFramesPerStream : ℕ) : InMemoryFrameStore :=
  ⟨.empty, max maxFramesPerStream 1, by omega⟩

def defaultFrameHistoryPerStream : ℕ := 10000

def new : InMemoryFrameStore := withCapacity defaultFrameHistoryPerStream

def streamCount (store : InMemoryFrameStore) : ℕ := store.frames.size

/-- The retained frames of a stream, oldest first. -/
def history (store : InMemoryFrameStore) (streamId : StreamId) : List Frame :=
  (store.frames.get? streamId).getD []

def appendFrames (store : InMemoryFrameStore) (streamId : StreamId) (frames : List Frame) :
    InMemoryFrameStore :=
  if frames.isEmpty then store
  else { store with
    frames := store.frames.insert streamId
      (frames.foldl (Feed.push store.maxFramesPerStream) (store.history streamId)) }

/-- One round of the loop of `get_frames`. -/
def collect (sinceSequence minPriority limit : Option ℕ) (page : FrameStorePage) (frame : Frame) :
    FrameStorePage :=
  if sinceSequence.any (frame.sequence ≤ ·) then page
  else if minPriority.any (frame.priority.value < ·) then page
  else ⟨if limit.all (page.frames.length < ·) then page.frames ++ [frame] else page.frames,
    page.totalMatching + 1⟩

def getFrames (store : InMemoryFrameStore) (streamId : StreamId) (sinceSequence : Option ℕ)
    (priorityFilter : Option Priority) (limit : Option ℕ) : FrameStorePage :=
  match store.frames.get? streamId with
  | none => ⟨[], 0⟩
  | some history =>
    history.foldl (collect sinceSequence (priorityFilter.map Priority.value) limit) ⟨[], 0⟩

def deleteFramesForStream (store : InMemoryFrameStore) (streamId : StreamId) :
    InMemoryFrameStore :=
  { store with frames := store.frames.erase streamId }

/-- The frames that a page asks for. -/
def matching (sinceSequence : Option ℕ) (priorityFilter : Option Priority) (frame : Frame) : Bool :=
  sinceSequence.all (· < frame.sequence) && priorityFilter.all (·.value ≤ frame.priority.value)

/-- The first elements of a list, as many as the limit allows. -/
def capped (limit : Option ℕ) (frames : List Frame) : List Frame :=
  match limit with
  | none => frames
  | some n => frames.take n

variable {store : InMemoryFrameStore} {streamId : StreamId}

theorem history_appendFrames (store : InMemoryFrameStore) (streamId id : StreamId)
    (frames : List Frame) : (store.appendFrames streamId frames).history id =
      if id = streamId then
        frames.foldl (Feed.push store.maxFramesPerStream) (store.history streamId)
      else store.history id := by
  rw [appendFrames]
  cases frames with
  | nil =>
    rw [if_pos List.isEmpty_nil, List.foldl_nil]
    split_ifs with hid
    · rw [hid]
    · rfl
  | cons frame frames =>
    rw [if_neg (by simp), history, AssocMap.get?_insert]
    split_ifs with hid
    · rw [Option.getD_some]
    · rfl

@[simp] theorem maxFramesPerStream_appendFrames (store : InMemoryFrameStore) (streamId : StreamId)
    (frames : List Frame) :
    (store.appendFrames streamId frames).maxFramesPerStream = store.maxFramesPerStream := by
  rw [appendFrames]
  split_ifs <;> rfl

theorem isPrefix_capped (limit : Option ℕ) (frames : List Frame) :
    capped limit frames <+: frames := by
  cases limit with
  | none => exact List.prefix_rfl
  | some n => exact List.take_prefix n frames

theorem capped_concat (limit : Option ℕ) (frames : List Frame) (frame : Frame) :
    (if limit.all ((capped limit frames).length < ·) then capped limit frames ++ [frame]
      else capped limit frames) = capped limit (frames ++ [frame]) := by
  cases limit with
  | none => rfl
  | some n =>
    simp only [Option.all_some, capped, decide_eq_true_eq, List.length_take]
    split_ifs with hn
    · have hlt : frames.length < n := by omega
      rw [List.take_of_length_le hlt.le,
        List.take_of_length_le (by rw [List.length_append, List.length_singleton]; omega)]
    · rw [List.take_append_of_le_length (by omega)]

theorem matching_eq_not_skipped (sinceSequence : Option ℕ) (priorityFilter : Option Priority)
    (frame : Frame) : matching sinceSequence priorityFilter frame =
      !(sinceSequence.any (frame.sequence ≤ ·) ||
        (priorityFilter.map Priority.value).any (frame.priority.value < ·)) := by
  have hsince : ∀ since : ℕ, decide (since < frame.sequence) = !decide (frame.sequence ≤ since) :=
    fun since => by rw [← decide_not, decide_eq_decide, not_le]
  have hmin : ∀ p : Priority,
      decide (p.value ≤ frame.priority.value) = !decide (frame.priority.value < p.value) :=
    fun p => by rw [← decide_not, decide_eq_decide, not_lt]
  rw [matching, Bool.not_or]
  cases sinceSequence <;> cases priorityFilter <;>
    simp only [Option.all_none, Option.all_some, Option.any_none, Option.any_some, Option.map_none,
      Option.map_some, Bool.not_false, hsince, hmin]

theorem collect_eq (sinceSequence : Option ℕ) (priorityFilter : Option Priority)
    (limit : Option ℕ) (page : FrameStorePage) (frame : Frame) :
    collect sinceSequence (priorityFilter.map Priority.value) limit page frame =
      if matching sinceSequence priorityFilter frame then
        ⟨if limit.all (page.frames.length < ·) then page.frames ++ [frame] else page.frames,
          page.totalMatching + 1⟩
      else page := by
  rw [collect, matching_eq_not_skipped]
  cases sinceSequence.any (frame.sequence ≤ ·) <;>
    cases (priorityFilter.map Priority.value).any (frame.priority.value < ·) <;> rfl

/-- The loop lists the first matching frames and counts them all. -/
theorem foldl_collect (sinceSequence : Option ℕ) (priorityFilter : Option Priority)
    (limit : Option ℕ) (seen history : List Frame) :
    history.foldl (collect sinceSequence (priorityFilter.map Priority.value) limit)
        ⟨capped limit seen, seen.length⟩ =
      ⟨capped limit (seen ++ history.filter (matching sinceSequence priorityFilter)),
        (seen ++ history.filter (matching sinceSequence priorityFilter)).length⟩ := by
  induction history generalizing seen with
  | nil => rw [List.foldl_nil, List.filter_nil, List.append_nil]
  | cons frame history ih =>
    rw [List.foldl_cons, collect_eq]
    by_cases hm : matching sinceSequence priorityFilter frame
    · have hlen : (seen ++ [frame]).length = seen.length + 1 := by simp
      rw [if_pos hm, List.filter_cons_of_pos hm, capped_concat, ← hlen, ih, List.append_assoc,
        List.singleton_append]
    · rw [if_neg hm, List.filter_cons_of_neg hm]
      exact ih seen

/-- A page lists the first retained frames that match, and counts all that do. -/
theorem getFrames_eq (store : InMemoryFrameStore) (streamId : StreamId)
    (sinceSequence : Option ℕ) (priorityFilter : Option Priority) (limit : Option ℕ) :
    store.getFrames streamId sinceSequence priorityFilter limit =
      ⟨capped limit ((store.history streamId).filter (matching sinceSequence priorityFilter)),
        ((store.history streamId).filter (matching sinceSequence priorityFilter)).length⟩ := by
  have hnil : capped limit [] = [] := List.prefix_nil.mp (isPrefix_capped limit [])
  rw [getFrames, history]
  cases store.frames.get? streamId with
  | none => rw [Option.getD_none, List.filter_nil, hnil, List.length_nil]
  | some history =>
    have hloop := foldl_collect sinceSequence priorityFilter limit [] history
    rw [hnil, List.nil_append] at hloop
    exact hloop

end InMemoryFrameStore

end PJS
