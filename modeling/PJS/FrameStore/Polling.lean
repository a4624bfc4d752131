import PJS.Lib.Trace
import PJS.FrameStore.History

/-! Clients that poll an `InMemoryFrameStore` for the frames after the last one they have, while
frames are appended: none receives a frame twice, and each receives every frame it asks for but
those evicted before its cursor came that far. -/
namespace PJS.InMemoryFrameStore

/-- What a client polls for. -/
structure Client where
  streamId : StreamId
  priorityFilter : Option Priority

namespace Client

def wants (client : Client) (frame : Frame) : Bool :=
  client.priorityFilter.all (·.value ≤ frame.priority.value)

end Client

inductive Event (ι : Type*)
  | append (streamId : StreamId) (frames : List Frame)
  | poll (i : ι) (limit : Option ℕ)

/-- The store, all frames ever appended, the frames of the pages that every client received, and
those that were evicted before its cursor reached them. -/
structure World (ι : Type*) where
  store : InMemoryFrameStore
  appended : StreamId → List Frame
  received : ι → List Frame
  missed : ι → List Frame

namespace World

variable {ι : Type*}

/-- The largest sequence a client has received. -/
def cursor (w : World ι) (i : ι) : Option ℕ := ((w.received i).map Frame.sequence).max?

def reached (w : World ι) (i : ι) (frame : Frame) : Bool := (w.cursor i).any (frame.sequence ≤ ·)

variable (clients : ι → Client)

def page (w : World ι) (i : ι) (limit : Option ℕ) : FrameStorePage :=
  w.store.getFrames (clients i).streamId (w.cursor i) (clients i).priorityFilter limit

/-- The oldest frames of the changed stream, beyond the capacity of the store: those of them that a
client wanted and its cursor had not reached. -/
def evicted (w : World ι) (streamId : StreamId) (frames : List Frame) (i : ι) : List Frame :=
  if (clients i).streamId = streamId then
    (Feed.aged w.store.maxFramesPerStream (w.appended streamId) frames).filter fun frame =>
      (clients i).wants frame && !w.reached i frame
  else []

/-- An empty store, and clients that have received nothing. -/
def start (maxFramesPerStream : ℕ) : World ι :=
  ⟨withCapacity maxFramesPerStream, fun _ => [], fun _ => [], fun _ => []⟩

theorem not_reached_iff (w : World ι) (i : ι) (frame : Frame) :
    w.reached i frame = false ↔ Feed.Beyond Frame.sequence (w.received i) frame := by
  rw [reached, cursor]
  cases hmax : ((w.received i).map Frame.sequence).max? with
  | none =>
    have hnil := List.map_eq_nil_iff.mp (List.max?_eq_none_iff.mp hmax)
    simp [hnil, Feed.Beyond]
  | some c =>
    obtain ⟨hmem, hle⟩ := List.max?_eq_some_iff.mp hmax
    rw [Option.any_some, decide_eq_false_iff_not, not_le]
    constructor
    · intro hlt r hr
      exact (hle r.sequence (List.mem_map_of_mem hr)).trans_lt hlt
    · intro hb
      obtain ⟨r, hr, rfl⟩ := List.mem_map.mp hmem
      exact hb r hr

theorem decide_beyond (w : World ι) (i : ι) (frame : Frame) :
    decide (Feed.Beyond Frame.sequence (w.received i) frame) = !w.reached i frame := by
  rw [Bool.eq_iff_iff, decide_eq_true_eq, Bool.not_eq_true', not_reached_iff]

theorem matching_cursor (w : World ι) (i : ι) (frame : Frame) :
    matching (w.cursor i) (clients i).priorityFilter frame =
      ((clients i).wants frame && !w.reached i frame) := by
  have hsince : (w.cursor i).all (· < frame.sequence) = !w.reached i frame := by
    rw [reached]
    cases w.cursor i with
    | none => rfl
    | some c => rw [Option.all_some, Option.any_some, ← decide_not, decide_eq_decide, not_le]
  rw [matching, hsince, Bool.and_comm, Client.wants]

/-- What the store has for a client beyond its cursor. -/
def ahead (w : World ι) (i : ι) : List Frame :=
  (w.store.history (clients i).streamId).filter fun frame =>
    (clients i).wants frame && !w.reached i frame

theorem ahead_eq (w : World ι) (i : ι) : w.ahead clients i =
    Feed.ahead Frame.sequence (clients i).wants (w.received i)
      (w.store.history (clients i).streamId) := by
  refine List.filter_congr fun frame _ => ?_
  rw [decide_beyond]

theorem page_eq (w : World ι) (i : ι) (limit : Option ℕ) :
    w.page clients i limit = ⟨capped limit (w.ahead clients i), (w.ahead clients i).length⟩ := by
  have hmatch : matching (w.cursor i) (clients i).priorityFilter =
      fun frame => (clients i).wants frame && !w.reached i frame :=
    funext fun frame => w.matching_cursor clients i frame
  rw [page, getFrames_eq, hmatch, ahead]

theorem evicted_eq (w : World ι) (frames : List Frame) (i : ι) :
    w.evicted clients (clients i).streamId frames i =
      Feed.ahead Frame.sequence (clients i).wants (w.received i)
        (Feed.aged w.store.maxFramesPerStream (w.appended (clients i).streamId) frames) := by
  rw [evicted, if_pos rfl, Feed.ahead]
  refine List.filter_congr fun frame _ => ?_
  rw [decide_beyond]

/-- What holds of the store and of every client throughout a run. -/
structure Sound (w : World ι) : Prop where
  ordered : ∀ id, (w.appended id).Pairwise (·.sequence < ·.sequence)
  history : ∀ id,
    w.store.history id = Feed.retained w.store.maxFramesPerStream (w.appended id)
  follows : ∀ i, Feed.Follows (clients i).wants (w.appended (clients i).streamId)
    (w.store.history (clients i).streamId) (w.received i) (w.missed i)

theorem sound_start (maxFramesPerStream : ℕ) : Sound clients (start maxFramesPerStream) where
  ordered _ := List.Pairwise.nil
  history _ := List.drop_nil.symm
  follows i := Feed.follows_nil (clients i).wants

/-- Frames of a stream are appended in the order of their sequences. -/
def allowed (w : World ι) : Event ι → Prop
  | .append streamId frames => (w.appended streamId ++ frames).Pairwise (·.sequence < ·.sequence)
  | .poll _ limit => limit.all (1 ≤ ·)

variable [DecidableEq ι]

def post (w : World ι) : Event ι → World ι
  | .append streamId frames => { w with
      store := w.store.appendFrames streamId frames
      appended := Function.update w.appended streamId (w.appended streamId ++ frames)
      missed := fun i => w.missed i ++ w.evicted clients streamId frames i }
  | .poll i limit => { w with
      received := Function.update w.received i (w.received i ++ (w.page clients i limit).frames) }

instance (w : World ι) (e : Event ι) : Decidable (w.allowed e) :=
  match e with
  | .append _ _ => inferInstanceAs (Decidable (List.Pairwise _ _))
  | .poll _ _ => inferInstanceAs (Decidable (_ = true))

/-- A sequence of appends and polls on an empty store. -/
def Run (maxFramesPerStream : ℕ) (events : List (Event ι)) (w : World ι) : Prop :=
  Trace allowed (post clients) (start maxFramesPerStream) events w

variable {clients} {w : World ι}

theorem Sound.append (h : w.Sound clients) {streamId : StreamId} {frames : List Frame}
    (hallowed : w.allowed (.append streamId frames)) :
    (w.post clients (.append streamId frames)).Sound clients := by
  have hhistory : ∀ id, (w.store.appendFrames streamId frames).history id =
      Feed.retained w.store.maxFramesPerStream
        (Function.update w.appended streamId (w.appended streamId ++ frames) id) := by
    intro id
    rw [history_appendFrames]
    split_ifs with hid
    · subst hid
      rw [h.history, Feed.foldl_push_retained w.store.pos, Function.update_self]
    · rw [h.history, Function.update_of_ne hid]
  refine ⟨fun id => ?_, fun id => ?_, fun i => ?_⟩
  · by_cases hid : id = streamId
    · subst hid
      simp only [post, Function.update_self]
      exact hallowed
    · simp only [post, Function.update_of_ne hid]
      exact h.ordered id
  · have hcap := maxFramesPerStream_appendFrames w.store streamId frames
    simp only [post, hcap]
    exact hhistory id
  · by_cases hid : (clients i).streamId = streamId
    · subst hid
      have hlog : ∀ a ∈ (w.store.appendFrames (clients i).streamId frames).history
          (clients i).streamId, a ∈ w.store.history (clients i).streamId ∨ a ∈ frames := by
        intro a ha
        rw [hhistory, Function.update_self] at ha
        rw [h.history]
        exact Feed.mem_of_mem_retained_append ha
      have hsub : ∀ a ∈ w.store.history (clients i).streamId,
          a ∈ w.appended (clients i).streamId := by
        intro a ha
        rw [h.history] at ha
        exact (Feed.retained_suffix _ _).subset ha
      have hnodup : (w.appended (clients i).streamId ++ frames).Nodup :=
        hallowed.imp fun hlt heq => hlt.ne (congrArg Frame.sequence heq)
      have hfollows := (h.follows i).append hallowed hlog hsub
      rw [hhistory, Function.update_self, h.history, Feed.dropped_retained hnodup, ← evicted_eq]
        at hfollows
      simp only [post, Function.update_self, hhistory]
      exact hfollows
    · have hsame : (w.store.appendFrames streamId frames).history (clients i).streamId =
          w.store.history (clients i).streamId := by
        rw [history_appendFrames, if_neg hid]
      have hmissed : w.evicted clients streamId frames i = [] := if_neg hid
      simp only [post, hsame, hmissed, List.append_nil, Function.update_of_ne hid]
      exact h.follows i

theorem Sound.poll (h : w.Sound clients) (i : ι) (limit : Option ℕ) :
    (w.post clients (.poll i limit)).Sound clients := by
  refine ⟨h.ordered, h.history, fun j => ?_⟩
  by_cases hj : j = i
  · subst hj
    have hsuffix : w.store.history (clients j).streamId <:+ w.appended (clients j).streamId := by
      rw [h.history]
      exact Feed.retained_suffix _ _
    have hpage : (w.page clients j limit).frames <+: Feed.ahead Frame.sequence (clients j).wants
        (w.received j) (w.store.history (clients j).streamId) := by
      rw [page_eq, ← ahead_eq]
      exact isPrefix_capped limit _
    have hfollows := (h.follows j).receive (h.ordered _) hsuffix hpage
    simp only [post, Function.update_self]
    exact hfollows
  · simp only [post, Function.update_of_ne hj]
    exact h.follows j

theorem Run.sound {maxFramesPerStream : ℕ} {events : List (Event ι)}
    (h : Run clients maxFramesPerStream events w) : w.Sound clients := by
  refine Trace.invariant (fun w e _ he hw => ?_) h (sound_start clients maxFramesPerStream)
  cases e with
  | append streamId frames => exact hw.append he
  | poll i limit => exact hw.poll i limit

theorem Run.maxFramesPerStream_eq {maxFramesPerStream : ℕ} {events : List (Event ι)}
    (h : Run clients maxFramesPerStream events w) :
    w.store.maxFramesPerStream = max maxFramesPerStream 1 := by
  refine Trace.invariant (P := fun w => w.store.maxFramesPerStream = max maxFramesPerStream 1)
    (fun w e _ _ hw => ?_) h rfl
  cases e with
  | append streamId frames =>
    simp only [post, maxFramesPerStream_appendFrames]
    exact hw
  | poll i limit => exact hw

/-- A client receives the frames it wants in order, each once, up to its cursor, except those it
missed; the others are retained for it, every page counts what is, and the histories are the last
frames that were appended, as many as the capacity. -/
theorem Run.received_exactly {maxFramesPerStream : ℕ} {events : List (Event ι)}
    (h : Run clients maxFramesPerStream events w) (i : ι) :
    (w.received i).Pairwise (·.sequence < ·.sequence) ∧
    w.received i = (w.appended (clients i).streamId).filter (fun frame =>
      (clients i).wants frame && decide (frame ∉ w.missed i) && w.reached i frame) ∧
    (∀ frame ∈ w.appended (clients i).streamId, (clients i).wants frame →
      frame ∈ w.received i ∨ frame ∈ w.missed i ∨ frame ∈ w.ahead clients i) ∧
    (∀ frame ∈ w.missed i, frame ∉ w.received i ∧
      frame ∉ w.store.history (clients i).streamId) ∧
    (∀ limit, w.page clients i limit =
      ⟨capped limit (w.ahead clients i), (w.ahead clients i).length⟩) ∧
    ∀ streamId, w.store.history streamId =
        Feed.retained (max maxFramesPerStream 1) (w.appended streamId) ∧
      (w.store.history streamId).length ≤ max maxFramesPerStream 1 := by
  have hsound := h.sound
  have hordered := hsound.ordered (clients i).streamId
  have hfollows := hsound.follows i
  refine ⟨hfollows.pairwise_received hordered, ?_, ?_, ?_, fun limit => w.page_eq clients i limit,
    fun streamId => ?_⟩
  · have heq := hfollows.received_eq hordered
    rw [Feed.due, List.filter_filter] at heq
    refine heq.trans (List.filter_congr fun frame _ => ?_)
    rw [decide_not, decide_beyond, Bool.not_not, Bool.and_comm]
  · intro frame hmem hw
    by_cases hmissed : frame ∈ w.missed i
    · exact Or.inr (Or.inl hmissed)
    by_cases hreceived : frame ∈ w.received i
    · exact Or.inl hreceived
    have hdue := Feed.mem_due.mpr ⟨hmem, hw, hmissed⟩
    have hbeyond := hfollows.beyond hordered hdue hreceived
    rw [ahead_eq]
    exact Or.inr (Or.inr (Feed.mem_ahead.mpr ⟨hfollows.in_log frame hdue hreceived, hw, hbeyond⟩))
  · intro frame hmissed
    obtain ⟨-, -, hgone, hreceived⟩ := hfollows.gone frame hmissed
    exact ⟨hreceived, hgone⟩
  · rw [hsound.history, h.maxFramesPerStream_eq]
    refine ⟨rfl, ?_⟩
    rw [Feed.length_retained]
    exact min_le_left _ _

/-- A client of priority 80 and more receives frames 1 and 4 of five, in two pages; frame 3 is
evicted from a store of two frames before its second poll. -/
def sampleEvents : List (Event Unit) :=
  let streamId : StreamId := ⟨1⟩
  let frame (sequence : ℕ) (priority : Priority) : Frame :=
    ⟨streamId, .patch, priority, sequence, .epoch, .object [], .empty⟩
  [.append streamId [frame 1 .high, frame 2 .low], .poll () none,
    .append streamId [frame 3 .high, frame 4 .critical, frame 5 .high], .poll () (some 1)]

def sampleClients : Unit → Client := fun _ => ⟨⟨1⟩, some .high⟩

def sampleWorld : World Unit := sampleEvents.foldl (post sampleClients) (start 2)

theorem Run.received_exactly_sample :
    (sampleWorld.received ()).map Frame.sequence = [1, 4] ∧
    (sampleWorld.missed ()).map Frame.sequence = [3] ∧
    (sampleWorld.received ()).Pairwise (·.sequence < ·.sequence) ∧
    sampleWorld.store.history ⟨1⟩ = Feed.retained 2 (sampleWorld.appended ⟨1⟩) ∧
    (sampleWorld.store.history ⟨1⟩).map Frame.sequence = [4, 5] := by
  have hrun : Run sampleClients 2 sampleEvents sampleWorld := Trace.of_guarded (by decide +kernel)
  obtain ⟨hordered, -, -, -, -, hhistory⟩ := Run.received_exactly hrun ()
  exact ⟨by decide +kernel, by decide +kernel, hordered, (hhistory ⟨1⟩).1, by decide +kernel⟩

end World

end PJS.InMemoryFrameStore
