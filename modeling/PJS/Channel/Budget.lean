import PJS.Channel.BoundedChannel

/-! The byte budget over any interleaving: the permits that are available, queued or held add up
to the budget, a send that does not succeed takes nothing from it, and what is received is what
was admitted, in the same order. -/
namespace PJS.BoundedChannel

open Relation

variable {T : Type} {maxQueuedBytes : ℕ}

/-- The channel, with the items it has admitted and those that were received, in order. -/
structure Recorded (T : Type) (maxQueuedBytes : ℕ) where
  channel : Channel T maxQueuedBytes
  admitted : List (Item T maxQueuedBytes)
  received : List (Item T maxQueuedBytes)

/-- A call, with what its steps took from the available permits. -/
structure Task (T : Type) (maxQueuedBytes : ℕ) where
  call : Call T maxQueuedBytes
  drawn : ℤ

namespace Task

def charge (t : Task T maxQueuedBytes) : ℕ := t.call.charge

def held (t : Task T maxQueuedBytes) : Option (Item T maxQueuedBytes) := t.call.held

def sent (t : Task T maxQueuedBytes) : Option (Item T maxQueuedBytes) := t.call.sent

def received (t : Task T maxQueuedBytes) : Option (Item T maxQueuedBytes) := t.call.received

end Task

def Task.Begins (t : Task T maxQueuedBytes) : Prop := t.call.isNew = true ∧ t.drawn = 0

/-- The item that a step obtains. -/
def obtains (f : Call T maxQueuedBytes → Option (Item T maxQueuedBytes))
    (c c' : Call T maxQueuedBytes) : List (Item T maxQueuedBytes) :=
  if f c = none then (f c').toList else []

def RecordedStep (s : Recorded T maxQueuedBytes) (t : Task T maxQueuedBytes)
    (s' : Recorded T maxQueuedBytes) (t' : Task T maxQueuedBytes) : Prop :=
  Step s.channel t.call s'.channel t'.call ∧
  t'.drawn = t.drawn + (s.channel.available - s'.channel.available) ∧
  s'.admitted = s.admitted ++ obtains Call.sent t.call t'.call ∧
  s'.received = s.received ++ obtains Call.received t.call t'.call

def start (itemCapacity maxQueuedBytes : ℕ) : Recorded T maxQueuedBytes :=
  ⟨byteBoundedChannel itemCapacity maxQueuedBytes, [], []⟩

def Item.permits (item : Item T maxQueuedBytes) : ℕ := item.permit.permits

/-- The items that are queued or whose permit is held. -/
def live (p : Pool (Recorded T maxQueuedBytes) (Task T maxQueuedBytes)) :
    List (Item T maxQueuedBytes) :=
  p.shared.channel.queue ++ p.calls.filterMap Task.held

section Steps
variable {c c' : Channel T maxQueuedBytes} {k k' : Call T maxQueuedBytes}
  {s s' : Recorded T maxQueuedBytes} {t t' u : Task T maxQueuedBytes}

theorem le_permitsFor (hmax : maxQueuedBytes ≤ u32Max) {payloadLen : ℕ}
    (hfits : max payloadLen 1 ≤ maxQueuedBytes) : payloadLen ≤ permitsFor payloadLen := by
  rw [permitsFor, if_pos (hfits.trans hmax)]
  exact le_max_left payloadLen 1

theorem Item.payloadLen_le (hmax : maxQueuedBytes ≤ u32Max) (item : Item T maxQueuedBytes) :
    item.payloadLen ≤ item.permits := by
  rw [Item.permits, item.charged]
  exact le_permitsFor hmax item.fits

/-- Permits only pass between the semaphore, the queue and the call. -/
theorem Forward.charge {ε : Type} {closed : T → ε} {phase phase' : SendPhase T maxQueuedBytes ε}
    (h : Forward closed c phase c' phase') :
    c'.available + (c'.queue.map Item.permits).sum + phase'.charge =
      c.available + (c.queue.map Item.permits).sum + phase.charge := by
  cases h with
  | reserve => rfl
  | refuse =>
    simp only [Channel.release, SendPhase.charge]
    omega
  | push =>
    simp only [SendPhase.charge, List.map_append, List.sum_append, List.map_singleton,
      List.sum_singleton, Item.permits]
    omega

theorem Step.charge (h : Step c k c' k') :
    c'.available + (c'.queue.map Item.permits).sum + k'.charge =
      c.available + (c.queue.map Item.permits).sum + k.charge := by
  cases h with
  | tryTooLong | tryExceeded | tooLong | recvClosed | wait | acquire | split | close => rfl
  | tryAcquire hfits h =>
    simp only [Call.charge, SendPhase.charge, Item.sealed]
    omega
  | tryFull | dropEnvelope | dropPermit =>
    simp only [Call.charge, SendPhase.charge, Channel.release, Envelope.split]
    omega
  | tryForward h | forward h => exact h.charge
  | assign hneeded h =>
    simp only [Call.charge, SendPhase.charge]
    omega
  | cancel =>
    simp only [Call.charge]
    change _ + _ + 0 = _
    omega
  | @recv item rest hreceiver h =>
    rw [h, List.map_cons, List.sum_cons]
    change c.available + (rest.map Item.permits).sum + item.permits = _ + _ + 0
    omega
  | dropReceiver =>
    change c.available + (c.queue.map Item.permits).sum + 0 + 0 = _ + _ + 0
    omega

/-- A send holds what it took, or returns the value with what it took. -/
def SendPhase.Settled {ε : Type} (handed : ε → T) (value : T) (payloadLen : ℕ) (drawn : ℤ) :
    SendPhase T maxQueuedBytes ε → Prop
  | .called => drawn = 0
  | .waiting assigned => drawn = assigned
  | .acquired item | .reserved item =>
    drawn = item.permits ∧ item.value = value ∧ item.payloadLen = payloadLen
  | .sent item => item.value = value ∧ item.payloadLen = payloadLen
  | .failed e => drawn = 0 ∧ handed e = value
  | .cancelled => drawn = 0

def Task.Settled (t : Task T maxQueuedBytes) : Prop :=
  match t.call with
  | .trySend value payloadLen phase => phase.Settled TrySendError.value value payloadLen t.drawn
  | .send value payloadLen phase => phase.Settled SendError.value value payloadLen t.drawn
  | _ => True

theorem Forward.settled {ε : Type} {closed : T → ε} {handed : ε → T} {value : T} {payloadLen : ℕ}
    {drawn : ℤ} {phase phase' : SendPhase T maxQueuedBytes ε}
    (h : Forward closed c phase c' phase') (hclosed : ∀ v, handed (closed v) = v)
    (hphase : phase.Settled handed value payloadLen drawn) :
    phase'.Settled handed value payloadLen (drawn + (c.available - c'.available)) := by
  cases h with
  | reserve =>
    obtain ⟨hdrawn, hitem⟩ := hphase
    refine ⟨?_, hitem⟩
    rw [hdrawn]
    simp
  | refuse =>
    obtain ⟨hdrawn, hvalue, -⟩ := hphase
    refine ⟨?_, (hclosed _).trans hvalue⟩
    rw [hdrawn, Item.permits]
    simp [Channel.release]
  | push => exact hphase.2

theorem RecordedStep.settled (h : RecordedStep s t s' t') (ht : t.Settled) : t'.Settled := by
  obtain ⟨hstep, hdrawn, -, -⟩ := h
  obtain ⟨channel, admitted, received⟩ := s
  obtain ⟨channel', admitted', received'⟩ := s'
  obtain ⟨call, drawn⟩ := t
  obtain ⟨call', drawn'⟩ := t'
  simp only at hstep hdrawn
  subst hdrawn
  unfold Task.Settled at ht ⊢
  cases hstep with
  | tryTooLong | tryExceeded =>
    simp only [SendPhase.Settled] at ht ⊢
    exact ⟨by omega, rfl⟩
  | tooLong =>
    simp only [SendPhase.Settled] at ht ⊢
    exact ⟨by omega, trivial⟩
  | tryAcquire hfits h =>
    simp only [SendPhase.Settled, Item.sealed, Item.permits] at ht ⊢
    exact ⟨by omega, trivial, trivial⟩
  | tryFull =>
    simp only [SendPhase.Settled, Channel.release, Item.permits, TrySendError.value,
      Mpsc.TrySendError.value] at ht ⊢
    exact ⟨by omega, ht.2.1⟩
  | tryForward h => exact h.settled (fun _ => rfl) ht
  | wait =>
    simp only [SendPhase.Settled] at ht ⊢
    omega
  | assign =>
    simp only [SendPhase.Settled] at ht ⊢
    omega
  | acquire =>
    simp only [SendPhase.Settled, Item.sealed, Item.permits] at ht ⊢
    exact ⟨by omega, trivial, trivial⟩
  | forward h => exact h.settled (fun _ => rfl) ht
  | @cancel value payloadLen phase h =>
    cases phase with
    | called | waiting | acquired | reserved =>
      simp only [SendPhase.Settled, SendPhase.charge, Item.permits] at ht ⊢
      omega
    | sent | failed | cancelled => cases h
  | recv | recvClosed | dropEnvelope | split | dropPermit | close | dropReceiver => trivial

/-- How a step changes the queue, and what its call obtains. -/
inductive Moves (c : Channel T maxQueuedBytes) (k : Call T maxQueuedBytes)
    (c' : Channel T maxQueuedBytes) (k' : Call T maxQueuedBytes) : Prop
  | quiet (hqueue : c'.receiver = true → c.receiver = true ∧ c'.queue = c.queue)
    (hsent : k'.sent = k.sent) (hreceived : k'.received = k.received)
  | push {item : Item T maxQueuedBytes} (hqueue : c'.queue = c.queue ++ [item])
    (hreceiver : c'.receiver = c.receiver) (hnone : k.sent = none) (hsent : k'.sent = some item)
    (hreceived : k'.received = k.received)
  | pop {item : Item T maxQueuedBytes} (hqueue : c.queue = item :: c'.queue)
    (hreceiver : c.receiver = true) (hsent : k'.sent = k.sent) (hnone : k.received = none)
    (hreceived : k'.received = some item)

theorem Step.moves (h : Step c k c' k') : Moves c k c' k' := by
  cases h with
  | tryForward h | forward h =>
    cases h with
    | reserve | refuse => exact .quiet (fun h => ⟨h, rfl⟩) rfl rfl
    | push => exact .push rfl rfl rfl rfl rfl
  | @cancel value payloadLen phase h =>
    cases phase with
    | called | waiting | acquired | reserved => exact .quiet (fun h => ⟨h, rfl⟩) rfl rfl
    | sent | failed | cancelled => cases h
  | recv hreceiver h => exact .pop h hreceiver rfl rfl rfl
  | dropReceiver => exact .quiet (fun h => (by cases h)) rfl rfl
  | _ => exact .quiet (fun h => ⟨h, rfl⟩) rfl rfl

theorem obtains_of_eq {f : Call T maxQueuedBytes → Option (Item T maxQueuedBytes)}
    (h : f k' = f k) : obtains f k k' = [] := by
  rw [obtains, h]
  split_ifs with hnone
  · rw [hnone]
    rfl
  · rfl

theorem obtains_of_some {f : Call T maxQueuedBytes → Option (Item T maxQueuedBytes)}
    {item : Item T maxQueuedBytes} (hnone : f k = none) (h : f k' = some item) :
    obtains f k k' = [item] := by
  rw [obtains, if_pos hnone, h]
  rfl

/-- The items that were admitted and not received are queued, as long as there is a receiver. -/
structure Ordered (s : Recorded T maxQueuedBytes) : Prop where
  queued : s.channel.receiver = true → s.admitted = s.received ++ s.channel.queue
  isPrefix : s.received <+: s.admitted

theorem RecordedStep.ordered (h : RecordedStep s t s' t') (hs : Ordered s) : Ordered s' := by
  obtain ⟨hstep, -, hadmitted, hreceived⟩ := h
  cases hstep.moves with
  | quiet hqueue hsent hgot =>
    rw [obtains_of_eq hsent, List.append_nil] at hadmitted
    rw [obtains_of_eq hgot, List.append_nil] at hreceived
    refine ⟨fun h => ?_, ?_⟩
    · obtain ⟨hreceiver, hsame⟩ := hqueue h
      rw [hadmitted, hreceived, hsame]
      exact hs.queued hreceiver
    · rw [hadmitted, hreceived]
      exact hs.isPrefix
  | @push item hqueue hreceiver hnone hsent hgot =>
    rw [obtains_of_some hnone hsent] at hadmitted
    rw [obtains_of_eq hgot, List.append_nil] at hreceived
    refine ⟨fun h => ?_, ?_⟩
    · rw [hadmitted, hreceived, hqueue, hs.queued (hreceiver.symm.trans h), List.append_assoc]
    · rw [hadmitted, hreceived]
      exact hs.isPrefix.trans (List.prefix_append _ _)
  | @pop item hqueue hreceiver hsent hnone hgot =>
    rw [obtains_of_eq hsent, List.append_nil] at hadmitted
    rw [obtains_of_some hnone hgot] at hreceived
    have hqueued : s'.admitted = s'.received ++ s'.channel.queue := by
      rw [hadmitted, hreceived, hs.queued hreceiver, hqueue, List.append_assoc]
      rfl
    exact ⟨fun _ => hqueued, hqueued ▸ List.prefix_append _ _⟩

end Steps

section Runs
variable {itemCapacity : ℕ} {p : Pool (Recorded T maxQueuedBytes) (Task T maxQueuedBytes)}

theorem Task.Begins.idle {t : Task T maxQueuedBytes} (h : t.Begins) :
    t.charge = 0 ∧ t.sent = none ∧ t.received = none := by
  obtain ⟨call, drawn⟩ := t
  obtain ⟨h, -⟩ := h
  cases call with
  | trySend value payloadLen phase | send value payloadLen phase =>
    cases phase with
    | called => exact ⟨rfl, rfl, rfl⟩
    | _ => cases h
  | recv phase =>
    cases phase with
    | called => exact ⟨rfl, rfl, rfl⟩
    | _ => cases h
  | close | dropReceiver => exact ⟨rfl, rfl, rfl⟩

theorem Task.Begins.settled {t : Task T maxQueuedBytes} (h : t.Begins) : t.Settled := by
  obtain ⟨call, drawn⟩ := t
  obtain ⟨h, hdrawn⟩ := h
  cases call with
  | trySend value payloadLen phase | send value payloadLen phase =>
    cases phase with
    | called => exact hdrawn
    | _ => cases h
  | recv | close | dropReceiver => trivial

theorem outline : Pool.Outline (@Task.Begins T maxQueuedBytes) RecordedStep Ordered
    (fun _ t => t.Settled) fun _ _ => True where
  symm := fun _ => trivial
  begins := fun _ h => h.settled
  begins_apart := fun _ _ => trivial
  own := fun hs ht h => ⟨h.ordered hs, h.settled ht⟩
  other := fun _ _ hu _ _ => ⟨hu, trivial⟩

theorem ordered_start : Ordered (start itemCapacity maxQueuedBytes : Recorded T maxQueuedBytes) :=
  ⟨fun _ => rfl, List.prefix_refl _⟩

/-- The permits add up to the budget. -/
theorem conserved_of_reachable
    (h : ReflTransGen (Pool.Step Task.Begins RecordedStep)
      ⟨start itemCapacity maxQueuedBytes, []⟩ p) :
    p.shared.channel.available + (p.shared.channel.queue.map Item.permits).sum +
      (p.calls.map Task.charge).sum = maxQueuedBytes := by
  induction h with
  | refl => rfl
  | tail hreach hstep ih =>
    have hholds := outline.reachable (Pool.holds_nil ordered_start) hreach
    refine Pool.sum_step Task.charge (fun (s : Recorded T maxQueuedBytes) n =>
      s.channel.available + (s.channel.queue.map Item.permits).sum + n = maxQueuedBytes)
      (fun t ht => ht.idle.1) (fun s t s' t' rest _ _ h hsum => ?_) hholds hstep ih
    have hcharge := h.1.charge
    rw [Task.charge] at hsum ⊢
    omega

theorem Call.charge_of_held {k : Call T maxQueuedBytes} {item : Item T maxQueuedBytes}
    (h : k.held = some item) : k.charge = item.permits := by
  cases k with
  | trySend value payloadLen phase | send value payloadLen phase =>
    cases phase with
    | acquired | reserved =>
      rw [← Option.some.inj h]
      rfl
    | _ => cases h
  | recv phase =>
    cases phase with
    | envelope | split =>
      rw [← Option.some.inj h]
      rfl
    | _ => cases h
  | close | dropReceiver => cases h

theorem held_le_charge (hmax : maxQueuedBytes ≤ u32Max) (calls : List (Task T maxQueuedBytes)) :
    ((calls.filterMap Task.held).map Item.payloadLen).sum ≤ (calls.map Task.charge).sum := by
  induction calls with
  | nil => rfl
  | cons t calls ih =>
    rw [List.map_cons, List.sum_cons]
    cases hheld : t.held with
    | none =>
      rw [List.filterMap_cons_none hheld]
      omega
    | some item =>
      have hcharge : t.charge = item.permits := Call.charge_of_held hheld
      have hle := item.payloadLen_le hmax
      rw [List.filterMap_cons_some hheld, List.map_cons, List.sum_cons]
      omega

theorem queue_le_permits (hmax : maxQueuedBytes ≤ u32Max) (queue : List (Item T maxQueuedBytes)) :
    (queue.map Item.payloadLen).sum ≤ (queue.map Item.permits).sum :=
  List.sum_le_sum fun item _ => item.payloadLen_le hmax

theorem sent_perm
    (h : ReflTransGen (Pool.Step Task.Begins RecordedStep)
      ⟨start itemCapacity maxQueuedBytes, []⟩ p) :
    (p.calls.filterMap Task.sent).Perm p.shared.admitted := by
  refine Pool.logged_perm Task.sent Recorded.admitted (fun t ht => ht.idle.2.1)
    (fun s t s' t' hstep => ?_) h (List.Perm.refl [])
  obtain ⟨hstep, -, hadmitted, -⟩ := hstep
  cases hstep.moves with
  | quiet _ hsent | pop _ _ hsent =>
    rw [obtains_of_eq hsent, List.append_nil] at hadmitted
    exact Or.inl ⟨hsent, hadmitted⟩
  | @push item hqueue hreceiver hnone hsent =>
    rw [obtains_of_some hnone hsent] at hadmitted
    exact Or.inr ⟨hnone, item, hsent, hadmitted⟩

theorem received_perm
    (h : ReflTransGen (Pool.Step Task.Begins RecordedStep)
      ⟨start itemCapacity maxQueuedBytes, []⟩ p) :
    (p.calls.filterMap Task.received).Perm p.shared.received := by
  refine Pool.logged_perm Task.received Recorded.received (fun t ht => ht.idle.2.2)
    (fun s t s' t' hstep => ?_) h (List.Perm.refl [])
  obtain ⟨hstep, -, -, hreceived⟩ := hstep
  cases hstep.moves with
  | quiet _ _ hgot | push _ _ _ _ hgot =>
    rw [obtains_of_eq hgot, List.append_nil] at hreceived
    exact Or.inl ⟨hgot, hreceived⟩
  | @pop item hqueue hreceiver hsent hnone hgot =>
    rw [obtains_of_some hnone hgot] at hreceived
    exact Or.inr ⟨hnone, item, hgot, hreceived⟩

/-- Over any interleaving: what is queued or held never exceeds the budget; a send that failed or
was cancelled has taken nothing from it in the end, and one that failed hands its value back; what
was received is what was admitted, in the same order, and each item was received by one call. -/
theorem bounded_of_reachable (hmax : maxQueuedBytes ≤ u32Max)
    (h : ReflTransGen (Pool.Step Task.Begins RecordedStep)
      ⟨start itemCapacity maxQueuedBytes, []⟩ p) :
    ((live p).map Item.payloadLen).sum ≤ maxQueuedBytes ∧
    p.shared.channel.available + (p.shared.channel.queue.map Item.permits).sum +
      (p.calls.map Task.charge).sum = maxQueuedBytes ∧
    (∀ t ∈ p.calls, t.call.isUnsent = true → t.charge = 0 ∧ t.drawn = 0) ∧
    (∀ t ∈ p.calls, ∀ value payloadLen e, t.call = .trySend value payloadLen (.failed e) →
      e.value = value) ∧
    (∀ t ∈ p.calls, ∀ value payloadLen e, t.call = .send value payloadLen (.failed e) →
      e.value = value) ∧
    (∀ t ∈ p.calls, ∀ item, t.sent = some item →
      t.call.argument = some (item.value, item.payloadLen)) ∧
    (p.calls.filterMap Task.sent).Perm p.shared.admitted ∧
    (p.calls.filterMap Task.received).Perm p.shared.received ∧
    p.shared.received <+: p.shared.admitted := by
  have hholds := outline.reachable (Pool.holds_nil ordered_start) h
  have hconserved := conserved_of_reachable h
  refine ⟨?_, hconserved, fun t ht hunsent => ?_, fun t ht value payloadLen e hcall => ?_,
    fun t ht value payloadLen e hcall => ?_, fun t ht item hsent => ?_, sent_perm h,
    received_perm h, hholds.shared.isPrefix⟩
  · have hqueue := queue_le_permits hmax p.shared.channel.queue
    have hheld := held_le_charge hmax p.calls
    rw [live, List.map_append, List.sum_append]
    omega
  · have hsettled := hholds.calls t ht
    rw [Task.Settled] at hsettled
    rw [Task.charge]
    unfold Call.isUnsent at hunsent
    split at hunsent
    · rename_i hcall
      rw [hcall] at hsettled ⊢
      exact ⟨rfl, hsettled.1⟩
    · rename_i hcall
      rw [hcall] at hsettled ⊢
      exact ⟨rfl, hsettled.1⟩
    · rename_i hcall
      rw [hcall] at hsettled ⊢
      exact ⟨rfl, hsettled⟩
    · cases hunsent
  · have hsettled := hholds.calls t ht
    rw [Task.Settled, hcall] at hsettled
    exact hsettled.2
  · have hsettled := hholds.calls t ht
    rw [Task.Settled, hcall] at hsettled
    exact hsettled.2
  · have hsettled := hholds.calls t ht
    rw [Task.Settled] at hsettled
    unfold Task.sent Call.sent at hsent
    split at hsent
    · rename_i hcall
      rw [hcall] at hsettled ⊢
      rw [← Option.some.inj hsent, Call.argument, hsettled.1, hsettled.2]
    · rename_i hcall
      rw [hcall] at hsettled ⊢
      rw [← Option.some.inj hsent, Call.argument, hsettled.1, hsettled.2]
    · cases hsent

section Exchange

/-- Five of ten bytes are queued, received and held apart; a send of six more is refused, and one
that waits for them is cancelled. -/
def exchanged : Pool (Recorded ℕ 10) (Task ℕ 10) :=
  let item : Item ℕ 10 := .sealed 1 (show max 5 1 ≤ 10 by decide)
  ⟨⟨⟨5, 2, [], false, true⟩, [item], [item]⟩,
    [⟨.trySend 1 5 (.sent item), 5⟩, ⟨.trySend 2 6 (.failed (.budgetExceeded 2)), 0⟩,
      ⟨.send 3 6 .cancelled, 0⟩, ⟨.recv (.split item), 0⟩]⟩

theorem reaches_exchanged : ReflTransGen (Pool.Step Task.Begins RecordedStep)
    ⟨start 2 10, []⟩ exchanged := by
  have hfits : max 5 1 ≤ 10 := by decide
  let item : Item ℕ 10 := .sealed 1 hfits
  let sending (phase) : Task ℕ 10 := ⟨.trySend 1 5 phase, 5⟩
  let s₁ : Recorded ℕ 10 := ⟨⟨5, 2, [], false, true⟩, [], []⟩
  let s₂ : Recorded ℕ 10 := ⟨⟨5, 1, [], false, true⟩, [], []⟩
  let s₃ : Recorded ℕ 10 := ⟨⟨5, 1, [item], false, true⟩, [item], []⟩
  let s₄ : Recorded ℕ 10 := ⟨⟨0, 1, [item], false, true⟩, [item], []⟩
  let s₅ : Recorded ℕ 10 := ⟨⟨5, 2, [], false, true⟩, [item], [item]⟩
  let t₁ : Task ℕ 10 := ⟨.trySend 1 5 .called, 0⟩
  let t₂ : Task ℕ 10 := ⟨.trySend 2 6 .called, 0⟩
  let t₃ (phase) (drawn) : Task ℕ 10 := ⟨.send 3 6 phase, drawn⟩
  let t₄ (phase) : Task ℕ 10 := ⟨.recv phase, 0⟩
  let refused : Task ℕ 10 := ⟨.trySend 2 6 (.failed (.budgetExceeded 2)), 0⟩
  have hacquire : RecordedStep (start 2 10) t₁ s₁ (sending (.acquired item)) :=
    ⟨.tryAcquire hfits (by decide), rfl, rfl, rfl⟩
  have hreserve : RecordedStep s₁ (sending (.acquired item)) s₂ (sending (.reserved item)) :=
    ⟨.tryForward (.reserve rfl (by decide)), rfl, rfl, rfl⟩
  have hpush : RecordedStep s₂ (sending (.reserved item)) s₃ (sending (.sent item)) :=
    ⟨.tryForward .push, rfl, rfl, rfl⟩
  have hexceeded : RecordedStep s₃ t₂ s₃ refused :=
    ⟨.tryExceeded (by decide) (show 5 < permitsFor 6 by decide), rfl, rfl, rfl⟩
  have hwait : RecordedStep s₃ (t₃ .called 0) s₃ (t₃ (.waiting 0) 0) :=
    ⟨.wait (by decide), rfl, rfl, rfl⟩
  have hassign : RecordedStep s₃ (t₃ (.waiting 0) 0) s₄ (t₃ (.waiting 5) 5) :=
    ⟨.assign (n := 5) (by decide) (le_refl 5), rfl, rfl, rfl⟩
  have hcancel : RecordedStep s₄ (t₃ (.waiting 5) 5) s₃ (t₃ .cancelled 0) :=
    ⟨.cancel rfl, rfl, rfl, rfl⟩
  have hrecv : RecordedStep s₃ (t₄ .called) s₅ (t₄ (.envelope item)) :=
    ⟨.recv rfl rfl, rfl, rfl, rfl⟩
  have hsplit : RecordedStep s₅ (t₄ (.envelope item)) s₅ (t₄ (.split item)) :=
    ⟨.split, rfl, rfl, rfl⟩
  refine .head (.start (show t₁.Begins from ⟨rfl, rfl⟩)) ?_
  refine .head (.step (l := []) hacquire) ?_
  refine .head (.step (l := []) hreserve) ?_
  refine .head (.step (l := []) hpush) ?_
  refine .head (.start (show t₂.Begins from ⟨rfl, rfl⟩)) ?_
  refine .head (.step (l := [sending (.sent item)]) hexceeded) ?_
  refine .head (.start (show (t₃ .called 0).Begins from ⟨rfl, rfl⟩)) ?_
  refine .head (.step (l := [sending (.sent item), refused]) hwait) ?_
  refine .head (.step (l := [sending (.sent item), refused]) hassign) ?_
  refine .head (.step (l := [sending (.sent item), refused]) hcancel) ?_
  refine .head (.start (show (t₄ .called).Begins from ⟨rfl, rfl⟩)) ?_
  refine .head (.step (l := [sending (.sent item), refused, t₃ .cancelled 0]) hrecv) ?_
  exact .single (.step (l := [sending (.sent item), refused, t₃ .cancelled 0]) hsplit)

theorem bounded_of_reachable_exchanged :
    ((live exchanged).map Item.payloadLen).sum = 5 ∧
    ((live exchanged).map Item.payloadLen).sum ≤ 10 ∧
    exchanged.shared.received <+: exchanged.shared.admitted := by
  have h := bounded_of_reachable (by decide) reaches_exchanged
  exact ⟨by decide, h.1, h.2.2.2.2.2.2.2.2⟩

end Exchange

end Runs

end PJS.BoundedChannel
