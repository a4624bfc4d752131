import PJS.Lib.Pool

/-! The byte-bounded channel: a bounded channel of envelopes, each with the permits that its
sender acquired from a semaphore of bytes. Sends, receives and the drops of what was received run
at the same time, one access of the semaphore or of the inner channel for each step. -/
namespace PJS.BoundedChannel

variable {T : Type} {maxQueuedBytes : ℕ}

def u32Max : ℕ := 2 ^ 32 - 1

structure OwnedSemaphorePermit where
  permits : ℕ
deriving DecidableEq

structure Envelope (T : Type) where
  value : T
  permit : OwnedSemaphorePermit
deriving DecidableEq

/-- Releases its bytes when it is dropped. -/
structure BudgetPermit where
  permit : OwnedSemaphorePermit
deriving DecidableEq

def Envelope.intoInner (envelope : Envelope T) : T := envelope.value

def Envelope.split (envelope : Envelope T) : T × BudgetPermit :=
  (envelope.value, ⟨envelope.permit⟩)

namespace Mpsc

/-- The refusals of the inner channel. -/
inductive TrySendError (T : Type)
  | full (value : T)
  | closed (value : T)
deriving DecidableEq

def TrySendError.value : TrySendError T → T
  | .full value | .closed value => value

end Mpsc

inductive TrySendError (T : Type)
  | budgetExceeded (value : T)
  | channel (e : Mpsc.TrySendError T)
deriving DecidableEq

def TrySendError.value : TrySendError T → T
  | .budgetExceeded value => value
  | .channel e => e.value

structure SendError (T : Type) where
  value : T
deriving DecidableEq

/-- A length that fits no `u32` is charged the largest one. -/
def permitsFor (payloadLen : ℕ) : ℕ :=
  if max payloadLen 1 ≤ u32Max then max payloadLen 1 else u32Max

/-- An envelope, with the length that its sender gave. -/
structure Item (T : Type) (maxQueuedBytes : ℕ) extends Envelope T where
  payloadLen : ℕ
  fits : max payloadLen 1 ≤ maxQueuedBytes
  charged : permit.permits = permitsFor payloadLen
deriving DecidableEq

def Item.sealed (value : T) {payloadLen : ℕ} (hfits : max payloadLen 1 ≤ maxQueuedBytes) :
    Item T maxQueuedBytes :=
  ⟨⟨value, ⟨permitsFor payloadLen⟩⟩, payloadLen, hfits, rfl⟩

/-- The semaphore and the inner channel. -/
structure Channel (T : Type) (maxQueuedBytes : ℕ) where
  /-- The permits that no one holds. -/
  available : ℕ
  /-- The slots that are neither filled nor reserved. -/
  slots : ℕ
  queue : List (Item T maxQueuedBytes)
  closed : Bool
  /-- There still is a receiver. -/
  receiver : Bool
deriving DecidableEq

def byteBoundedChannel (itemCapacity maxQueuedBytes : ℕ) : Channel T maxQueuedBytes :=
  ⟨maxQueuedBytes, itemCapacity, [], false, true⟩

def Channel.release (c : Channel T maxQueuedBytes) (permit : OwnedSemaphorePermit) :
    Channel T maxQueuedBytes :=
  { c with available := c.available + permit.permits }

inductive SendPhase (T : Type) (maxQueuedBytes : ℕ) (ε : Type)
  | called
  /-- Waits for permits, and has these. -/
  | waiting (assigned : ℕ)
  | acquired (item : Item T maxQueuedBytes)
  /-- Has a slot of the inner channel too. -/
  | reserved (item : Item T maxQueuedBytes)
  | sent (item : Item T maxQueuedBytes)
  | failed (e : ε)
  | cancelled
deriving DecidableEq

inductive RecvPhase (T : Type) (maxQueuedBytes : ℕ)
  | called
  | closed
  | envelope (item : Item T maxQueuedBytes)
  /-- The payload was taken out, and its permit is held apart. -/
  | split (item : Item T maxQueuedBytes)
  | released (item : Item T maxQueuedBytes)
deriving DecidableEq

inductive Call (T : Type) (maxQueuedBytes : ℕ)
  | trySend (value : T) (payloadLen : ℕ) (phase : SendPhase T maxQueuedBytes (TrySendError T))
  | send (value : T) (payloadLen : ℕ) (phase : SendPhase T maxQueuedBytes (SendError T))
  | recv (phase : RecvPhase T maxQueuedBytes)
  /-- The receiver closes the channel, or the last sender is dropped. -/
  | close (done : Bool)
  | dropReceiver (done : Bool)
deriving DecidableEq

/-- The permits that a send holds. -/
def SendPhase.charge {ε : Type} : SendPhase T maxQueuedBytes ε → ℕ
  | .waiting assigned => assigned
  | .acquired item | .reserved item => item.permit.permits
  | _ => 0

def SendPhase.slots {ε : Type} : SendPhase T maxQueuedBytes ε → ℕ
  | .reserved _ => 1
  | _ => 0

/-- The call has not returned. -/
def SendPhase.isRunning {ε : Type} : SendPhase T maxQueuedBytes ε → Bool
  | .called | .waiting _ | .acquired _ | .reserved _ => true
  | _ => false

/-- What the inner channel does with an envelope. -/
inductive Forward {ε : Type} (closed : T → ε) (c : Channel T maxQueuedBytes) :
    SendPhase T maxQueuedBytes ε → Channel T maxQueuedBytes → SendPhase T maxQueuedBytes ε → Prop
  | reserve {item : Item T maxQueuedBytes} (hopen : c.closed = false) (hslots : 0 < c.slots) :
    Forward closed c (.acquired item) { c with slots := c.slots - 1 } (.reserved item)
  | refuse {item : Item T maxQueuedBytes} (hclosed : c.closed = true) :
    Forward closed c (.acquired item) (c.release item.permit) (.failed (closed item.value))
  | push {item : Item T maxQueuedBytes} :
    Forward closed c (.reserved item) { c with queue := c.queue ++ [item] } (.sent item)

/-- The semaphore gives what is available to the calls that wait for it in any order and in any
portions; a fair one does so in the order of their requests. It is never closed. -/
inductive Step (c : Channel T maxQueuedBytes) :
    Call T maxQueuedBytes → Channel T maxQueuedBytes → Call T maxQueuedBytes → Prop
  | tryTooLong {value : T} {payloadLen : ℕ} (h : maxQueuedBytes < max payloadLen 1) :
    Step c (.trySend value payloadLen .called) c
      (.trySend value payloadLen (.failed (.budgetExceeded value)))
  | tryExceeded {value : T} {payloadLen : ℕ} (hfits : max payloadLen 1 ≤ maxQueuedBytes)
    (h : c.available < permitsFor payloadLen) :
    Step c (.trySend value payloadLen .called) c
      (.trySend value payloadLen (.failed (.budgetExceeded value)))
  | tryAcquire {value : T} {payloadLen : ℕ} (hfits : max payloadLen 1 ≤ maxQueuedBytes)
    (h : permitsFor payloadLen ≤ c.available) :
    Step c (.trySend value payloadLen .called)
      { c with available := c.available - permitsFor payloadLen }
      (.trySend value payloadLen (.acquired (.sealed value hfits)))
  | tryFull {value : T} {payloadLen : ℕ} {item : Item T maxQueuedBytes}
    (hopen : c.closed = false) (h : c.slots = 0) :
    Step c (.trySend value payloadLen (.acquired item)) (c.release item.permit)
      (.trySend value payloadLen (.failed (.channel (.full item.value))))
  | tryForward {value : T} {payloadLen : ℕ} {c' : Channel T maxQueuedBytes}
    {phase phase' : SendPhase T maxQueuedBytes (TrySendError T)}
    (h : Forward (fun value => .channel (.closed value)) c phase c' phase') :
    Step c (.trySend value payloadLen phase) c' (.trySend value payloadLen phase')
  | tooLong {value : T} {payloadLen : ℕ} (h : maxQueuedBytes < max payloadLen 1) :
    Step c (.send value payloadLen .called) c (.send value payloadLen (.failed ⟨value⟩))
  | wait {value : T} {payloadLen : ℕ} (hfits : max payloadLen 1 ≤ maxQueuedBytes) :
    Step c (.send value payloadLen .called) c (.send value payloadLen (.waiting 0))
  | assign {value : T} {payloadLen assigned n : ℕ} (hneeded : assigned + n ≤ permitsFor payloadLen)
    (h : n ≤ c.available) :
    Step c (.send value payloadLen (.waiting assigned)) { c with available := c.available - n }
      (.send value payloadLen (.waiting (assigned + n)))
  | acquire {value : T} {payloadLen : ℕ} (hfits : max payloadLen 1 ≤ maxQueuedBytes) :
    Step c (.send value payloadLen (.waiting (permitsFor payloadLen))) c
      (.send value payloadLen (.acquired (.sealed value hfits)))
  | forward {value : T} {payloadLen : ℕ} {c' : Channel T maxQueuedBytes}
    {phase phase' : SendPhase T maxQueuedBytes (SendError T)}
    (h : Forward SendError.mk c phase c' phase') :
    Step c (.send value payloadLen phase) c' (.send value payloadLen phase')
  | cancel {value : T} {payloadLen : ℕ} {phase : SendPhase T maxQueuedBytes (SendError T)}
    (h : phase.isRunning = true) :
    Step c (.send value payloadLen phase)
      { c with available := c.available + phase.charge, slots := c.slots + phase.slots }
      (.send value payloadLen .cancelled)
  | recv {item : Item T maxQueuedBytes} {rest : List (Item T maxQueuedBytes)}
    (hreceiver : c.receiver = true) (h : c.queue = item :: rest) :
    Step c (.recv .called) { c with queue := rest, slots := c.slots + 1 } (.recv (.envelope item))
  | recvClosed (hclosed : c.closed = true) (h : c.queue = []) :
    Step c (.recv .called) c (.recv .closed)
  /-- The envelope is dropped, by itself or by `into_inner`. -/
  | dropEnvelope {item : Item T maxQueuedBytes} :
    Step c (.recv (.envelope item)) (c.release item.permit) (.recv (.released item))
  | split {item : Item T maxQueuedBytes} :
    Step c (.recv (.envelope item)) c (.recv (.split item))
  | dropPermit {item : Item T maxQueuedBytes} :
    Step c (.recv (.split item)) (c.release item.split.2.permit) (.recv (.released item))
  | close : Step c (.close false) { c with closed := true } (.close true)
  /-- What is still queued is dropped with the receiver. -/
  | dropReceiver :
    Step c (.dropReceiver false)
      { c with
        available := c.available + (c.queue.map fun item => item.permit.permits).sum
        slots := c.slots + c.queue.length
        queue := []
        closed := true
        receiver := false }
      (.dropReceiver true)

namespace Call

def isNew : Call T maxQueuedBytes → Bool
  | .trySend _ _ phase => match phase with
    | .called => true
    | _ => false
  | .send _ _ phase => match phase with
    | .called => true
    | _ => false
  | .recv phase => match phase with
    | .called => true
    | _ => false
  | .close done => !done
  | .dropReceiver done => !done

/-- The value and the length that a send is called with. -/
def argument : Call T maxQueuedBytes → Option (T × ℕ)
  | .trySend value payloadLen _ | .send value payloadLen _ => some (value, payloadLen)
  | _ => none

/-- The permits that a call holds. -/
def charge : Call T maxQueuedBytes → ℕ
  | .trySend _ _ phase => phase.charge
  | .send _ _ phase => phase.charge
  | .recv (.envelope item) | .recv (.split item) => item.permit.permits
  | _ => 0

/-- The item whose permit a call holds. -/
def held : Call T maxQueuedBytes → Option (Item T maxQueuedBytes)
  | .trySend _ _ (.acquired item) | .trySend _ _ (.reserved item) => some item
  | .send _ _ (.acquired item) | .send _ _ (.reserved item) => some item
  | .recv (.envelope item) | .recv (.split item) => some item
  | _ => none

/-- The item of a send that returned `Ok`. -/
def sent : Call T maxQueuedBytes → Option (Item T maxQueuedBytes)
  | .trySend _ _ (.sent item) | .send _ _ (.sent item) => some item
  | _ => none

def received : Call T maxQueuedBytes → Option (Item T maxQueuedBytes)
  | .recv (.envelope item) | .recv (.split item) | .recv (.released item) => some item
  | _ => none

/-- A send that failed or was cancelled. -/
def isUnsent : Call T maxQueuedBytes → Bool
  | .trySend _ _ (.failed _) | .send _ _ (.failed _) | .send _ _ .cancelled => true
  | _ => false

end Call

end PJS.BoundedChannel
