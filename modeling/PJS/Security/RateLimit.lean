import PJS.Lib.Assoc
import PJS.Http.IpAddr

/-! The rate limiter of the WebSocket server: a table of clients with their request times, their
open connections and a token bucket for their messages. A duration is in nanoseconds, an instant in
nanoseconds since the earliest instant that the clock can represent. -/
namespace PJS

/-- `Instant::checked_sub`. -/
def checkedSub (now d : ℕ) : Option ℕ := if d ≤ now then some (now - d) else none

/-- `Duration::as_secs_f64`. -/
def asSecsF64 (d : ℕ) : Float :=
  Float.ofNat (d / 1000000000) + Float.ofNat (d % 1000000000) / 1000000000

def maxTrackedClients : ℕ := 100000

inductive RateLimitError where
  | limitExceeded (limit : ℕ) (window : ℕ)
  | connectionLimitExceeded (current max : ℕ)
  | frameSizeExceeded (size max : ℕ)
  | capacityExceeded (max : ℕ)
deriving DecidableEq

structure RateLimitConfig where
  maxRequestsPerWindow : ℕ := 100
  windowDuration : ℕ := 60 * 1000000000
  maxConnectionsPerIp : ℕ := 10
  maxFrameSize : ℕ := 1024 * 1024
  maxMessagesPerSecond : ℕ := 30
  burstAllowance : ℕ := 5

structure ClientRateLimit where
  requests : List ℕ
  connectionCount : ℕ
  tokens : Float
  lastRefill : ℕ

namespace ClientRateLimit

def new (burstAllowance : ℕ) (now : ℕ) : ClientRateLimit :=
  ⟨[], 0, Float.ofNat burstAllowance, now⟩

def refillTokens (config : RateLimitConfig) (now : ℕ) (client : ClientRateLimit) :
    ClientRateLimit :=
  let timePassed := asSecsF64 (now - client.lastRefill)
  let tokensToAdd := timePassed * Float.ofNat config.maxMessagesPerSecond
  -- a release build wraps the sum of the two 32-bit numbers
  let maxTokens := Float.ofNat ((config.maxMessagesPerSecond + config.burstAllowance) % 2 ^ 32)
  let tokens := client.tokens + tokensToAdd
  { client with
    tokens := if tokens ≤ maxTokens then tokens else maxTokens
    lastRefill := now }

def checkMessageRate (config : RateLimitConfig) (now : ℕ) (client : ClientRateLimit) :
    Except RateLimitError Unit × ClientRateLimit :=
  let client := client.refillTokens config now
  if 1.0 ≤ client.tokens then (.ok (), { client with tokens := client.tokens - 1.0 })
  else (.error (.limitExceeded config.maxMessagesPerSecond 1000000000), client)

/-- The part of `check_request` that holds the client's entry. -/
def checkRequest (config : RateLimitConfig) (now : ℕ) (client : ClientRateLimit) :
    Except RateLimitError Unit × ClientRateLimit :=
  -- a clock younger than the window trims nothing
  let requests :=
    match checkedSub now config.windowDuration with
    | some windowStart => client.requests.filter (windowStart < ·)
    | none => client.requests
  if config.maxRequestsPerWindow ≤ requests.length then
    (.error (.limitExceeded config.maxRequestsPerWindow config.windowDuration),
      { client with requests })
  else (.ok (), { client with requests := requests ++ [now] })

/-- The part of `check_connection` that holds the client's entry. -/
def checkConnection (config : RateLimitConfig) (client : ClientRateLimit) :
    Except RateLimitError Unit × ClientRateLimit :=
  if config.maxConnectionsPerIp ≤ client.connectionCount then
    (.error (.connectionLimitExceeded client.connectionCount config.maxConnectionsPerIp), client)
  else (.ok (), { client with connectionCount := client.connectionCount + 1 })

/-- No connections, and no request since the cutoff. -/
def expired (cutoff : ℕ) (client : ClientRateLimit) : Bool :=
  client.connectionCount = 0 && client.requests.getLast?.all (· < cutoff)

end ClientRateLimit

structure WebSocketRateLimiter where
  config : RateLimitConfig
  clients : AssocMap IpAddr ClientRateLimit

namespace WebSocketRateLimiter

def new (config : RateLimitConfig) : WebSocketRateLimiter := ⟨config, AssocMap.empty⟩

/-- The client of an address, created at `created` if there is none. -/
def entry (limiter : WebSocketRateLimiter) (ip : IpAddr) (created : ℕ) : ClientRateLimit :=
  (limiter.clients.get? ip).getD (.new limiter.config.burstAllowance created)

/-- Run `check` on the entry of `ip`. -/
def withEntry (limiter : WebSocketRateLimiter) (ip : IpAddr) (created : ℕ)
    (check : ClientRateLimit → Except RateLimitError Unit × ClientRateLimit) :
    Except RateLimitError Unit × WebSocketRateLimiter :=
  let (result, client) := check (limiter.entry ip created)
  (result, { limiter with clients := limiter.clients.insert ip client })

def requestEntry (limiter : WebSocketRateLimiter) (ip : IpAddr) (now created : ℕ) :
    Except RateLimitError Unit × WebSocketRateLimiter :=
  limiter.withEntry ip created (ClientRateLimit.checkRequest limiter.config now)

def connectionEntry (limiter : WebSocketRateLimiter) (ip : IpAddr) (created : ℕ) :
    Except RateLimitError Unit × WebSocketRateLimiter :=
  limiter.withEntry ip created (ClientRateLimit.checkConnection limiter.config)

/-- A client that is not tracked finds no room in the table. -/
def Full (limiter : WebSocketRateLimiter) (ip : IpAddr) : Prop :=
  ip ∉ limiter.clients.keys ∧ maxTrackedClients ≤ limiter.clients.size

instance (limiter : WebSocketRateLimiter) (ip : IpAddr) : Decidable (limiter.Full ip) :=
  inferInstanceAs (Decidable (_ ∧ _))

def checkRequest (limiter : WebSocketRateLimiter) (ip : IpAddr) (now created : ℕ) :
    Except RateLimitError Unit × WebSocketRateLimiter :=
  if limiter.Full ip then (.error (.capacityExceeded maxTrackedClients), limiter)
  else limiter.requestEntry ip now created

def checkConnection (limiter : WebSocketRateLimiter) (ip : IpAddr) (created : ℕ) :
    Except RateLimitError Unit × WebSocketRateLimiter :=
  if limiter.Full ip then (.error (.capacityExceeded maxTrackedClients), limiter)
  else limiter.connectionEntry ip created

/-- The number of requests still permitted within the current window. -/
def remainingFor (limiter : WebSocketRateLimiter) (ip : IpAddr) (now : ℕ) : ℕ :=
  match limiter.clients.get? ip with
  | none => limiter.config.maxRequestsPerWindow
  | some client =>
    let windowStart := checkedSub now limiter.config.windowDuration
    let used := client.requests.countP fun t => windowStart.all (· < t)
    -- the count is cast to 32 bits
    limiter.config.maxRequestsPerWindow - used % 2 ^ 32

/-- The duration until the window next admits a request. -/
def resetAfter (limiter : WebSocketRateLimiter) (ip : IpAddr) (now : ℕ) : ℕ :=
  match limiter.clients.get? ip with
  | none => 0
  | some client =>
    match checkedSub now limiter.config.windowDuration with
    | none => limiter.config.windowDuration
    | some windowStart =>
      match client.requests.find? (windowStart < ·) with
      | some earliest => limiter.config.windowDuration - (now - earliest)
      | none => 0

def closeConnection (limiter : WebSocketRateLimiter) (ip : IpAddr) : WebSocketRateLimiter :=
  { limiter with
    clients := limiter.clients.modify ip fun client =>
      { client with connectionCount := client.connectionCount - 1 } }

def checkMessage (limiter : WebSocketRateLimiter) (ip : IpAddr) (frameSize : ℕ) (now : ℕ) :
    Except RateLimitError Unit × WebSocketRateLimiter :=
  if limiter.config.maxFrameSize < frameSize then
    (.error (.frameSizeExceeded frameSize limiter.config.maxFrameSize), limiter)
  else
    match limiter.clients.get? ip with
    | some client =>
      let (result, client) := client.checkMessageRate limiter.config now
      (result, { limiter with clients := limiter.clients.insert ip client })
    | none => (.ok (), limiter)

/-- The instant before which a client without connections counts as gone, unless the clock is
younger than that. -/
def cutoff (limiter : WebSocketRateLimiter) (now : ℕ) : Option ℕ :=
  checkedSub now (limiter.config.windowDuration * 2)

def cleanupExpired (limiter : WebSocketRateLimiter) (now : ℕ) : WebSocketRateLimiter :=
  match limiter.cutoff now with
  | none => limiter
  | some cutoff =>
    { limiter with clients := limiter.clients.retain fun _ client => !client.expired cutoff }

end WebSocketRateLimiter

end PJS
