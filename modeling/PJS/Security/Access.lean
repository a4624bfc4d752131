import PJS.Lib.Pool
import PJS.Security.RateLimit

/-! Calls on the rate limiter that run at the same time. An access to the table of clients is one
step: the test for a key, the length, the work on an entry, the visit of an entry by a sweep. -/
namespace PJS.WebSocketRateLimiter

inductive Check where
  | request
  | connection
deriving DecidableEq

inductive Call where
  /-- `check_request`, `RateLimitGuard::new`: about to look for the client. -/
  | containsKey (kind : Check) (ip : IpAddr)
  | len (kind : Check) (ip : IpAddr)
  | entry (kind : Check) (ip : IpAddr)
  /-- A live `RateLimitGuard`. -/
  | guard (ip : IpAddr)
  | message (ip : IpAddr) (frameSize : ℕ)
  | cleanup
  /-- The sweep, with the clients tracked when it began and those it has visited. -/
  | retaining (cutoff : ℕ) (start visited : List IpAddr)
  | returned (result : Except RateLimitError Unit)

namespace Call

inductive Step (s : WebSocketRateLimiter) : Call → WebSocketRateLimiter → Call → Prop
  | tracked {kind : Check} {ip : IpAddr} (h : ip ∈ s.clients.keys) :
    Step s (.containsKey kind ip) s (.entry kind ip)
  | untracked {kind : Check} {ip : IpAddr} (h : ip ∉ s.clients.keys) :
    Step s (.containsKey kind ip) s (.len kind ip)
  | full {kind : Check} {ip : IpAddr} (h : maxTrackedClients ≤ s.clients.size) :
    Step s (.len kind ip) s (.returned (.error (.capacityExceeded maxTrackedClients)))
  | room {kind : Check} {ip : IpAddr} (h : s.clients.size < maxTrackedClients) :
    Step s (.len kind ip) s (.entry kind ip)
  | request {ip : IpAddr} {now created : ℕ} :
    Step s (.entry .request ip) (s.requestEntry ip now created).2
      (.returned (s.requestEntry ip now created).1)
  | connect {ip : IpAddr} {created : ℕ} (h : (s.connectionEntry ip created).1 = .ok ()) :
    Step s (.entry .connection ip) (s.connectionEntry ip created).2 (.guard ip)
  | refuse {ip : IpAddr} {created : ℕ} {error : RateLimitError}
      (h : (s.connectionEntry ip created).1 = .error error) :
    Step s (.entry .connection ip) (s.connectionEntry ip created).2 (.returned (.error error))
  | guardMessage {ip : IpAddr} {frameSize now : ℕ} :
    Step s (.guard ip) (s.checkMessage ip frameSize now).2 (.guard ip)
  | drop {ip : IpAddr} : Step s (.guard ip) (s.closeConnection ip) (.returned (.ok ()))
  | message {ip : IpAddr} {frameSize now : ℕ} :
    Step s (.message ip frameSize) (s.checkMessage ip frameSize now).2
      (.returned (s.checkMessage ip frameSize now).1)
  | skip {now : ℕ} (h : s.cutoff now = none) : Step s .cleanup s (.returned (.ok ()))
  | sweep {now cutoff : ℕ} (h : s.cutoff now = some cutoff) :
    Step s .cleanup s (.retaining cutoff s.clients.keys [])
  | keep {ip : IpAddr} {client : ClientRateLimit} {cutoff : ℕ} {start visited : List IpAddr}
      (hnew : ip ∉ visited) (hclient : s.clients.get? ip = some client)
      (h : client.expired cutoff = false) :
    Step s (.retaining cutoff start visited) s (.retaining cutoff start (ip :: visited))
  | evict {ip : IpAddr} {client : ClientRateLimit} {cutoff : ℕ} {start visited : List IpAddr}
      (hnew : ip ∉ visited) (hclient : s.clients.get? ip = some client)
      (h : client.expired cutoff = true) :
    Step s (.retaining cutoff start visited) { s with clients := s.clients.erase ip }
      (.retaining cutoff start (ip :: visited))
  | swept {cutoff : ℕ} {start visited : List IpAddr}
      (h : ∀ ip ∈ start, ip ∈ s.clients.keys → ip ∈ visited) :
    Step s (.retaining cutoff start visited) s (.returned (.ok ()))

/-- `check_request` and `check_connection`, and nothing else. -/
def Checks (c : Call) : Prop := ∃ kind ip, c = .containsKey kind ip

/-- Any call: checks, messages outside a guard, and sweeps. -/
def Starts (c : Call) : Prop := c.Checks ∨ (∃ ip frameSize, c = .message ip frameSize) ∨ c = .cleanup

end Call

/-- A limiter and its calls. -/
abbrev Calls := Pool WebSocketRateLimiter Call

namespace Calls

def new (config : RateLimitConfig) : Calls := ⟨.new config, []⟩

end Calls

section Effects
variable {s s' : WebSocketRateLimiter} {c c' : Call} {ip : IpAddr}

theorem withEntry_snd (s : WebSocketRateLimiter) (ip : IpAddr) (created : ℕ)
    (check : ClientRateLimit → Except RateLimitError Unit × ClientRateLimit) :
    (s.withEntry ip created check).2 =
      { s with clients := s.clients.insert ip (check (s.entry ip created)).2 } :=
  rfl

/-- A message rewrites the client's entry, or leaves the table alone. -/
theorem checkMessage_snd (s : WebSocketRateLimiter) (ip : IpAddr) (frameSize now : ℕ) :
    (s.checkMessage ip frameSize now).2 = s ∨ ∃ client, s.clients.get? ip = some client ∧
      (s.checkMessage ip frameSize now).2 =
        { s with clients :=
            s.clients.insert ip (client.checkMessageRate s.config now).2 } := by
  unfold checkMessage
  split_ifs
  · exact Or.inl rfl
  · split
    · rename_i client hclient
      exact Or.inr ⟨client, hclient, rfl⟩
    · exact Or.inl rfl

theorem Call.Step.config_eq (h : Call.Step s c s' c') : s'.config = s.config := by
  cases h with
  | @guardMessage ip frameSize now | @message ip frameSize now =>
    rcases checkMessage_snd s ip frameSize now with h | ⟨client, -, h⟩ <;> rw [h]
  | tracked | untracked | full | room | request | connect | refuse | drop | skip | sweep | keep
    | evict | swept => rfl

end Effects

end PJS.WebSocketRateLimiter
