import PJS.Lib.Trace
import PJS.Lib.Window
import PJS.Security.RateLimit

/-! Runs of the rate limiter whose operations take effect one at a time, by a clock that never goes
back. No window of any position holds more admitted requests of an address than its limit. -/
namespace PJS.WebSocketRateLimiter

open Window

/-- The requests that are recorded for an address. -/
def requestsOf (limiter : WebSocketRateLimiter) (ip : IpAddr) : List ℕ :=
  ((limiter.clients.get? ip).map ClientRateLimit.requests).getD []

inductive Op where
  | checkRequest (ip : IpAddr)
  | checkConnection (ip : IpAddr)
  | closeConnection (ip : IpAddr)
  | checkMessage (ip : IpAddr) (frameSize : ℕ)
  | cleanupExpired
deriving DecidableEq

/-- An operation and the two instants it may read; a client it creates reads the second. -/
structure TimedOp where
  op : Op
  now : ℕ
  created : ℕ

/-- The outcome of an operation. -/
def apply (limiter : WebSocketRateLimiter) (e : TimedOp) :
    Except RateLimitError Unit × WebSocketRateLimiter :=
  match e.op with
  | .checkRequest ip => limiter.checkRequest ip e.now e.created
  | .checkConnection ip => limiter.checkConnection ip e.created
  | .closeConnection ip => (.ok (), limiter.closeConnection ip)
  | .checkMessage ip frameSize => limiter.checkMessage ip frameSize e.now
  | .cleanupExpired => (.ok (), limiter.cleanupExpired e.now)

/-- The operation is a request of `ip`, and it is let through. -/
def Admits (limiter : WebSocketRateLimiter) (e : TimedOp) (ip : IpAddr) : Prop :=
  e.op = .checkRequest ip ∧ (limiter.apply e).1 = .ok ()

instance (limiter : WebSocketRateLimiter) (e : TimedOp) (ip : IpAddr) :
    Decidable (limiter.Admits e ip) :=
  have : Decidable ((limiter.apply e).1 = .ok ()) :=
    match (limiter.apply e).1 with
    | .ok () => isTrue rfl
    | .error _ => isFalse fun h => by cases h
  inferInstanceAs (Decidable (_ ∧ _))

/-- A limiter, the clock, and the instants at which each address had a request let through. -/
structure Run where
  limiter : WebSocketRateLimiter
  clock : ℕ
  admitted : IpAddr → List ℕ

namespace Run

def new (config : RateLimitConfig) (clock : ℕ) : Run := ⟨.new config, clock, fun _ => []⟩

def allowed (r : Run) (e : TimedOp) : Prop := r.clock ≤ e.now ∧ e.now ≤ e.created

def post (r : Run) (e : TimedOp) : Run where
  limiter := (r.limiter.apply e).2
  clock := e.created
  admitted := fun ip => r.admitted ip ++ if r.limiter.Admits e ip then [e.now] else []

end Run

section Effects
variable {limiter : WebSocketRateLimiter} {e : TimedOp} {ip : IpAddr} {t : ℕ}

/-- What an operation leaves of a list of instants: the ones it drops have left the window. -/
def Trims (w : ℕ) (now : ℕ) (l kept : List ℕ) : Prop :=
  kept.Sublist l ∧ recent w now kept = recent w now l

theorem trims_refl (w : ℕ) (now : ℕ) (l : List ℕ) : Trims w now l l :=
  ⟨List.Sublist.refl l, rfl⟩

/-- What comes after the start of the window has not left it. -/
theorem trims_filter {w now windowStart : ℕ}
    (h : checkedSub now w = some windowStart) (l : List ℕ) :
    Trims w now l (l.filter (windowStart < ·)) := by
  refine ⟨List.filter_sublist, ?_⟩
  unfold checkedSub at h
  split_ifs at h with hle
  cases h
  unfold recent
  rw [List.filter_filter]
  refine List.filter_congr fun (u : ℕ) _ => ?_
  have himp : now < u + w → now - w < u := fun hlt => by omega
  simpa using himp

/-- A client that counts as gone has no request left in the window. -/
theorem trims_expired {w now cutoff : ℕ} {client : ClientRateLimit}
    (h : checkedSub now (w * 2) = some cutoff) (hexpired : client.expired cutoff = true)
    (hsorted : client.requests.Pairwise (· ≤ ·)) : Trims w now client.requests [] := by
  refine ⟨List.nil_sublist _, ?_⟩
  unfold checkedSub at h
  split_ifs at h with hle
  cases h
  simp only [ClientRateLimit.expired, Bool.and_eq_true] at hexpired
  obtain ⟨-, hlast⟩ := hexpired
  refine (List.filter_eq_nil_iff.mpr fun (u : ℕ) hu => ?_).symm
  obtain ⟨l, last, heq⟩ := (List.eq_nil_or_concat' client.requests).resolve_left
    (List.ne_nil_of_mem hu)
  rw [heq] at hu hlast hsorted
  have hle' : (u : ℕ) ≤ last := by
    rcases List.mem_append.mp hu with hu | hu
    · exact (List.pairwise_append.mp hsorted).2.2 u hu last (List.mem_singleton_self last)
    · exact (List.mem_singleton.mp hu).le
  have hlt : (last : ℕ) < now - w * 2 := by simpa using hlast
  rw [decide_eq_true_eq]
  omega

theorem requestsOf_insert (clients : AssocMap IpAddr ClientRateLimit) (config : RateLimitConfig)
    (client : ClientRateLimit) (ip j : IpAddr) :
    requestsOf ⟨config, clients.insert ip client⟩ j =
      if j = ip then client.requests else requestsOf ⟨config, clients⟩ j := by
  unfold requestsOf
  rw [AssocMap.get?_insert]
  split_ifs <;> rfl

theorem requests_entry (limiter : WebSocketRateLimiter) (ip : IpAddr) (created : ℕ) :
    (limiter.entry ip created).requests = limiter.requestsOf ip := by
  unfold entry requestsOf
  cases limiter.clients.get? ip <;> rfl

theorem trims_checkedSub (window now : ℕ) (requests : List ℕ) :
    Trims window now requests
      (match checkedSub now window with
        | some windowStart => requests.filter (windowStart < ·)
        | none => requests) := by
  split
  · rename_i windowStart hstart
    exact trims_filter hstart requests
  · exact trims_refl _ _ _

/-- A request keeps the untrimmed part of the history, and records itself if there is room. -/
theorem ClientRateLimit.requests_checkRequest (config : RateLimitConfig) (now : ℕ)
    (client : ClientRateLimit) :
    ∃ kept, Trims config.windowDuration now client.requests kept ∧
      ((client.checkRequest config now).1 = .ok () →
        kept.length < config.maxRequestsPerWindow ∧
          (client.checkRequest config now).2.requests = kept ++ [now]) ∧
      ((client.checkRequest config now).1 ≠ .ok () →
        (client.checkRequest config now).2.requests = kept) := by
  refine ⟨_, trims_checkedSub config.windowDuration now client.requests, ?_, ?_⟩
  · unfold ClientRateLimit.checkRequest
    dsimp only
    split_ifs with hfull
    · intro h
      cases h
    · exact fun _ => ⟨not_le.mp hfull, rfl⟩
  · unfold ClientRateLimit.checkRequest
    dsimp only
    split_ifs with hfull
    · exact fun _ => rfl
    · exact fun h => absurd rfl h

theorem requestsOf_withEntry (limiter : WebSocketRateLimiter) (ip j : IpAddr) (created : ℕ)
    (check : ClientRateLimit → Except RateLimitError Unit × ClientRateLimit) :
    (limiter.withEntry ip created check).2.requestsOf j =
      if j = ip then (check (limiter.entry ip created)).2.requests else limiter.requestsOf j :=
  requestsOf_insert limiter.clients limiter.config _ ip j

theorem requestsOf_checkConnection (limiter : WebSocketRateLimiter) (ip j : IpAddr) (created : ℕ) :
    (limiter.checkConnection ip created).2.requestsOf j = limiter.requestsOf j := by
  unfold checkConnection
  split_ifs
  · rfl
  · rw [connectionEntry, requestsOf_withEntry]
    split_ifs with hj
    · rw [hj, ← requests_entry limiter ip created, ClientRateLimit.checkConnection]
      split_ifs <;> rfl
    · rfl

theorem requestsOf_closeConnection (limiter : WebSocketRateLimiter) (ip j : IpAddr) :
    (limiter.closeConnection ip).requestsOf j = limiter.requestsOf j := by
  change ((AssocMap.get? (limiter.clients.modify ip _) j).map _).getD [] = _
  rw [AssocMap.get?_modify, requestsOf]
  split_ifs
  · rw [Option.map_map]
    rfl
  · rfl

theorem requestsOf_checkMessage (limiter : WebSocketRateLimiter) (ip j : IpAddr)
    (frameSize now : ℕ) :
    (limiter.checkMessage ip frameSize now).2.requestsOf j = limiter.requestsOf j := by
  unfold checkMessage
  split_ifs
  · rfl
  · split
    · rename_i client hclient
      refine (requestsOf_insert limiter.clients limiter.config _ ip j).trans ?_
      split_ifs with hj
      · have hrequests : (client.checkMessageRate limiter.config now).2.requests =
            client.requests := by
          unfold ClientRateLimit.checkMessageRate
          dsimp only
          split_ifs <;> rfl
        rw [hrequests, hj, requestsOf, hclient, Option.map_some, Option.getD_some]
      · rfl
    · rfl

theorem trims_cleanupExpired (now : ℕ) (j : IpAddr)
    (hsorted : (limiter.requestsOf j).Pairwise (· ≤ ·)) :
    Trims limiter.config.windowDuration now (limiter.requestsOf j)
      ((limiter.cleanupExpired now).requestsOf j) := by
  unfold cleanupExpired
  split
  · exact trims_refl _ _ _
  · rename_i cutoff hcutoff
    change Trims _ _ _ ((AssocMap.get? (limiter.clients.retain _) j |>.map _).getD [])
    rw [AssocMap.get?_retain]
    unfold requestsOf at hsorted ⊢
    cases hclient : limiter.clients.get? j with
    | none => exact trims_refl _ _ _
    | some client =>
      rw [hclient] at hsorted
      rw [Option.filter_some]
      split_ifs with hexpired
      · exact trims_refl _ _ _
      · refine trims_expired hcutoff ?_ hsorted
        simpa using hexpired

/-- What an operation does to the history of an address. -/
theorem requestsOf_apply (e : TimedOp) (j : IpAddr)
    (hsorted : (limiter.requestsOf j).Pairwise (· ≤ ·)) :
    ∃ kept, Trims limiter.config.windowDuration e.now (limiter.requestsOf j) kept ∧
      (limiter.Admits e j → kept.length < limiter.config.maxRequestsPerWindow ∧
        (limiter.apply e).2.requestsOf j = kept ++ [e.now]) ∧
      (¬ limiter.Admits e j → (limiter.apply e).2.requestsOf j = kept) := by
  obtain ⟨op, now, created⟩ := e
  have hunchanged (h : (limiter.apply ⟨op, now, created⟩).2.requestsOf j = limiter.requestsOf j)
      (hnot : ¬ limiter.Admits ⟨op, now, created⟩ j) :
      ∃ kept, Trims limiter.config.windowDuration now (limiter.requestsOf j) kept ∧
        (limiter.Admits ⟨op, now, created⟩ j →
          kept.length < limiter.config.maxRequestsPerWindow ∧
            (limiter.apply ⟨op, now, created⟩).2.requestsOf j = kept ++ [now]) ∧
        (¬ limiter.Admits ⟨op, now, created⟩ j →
          (limiter.apply ⟨op, now, created⟩).2.requestsOf j = kept) :=
    ⟨_, trims_refl _ _ _, fun hadmits => absurd hadmits hnot, fun _ => h⟩
  cases op with
  | checkRequest ip =>
    by_cases hfull : limiter.Full ip
    · have happly : limiter.apply ⟨.checkRequest ip, now, created⟩ =
          (.error (.capacityExceeded maxTrackedClients), limiter) := if_pos hfull
      refine hunchanged (by rw [happly]) fun hadmits => ?_
      rw [Admits, happly] at hadmits
      cases hadmits.2
    · have happly : limiter.apply ⟨.checkRequest ip, now, created⟩ =
          limiter.requestEntry ip now created := if_neg hfull
      by_cases hj : j = ip
      · subst hj
        obtain ⟨kept, htrims, hok, herror⟩ := ClientRateLimit.requests_checkRequest limiter.config
          now (limiter.entry j created)
        have hrequests : (limiter.requestEntry j now created).2.requestsOf j =
            ((limiter.entry j created).checkRequest limiter.config now).2.requests := by
          rw [requestEntry, requestsOf_withEntry, if_pos rfl]
        have hadmits : limiter.Admits ⟨.checkRequest j, now, created⟩ j ↔
            ((limiter.entry j created).checkRequest limiter.config now).1 = .ok () := by
          rw [Admits, happly]
          exact and_iff_right rfl
        rw [requests_entry] at htrims
        rw [happly, hrequests, hadmits]
        exact ⟨kept, htrims, hok, herror⟩
      · refine hunchanged ?_ fun hadmits => hj ?_
        · rw [happly, requestEntry, requestsOf_withEntry, if_neg hj]
        · cases hadmits.1
          rfl
  | checkConnection ip =>
    exact hunchanged (requestsOf_checkConnection limiter ip j created) fun h => by cases h.1
  | closeConnection ip =>
    exact hunchanged (requestsOf_closeConnection limiter ip j) fun h => by cases h.1
  | checkMessage ip frameSize =>
    exact hunchanged (requestsOf_checkMessage limiter ip j frameSize now) fun h => by cases h.1
  | cleanupExpired =>
    exact ⟨_, trims_cleanupExpired now j hsorted, fun h => (by cases h.1), fun _ => rfl⟩

theorem config_apply (limiter : WebSocketRateLimiter) (e : TimedOp) :
    (limiter.apply e).2.config = limiter.config := by
  obtain ⟨op, now, created⟩ := e
  cases op with
  | checkRequest ip =>
    change (limiter.checkRequest ip now created).2.config = _
    unfold checkRequest
    split_ifs <;> rfl
  | checkConnection ip =>
    change (limiter.checkConnection ip created).2.config = _
    unfold checkConnection
    split_ifs <;> rfl
  | closeConnection ip => rfl
  | checkMessage ip frameSize =>
    change (limiter.checkMessage ip frameSize now).2.config = _
    unfold checkMessage
    split_ifs
    · rfl
    · split <;> rfl
  | cleanupExpired =>
    change (limiter.cleanupExpired now).config = _
    unfold cleanupExpired
    split <;> rfl

end Effects

namespace Run

/-- The recorded requests of an address are in order, none is later than the clock, and those that
have not left the window are the ones let through. -/
structure Sound (config : RateLimitConfig) (r : Run) : Prop where
  config_eq : r.limiter.config = config
  sorted : ∀ ip, (r.limiter.requestsOf ip).Pairwise (· ≤ ·)
  past : ∀ ip, ∀ u ∈ r.limiter.requestsOf ip, u ≤ r.clock
  recorded : ∀ ip, recent config.windowDuration r.clock (r.limiter.requestsOf ip) =
    recent config.windowDuration r.clock (r.admitted ip)
  bounded : ∀ ip t, (inWindow config.windowDuration t (r.admitted ip)).length ≤
    config.maxRequestsPerWindow

theorem sound_new (config : RateLimitConfig) (clock : ℕ) : (new config clock).Sound config where
  config_eq := rfl
  sorted := fun _ => List.Pairwise.nil
  past := by
    intro ip u hu
    cases hu
  recorded := fun _ => rfl
  bounded := fun _ _ => Nat.zero_le _

theorem Sound.step {config : RateLimitConfig} {r : Run} (h : r.Sound config) {e : TimedOp}
    (he : r.allowed e) : (r.post e).Sound config := by
  obtain ⟨hnow, hcreated⟩ := he
  have hconfig := h.config_eq
  subst hconfig
  have hspec := fun ip => requestsOf_apply e ip (h.sorted ip)
  refine ⟨config_apply r.limiter e, fun ip => ?_, fun ip u hu => ?_, fun ip => ?_, fun ip t => ?_⟩
  all_goals obtain ⟨kept, ⟨hsub, hrecent⟩, hadmits, hother⟩ := hspec ip
  all_goals have hpast : ∀ u ∈ kept, u ≤ e.now := fun u hu => (h.past ip u (hsub.subset hu)).trans hnow
  · change ((r.limiter.apply e).2.requestsOf ip).Pairwise _
    by_cases ha : r.limiter.Admits e ip
    · rw [(hadmits ha).2, List.pairwise_append]
      refine ⟨(h.sorted ip).sublist hsub, List.pairwise_singleton _ _, fun u hu v hv => ?_⟩
      rw [List.mem_singleton.mp hv]
      exact hpast u hu
    · rw [hother ha]
      exact (h.sorted ip).sublist hsub
  · change u ∈ (r.limiter.apply e).2.requestsOf ip at hu
    by_cases ha : r.limiter.Admits e ip
    · rw [(hadmits ha).2] at hu
      rcases List.mem_append.mp hu with hu | hu
      · exact (hpast u hu).trans hcreated
      · rw [List.mem_singleton.mp hu]
        exact hcreated
    · rw [hother ha] at hu
      exact (hpast u hu).trans hcreated
  · -- the instants kept and the instants let through have the same recent ones
    have hkept : recent r.limiter.config.windowDuration e.created kept =
        recent r.limiter.config.windowDuration e.created (r.admitted ip) :=
      recent_congr hcreated (hrecent.trans (recent_congr hnow (h.recorded ip)))
    change recent _ e.created ((r.limiter.apply e).2.requestsOf ip) =
      recent _ e.created (r.admitted ip ++ _)
    by_cases ha : r.limiter.Admits e ip
    · rw [(hadmits ha).2, if_pos ha, recent_append, recent_append, hkept]
    · rw [hother ha, if_neg ha, List.append_nil, hkept]
  · change (inWindow _ t (r.admitted ip ++ _)).length ≤ _
    by_cases ha : r.limiter.Admits e ip
    · rw [if_pos ha]
      refine length_inWindow_concat_le (lt_of_le_of_lt ?_ (hadmits ha).1) (h.bounded ip t)
      rw [← recent_congr hnow (h.recorded ip), ← hrecent]
      exact List.length_filter_le _ _
    · rw [if_neg ha, List.append_nil]
      exact h.bounded ip t

/-- No window, wherever it ends, holds more admitted requests of an address than the limit. -/
theorem requests_in_window_le {config : RateLimitConfig} {clock : ℕ} {es : List TimedOp} {r : Run}
    (h : Trace allowed post (new config clock) es r) (ip : IpAddr) (t : ℕ) :
    (inWindow config.windowDuration t (r.admitted ip)).length ≤ config.maxRequestsPerWindow := by
  have hsound : r.Sound config :=
    h.invariant (fun _ _ _ he hr => hr.step he) (sound_new config clock)
  exact hsound.bounded ip t

/-- The second request is turned away; the client is evicted, and a later request let through. -/
theorem requests_in_window_le_swept :
    let config : RateLimitConfig := { windowDuration := 100, maxRequestsPerWindow := 1 }
    let ops : List TimedOp := [⟨.checkRequest (.v4 127 0 0 1), 5, 5⟩,
      ⟨.checkRequest (.v4 127 0 0 1), 6, 6⟩, ⟨.cleanupExpired, 500, 500⟩,
      ⟨.checkRequest (.v4 127 0 0 1), 501, 501⟩]
    let r := ops.foldl post (new config 0)
    r.admitted (.v4 127 0 0 1) = [5, 501] ∧
      (inWindow 100 501 (r.admitted (.v4 127 0 0 1))).length ≤ 1 := by
  intro config ops r
  have hrun : Trace allowed post (new config 0) ops r :=
    Trace.of_guarded (by simp [ops, Trace.Guarded, allowed, post, new])
  exact ⟨by decide +kernel, requests_in_window_le hrun _ 501⟩

end Run

end PJS.WebSocketRateLimiter
