import PJS.Security.SlidingWindow

/-! The hint that comes with a refused request. The earliest request that counts leaves the window
exactly when the hint says, and until then nothing that happens in the table changes the refusal. -/
namespace PJS.WebSocketRateLimiter

open Window

section Decision
variable {limiter : WebSocketRateLimiter} {ip : IpAddr} {now created : ℕ}

theorem checkedSub_of_le {w : ℕ} (h : w ≤ now) : checkedSub now w = some (now - w) := if_pos h

theorem filter_eq_recent {w : ℕ} (h : w ≤ now) (l : List ℕ) :
    l.filter (now - w < ·) = recent w now l := by
  unfold recent
  refine List.filter_congr fun (u : ℕ) _ => ?_
  have hiff : now - w < u ↔ now < u + w := by omega
  simpa using hiff

/-- The request limit of the configuration is reached. -/
def limitError (config : RateLimitConfig) : RateLimitError :=
  .limitExceeded config.maxRequestsPerWindow config.windowDuration

/-- A clock as old as the window trims, and the rest decides. -/
theorem client_checkRequest {config : RateLimitConfig} (h : config.windowDuration ≤ now)
    (client : ClientRateLimit) :
    client.checkRequest config now =
      if config.maxRequestsPerWindow ≤ (recent config.windowDuration now client.requests).length then
        (.error (limitError config),
          { client with requests := recent config.windowDuration now client.requests })
      else (.ok (), { client with
        requests := recent config.windowDuration now client.requests ++ [now] }) := by
  unfold ClientRateLimit.checkRequest
  rw [checkedSub_of_le h]
  simp only [filter_eq_recent h]
  rfl

/-- A tracked client is refused exactly when its recent requests reach the limit. -/
theorem checkRequest_of_get? {client : ClientRateLimit}
    (hc : limiter.clients.get? ip = some client) (h : limiter.config.windowDuration ≤ now) :
    (limiter.checkRequest ip now created).1 =
      if limiter.config.maxRequestsPerWindow ≤
          (recent limiter.config.windowDuration now client.requests).length then
        .error (limitError limiter.config)
      else .ok () := by
  have hfull : ¬ limiter.Full ip := fun hf => hf.1 (AssocMap.mem_keys_iff.mpr ⟨client, hc⟩)
  have hentry : limiter.entry ip created = client := by
    unfold entry
    rw [hc, Option.getD_some]
  unfold checkRequest
  rw [if_neg hfull, requestEntry, withEntry, hentry, client_checkRequest h]
  split_ifs <;> rfl

/-- An address that is not tracked is not refused for its requests. -/
theorem checkRequest_of_untracked (hc : limiter.clients.get? ip = none)
    (hmax : 1 ≤ limiter.config.maxRequestsPerWindow) (h : limiter.config.windowDuration ≤ now) :
    (limiter.checkRequest ip now created).1 ≠ .error (limitError limiter.config) := by
  unfold checkRequest
  split_ifs with hfull
  · intro h
    cases h
  · have hentry : limiter.entry ip created = .new limiter.config.burstAllowance created := by
      unfold entry
      rw [hc, Option.getD_none]
    rw [requestEntry, withEntry, hentry, client_checkRequest h]
    have hroom : ¬ limiter.config.maxRequestsPerWindow ≤ (recent limiter.config.windowDuration now
        (ClientRateLimit.new limiter.config.burstAllowance created).requests).length := by
      show ¬ limiter.config.maxRequestsPerWindow ≤ 0
      omega
    rw [if_neg hroom]
    intro h
    cases h

/-- What remains is the limit less the recent requests. -/
theorem remainingFor_of_get? {client : ClientRateLimit}
    (hc : limiter.clients.get? ip = some client) (h : limiter.config.windowDuration ≤ now) :
    limiter.remainingFor ip now = limiter.config.maxRequestsPerWindow -
      (recent limiter.config.windowDuration now client.requests).length % 2 ^ 32 := by
  unfold remainingFor
  rw [hc]
  simp only [checkedSub_of_le h, List.countP_eq_length_filter, Option.all_some]
  rw [← filter_eq_recent h]

/-- The hint points at the instant at which the earliest recent request leaves the window. -/
theorem resetAfter_of_get? {client : ClientRateLimit} {earliest : ℕ}
    (hc : limiter.clients.get? ip = some client) (h : limiter.config.windowDuration ≤ now)
    (he : (recent limiter.config.windowDuration now client.requests).head? = some earliest)
    (hpast : earliest ≤ now) :
    now + limiter.resetAfter ip now = earliest + limiter.config.windowDuration := by
  have hfind : client.requests.find? (now - limiter.config.windowDuration < ·) = some earliest := by
    rw [← List.head?_filter, filter_eq_recent h, he]
  have hrecent := (mem_recent.mp (List.mem_of_mem_head? he)).2
  unfold resetAfter
  rw [hc]
  simp only [checkedSub_of_le h, hfind]
  omega

end Decision

section Waiting
variable {limiter : WebSocketRateLimiter} {ip : IpAddr} {l : List ℕ}

/-- The address is tracked, with these requests. -/
def Holds (limiter : WebSocketRateLimiter) (ip : IpAddr) (l : List ℕ) : Prop :=
  ∃ client, limiter.clients.get? ip = some client ∧ client.requests = l

theorem Holds.requests_entry (h : limiter.Holds ip l) (created : ℕ) :
    (limiter.entry ip created).requests = l := by
  obtain ⟨client, hc, hl⟩ := h
  unfold entry
  rw [hc, Option.getD_some, hl]

/-- An entry that is run keeps the requests of the address, if its check does. -/
theorem Holds.withEntry (h : limiter.Holds ip l) (j : IpAddr) (created : ℕ)
    {check : ClientRateLimit → Except RateLimitError Unit × ClientRateLimit}
    (hcheck : j = ip → (check (limiter.entry ip created)).2.requests = l) :
    (limiter.withEntry j created check).2.Holds ip l := by
  obtain ⟨client, hc, hl⟩ := h
  unfold Holds WebSocketRateLimiter.withEntry
  simp only [AssocMap.get?_insert]
  by_cases hj : ip = j
  · subst hj
    rw [if_pos rfl]
    exact ⟨_, rfl, hcheck rfl⟩
  · rw [if_neg hj]
    exact ⟨client, hc, hl⟩

/-- A list of requests that is full until its first one leaves the window. -/
structure Waits (config : RateLimitConfig) (l : List ℕ) (earliest : ℕ) : Prop where
  head : l.head? = some earliest
  sorted : l.Pairwise (· ≤ ·)
  full : l.length = config.maxRequestsPerWindow

variable {config : RateLimitConfig} {earliest now : ℕ}

theorem Waits.le (h : Waits config l earliest) {u : ℕ} (hu : u ∈ l) : earliest ≤ u := by
  cases l with
  | nil => cases hu
  | cons a l =>
    have ha : a = earliest := Option.some.inj h.head
    rcases List.mem_cons.mp hu with rfl | hu
    · exact ha.ge
    · rw [← ha]
      exact (List.pairwise_cons.mp h.sorted).1 u hu

theorem Waits.recent_of_lt (h : Waits config l earliest)
    (hlt : now < earliest + config.windowDuration) : recent config.windowDuration now l = l :=
  recent_eq_self fun _ hu => lt_of_lt_of_le hlt (Nat.add_le_add_right (h.le hu) _)

theorem Waits.recent_at (h : Waits config l earliest) :
    (recent config.windowDuration (earliest + config.windowDuration) l).length <
      config.maxRequestsPerWindow := by
  rw [← h.full]
  exact length_recent_lt (List.mem_of_mem_head? h.head) (lt_irrefl _)

/-- A refused request leaves the waiting list as it is. -/
theorem Waits.requests_checkRequest (h : Waits config l earliest)
    (hold : config.windowDuration ≤ now) (hnow : now ≤ earliest + config.windowDuration)
    {client : ClientRateLimit} (hl : client.requests = l)
    (hrefused : (client.checkRequest config now).1 ≠ .ok ()) :
    (client.checkRequest config now).2.requests = l := by
  rw [client_checkRequest hold, hl] at hrefused ⊢
  rcases hnow.lt_or_eq with hlt | rfl
  · rw [h.recent_of_lt hlt, if_pos h.full.ge]
  · rw [if_neg (not_le.mpr h.recent_at)] at hrefused
    exact absurd rfl hrefused

/-- A client that waits does not count as gone. -/
theorem Waits.not_expired (h : Waits config l earliest)
    (hnow : now ≤ earliest + config.windowDuration) {client : ClientRateLimit}
    (hl : client.requests = l) {cutoff : ℕ}
    (hc : checkedSub now (config.windowDuration * 2) = some cutoff) :
    client.expired cutoff = false := by
  unfold checkedSub at hc
  split_ifs at hc with hle
  cases hc
  have hne : l ≠ [] := by
    rintro rfl
    cases h.head
  have hlast := h.le (List.getLast_mem hne)
  have hkept : ¬ l.getLast hne < now - config.windowDuration * 2 := by omega
  unfold ClientRateLimit.expired
  rw [hl, List.getLast?_eq_some_getLast hne, Option.all_some, decide_eq_false hkept, Bool.and_false]

/-- Until its earliest request leaves the window, no operation that lets no request of the address
through changes what is recorded for it. -/
theorem Waits.apply (h : Waits limiter.config l earliest) (hh : limiter.Holds ip l) {e : TimedOp}
    (hold : limiter.config.windowDuration ≤ e.now)
    (hnow : e.now ≤ earliest + limiter.config.windowDuration) (hnot : ¬ limiter.Admits e ip) :
    (limiter.apply e).2.Holds ip l := by
  obtain ⟨op, now, created⟩ := e
  cases op with
  | checkRequest j =>
    show (limiter.checkRequest j now created).2.Holds ip l
    unfold checkRequest
    split_ifs with hfull
    · exact hh
    · refine hh.withEntry j created fun hj => ?_
      refine h.requests_checkRequest hold hnow (hh.requests_entry created) fun hok => hnot ?_
      subst hj
      refine ⟨rfl, ?_⟩
      show (limiter.checkRequest j now created).1 = .ok ()
      unfold checkRequest
      rw [if_neg hfull]
      exact hok
  | checkConnection j =>
    show (limiter.checkConnection j created).2.Holds ip l
    unfold checkConnection
    split_ifs
    · exact hh
    · refine hh.withEntry j created fun hj => ?_
      rw [← hh.requests_entry created]
      unfold ClientRateLimit.checkConnection
      split_ifs <;> rfl
  | closeConnection j =>
    obtain ⟨client, hc, hl⟩ := hh
    show ∃ client', AssocMap.get? (limiter.clients.modify j _) ip = some client' ∧ _
    rw [AssocMap.get?_modify, hc]
    split_ifs
    · exact ⟨_, rfl, hl⟩
    · exact ⟨client, rfl, hl⟩
  | checkMessage j frameSize =>
    show (limiter.checkMessage j frameSize now).2.Holds ip l
    unfold checkMessage
    split_ifs
    · exact hh
    · split
      · rename_i client hclient
        obtain ⟨held, hc, hl⟩ := hh
        show ∃ client', AssocMap.get? (limiter.clients.insert j _) ip = some client' ∧ _
        rw [AssocMap.get?_insert]
        split_ifs with hj
        · subst hj
          cases hc.symm.trans hclient
          refine ⟨_, rfl, ?_⟩
          rw [← hl]
          unfold ClientRateLimit.checkMessageRate
          dsimp only
          split_ifs <;> rfl
        · exact ⟨held, hc, hl⟩
      · exact hh
  | cleanupExpired =>
    show (limiter.cleanupExpired now).Holds ip l
    unfold cleanupExpired
    split
    · exact hh
    · rename_i cutoff hcutoff
      obtain ⟨client, hc, hl⟩ := hh
      show ∃ client', AssocMap.get? (limiter.clients.retain _) ip = some client' ∧ _
      rw [AssocMap.get?_retain, hc, Option.filter_some, h.not_expired hnow hl hcutoff]
      exact ⟨client, rfl, hl⟩

end Waiting

namespace Run
variable {config : RateLimitConfig} {r : Run} {ip : IpAddr}

/-- The requests that count at a later instant are no more than the limit. -/
theorem Sound.length_recent_le (h : r.Sound config) (ip : IpAddr) {t : ℕ} (ht : r.clock ≤ t) :
    (recent config.windowDuration t (r.limiter.requestsOf ip)).length ≤
      config.maxRequestsPerWindow := by
  refine le_trans ?_ (h.bounded ip t)
  rw [recent_congr ht (h.recorded ip)]
  have hsame : recent config.windowDuration t (r.admitted ip) =
      inWindow config.windowDuration t (r.admitted ip) := by
    unfold recent inWindow
    refine List.filter_congr fun (u : ℕ) hu => ?_
    by_cases hrecent : t < u + config.windowDuration
    · have hmem : u ∈ recent config.windowDuration t (r.limiter.requestsOf ip) := by
        rw [recent_congr ht (h.recorded ip)]
        exact mem_recent.mpr ⟨hu, hrecent⟩
      have hle : u ≤ t := (h.past ip u (mem_recent.mp hmem).1).trans ht
      rw [decide_eq_true hrecent, decide_eq_true ⟨hle, hrecent⟩]
    · rw [decide_eq_false hrecent, decide_eq_false fun hand => hrecent hand.2]
  exact (congrArg List.length hsame).le

/-- While nothing of the address is let through, its waiting list stays as it is. -/
theorem holds_of_waits {r' : Run} {mid : List TimedOp} {l : List ℕ} {earliest : ℕ}
    (h : Trace allowed post r mid r') (hh : r.limiter.Holds ip l)
    (hw : Waits r.limiter.config l earliest) (hold : r.limiter.config.windowDuration ≤ r.clock) :
    r'.limiter.config = r.limiter.config ∧ r.clock ≤ r'.clock ∧
      (∃ later, r'.admitted ip = r.admitted ip ++ later) ∧
      (r'.clock ≤ earliest + r.limiter.config.windowDuration → r'.admitted ip = r.admitted ip →
        r'.limiter.Holds ip l) := by
  induction h with
  | nil => exact ⟨rfl, le_rfl, ⟨[], (List.append_nil _).symm⟩, fun _ _ => hh⟩
  | @snoc es s e hs he ih =>
    obtain ⟨hconfig, hclock, ⟨later, hlater⟩, hholds⟩ := ih
    obtain ⟨hnow, hcreated⟩ := he
    have hpost : (s.post e).admitted ip =
        r.admitted ip ++ (later ++ if s.limiter.Admits e ip then [e.now] else []) := by
      rw [← List.append_assoc, ← hlater]
      rfl
    refine ⟨(config_apply s.limiter e).trans hconfig, ?_, ⟨_, hpost⟩, fun hle hsame => ?_⟩
    · exact hclock.trans (hnow.trans hcreated)
    · change e.created ≤ _ at hle
      rw [hpost, List.append_right_eq_self, List.append_eq_nil_iff] at hsame
      obtain ⟨rfl, hadmits⟩ := hsame
      rw [List.append_nil] at hlater
      have hnot : ¬ s.limiter.Admits e ip := by
        intro ha
        rw [if_pos ha] at hadmits
        cases hadmits
      have hheld := hholds (by omega) hlater
      rw [← hconfig] at hw hle hold
      exact hw.apply hheld (by omega) (by omega) hnot

/-- The requests held for an address that is tracked. -/
theorem requestsOf_of_get? {client : ClientRateLimit}
    (hc : r.limiter.clients.get? ip = some client) :
    r.limiter.requestsOf ip = client.requests := by
  unfold requestsOf
  rw [hc]
  rfl

/-- A refusal for too many requests finds the address tracked, with as many recent requests as the
limit, and leaves just these recorded. -/
theorem Sound.waits (h : r.Sound config) (hmax : 1 ≤ config.maxRequestsPerWindow) {t created : ℕ}
    (ht : r.clock ≤ t) (hold : config.windowDuration ≤ t)
    (hrefused : (r.limiter.checkRequest ip t created).1 = .error (limitError config)) :
    ∃ l earliest, Waits config l earliest ∧ (∀ u ∈ l, u ≤ t ∧ t < u + config.windowDuration) ∧
      (r.limiter.checkRequest ip t created).2.Holds ip l := by
  have hconfig := h.config_eq
  subst hconfig
  cases hc : r.limiter.clients.get? ip with
  | none => exact absurd hrefused (checkRequest_of_untracked hc hmax hold)
  | some client =>
    have hrequests := requestsOf_of_get? hc
    have hle := h.length_recent_le ip ht
    rw [hrequests] at hle
    have hdecision : (r.limiter.checkRequest ip t created).1 = _ := checkRequest_of_get? hc hold
    rw [hrefused] at hdecision
    split_ifs at hdecision with hfull
    have hlength := hle.antisymm hfull
    obtain ⟨earliest, hearliest⟩ : ∃ earliest, (recent r.limiter.config.windowDuration t
        client.requests).head? = some earliest := by
      cases hl : recent r.limiter.config.windowDuration t client.requests with
      | nil =>
        rw [hl, List.length_nil] at hlength
        omega
      | cons a l => exact ⟨a, rfl⟩
    have hsorted := h.sorted ip
    rw [hrequests] at hsorted
    refine ⟨_, earliest, ⟨hearliest, hsorted.sublist List.filter_sublist, hlength⟩, ?_, ?_⟩
    · intro u hu
      obtain ⟨hu, hrecent⟩ := mem_recent.mp hu
      rw [← hrequests] at hu
      exact ⟨(h.past ip u hu).trans ht, hrecent⟩
    · have hroom : ¬ r.limiter.Full ip := fun hf => hf.1 (AssocMap.mem_keys_iff.mpr ⟨client, hc⟩)
      have hentry : r.limiter.entry ip created = client := by
        unfold entry
        rw [hc, Option.getD_some]
      unfold checkRequest
      rw [if_neg hroom, requestEntry, WebSocketRateLimiter.withEntry, hentry,
        client_checkRequest hold, if_pos hfull]
      exact ⟨_, AssocMap.get?_insert_self _ _ _, rfl⟩

/-- Something remains exactly when the next request is not refused for the limit. -/
theorem Sound.remainingFor_pos_iff (h : r.Sound config) (hmax : 1 ≤ config.maxRequestsPerWindow)
    (hu32 : config.maxRequestsPerWindow < 2 ^ 32) {t : ℕ} (created : ℕ) (ht : r.clock ≤ t)
    (hold : config.windowDuration ≤ t) :
    0 < r.limiter.remainingFor ip t ↔
      (r.limiter.checkRequest ip t created).1 ≠ .error (limitError config) := by
  have hconfig := h.config_eq
  subst hconfig
  cases hc : r.limiter.clients.get? ip with
  | none =>
    have hall : r.limiter.remainingFor ip t = r.limiter.config.maxRequestsPerWindow := by
      unfold remainingFor
      rw [hc]
    rw [hall]
    exact iff_of_true hmax (checkRequest_of_untracked hc hmax hold)
  | some client =>
    have hle := h.length_recent_le ip ht
    rw [requestsOf_of_get? hc] at hle
    -- no more than the limit count, so the cast to 32 bits loses nothing
    rw [remainingFor_of_get? hc hold, Nat.mod_eq_of_lt (lt_of_le_of_lt hle hu32),
      checkRequest_of_get? hc hold]
    split_ifs with hfull
    · exact iff_of_false (by omega) fun hne => hne rfl
    · exact iff_of_true (by omega) nofun

/-- The hint is exact, and so is the number that remains. The limit is a 32 bit number. -/
theorem reset_hint_exact {clock : ℕ} {es : List TimedOp}
    (h : Trace allowed post (new config clock) es r) (hmax : 1 ≤ config.maxRequestsPerWindow)
    (hu32 : config.maxRequestsPerWindow < 2 ^ 32) (ip : IpAddr) {t created : ℕ} (ht : r.clock ≤ t)
    (hcreated : t ≤ created) (hold : config.windowDuration ≤ t) :
    (0 < r.limiter.remainingFor ip t ↔
      (r.limiter.checkRequest ip t created).1 ≠ .error (limitError config)) ∧
    ((r.limiter.checkRequest ip t created).1 = .error (limitError config) →
      let refused := r.post ⟨.checkRequest ip, t, created⟩
      let reset := refused.limiter.resetAfter ip t
      ∀ mid r', Trace allowed post refused mid r' → r'.admitted ip = refused.admitted ip →
        ∀ t' created', r'.clock ≤ t' →
          (t' < t + reset →
            (r'.limiter.checkRequest ip t' created').1 = .error (limitError config)) ∧
          (t' = t + reset → (r'.limiter.checkRequest ip t' created').1 = .ok ())) := by
  have hsound : r.Sound config :=
    h.invariant (fun _ _ _ he hr => hr.step he) (sound_new config clock)
  refine ⟨hsound.remainingFor_pos_iff hmax hu32 created ht hold, ?_⟩
  intro hrefused refused reset mid r' hmid hsame t' created' ht'
  obtain ⟨l, earliest, hwaits, hrecent, hholds⟩ := hsound.waits hmax ht hold hrefused
  have hrefusedConfig : refused.limiter.config = config :=
    (config_apply r.limiter ⟨.checkRequest ip, t, created⟩).trans hsound.config_eq
  have hlateClock : t ≤ refused.clock := hcreated
  have hreset : t + reset = earliest + config.windowDuration := by
    obtain ⟨client, hc, hl⟩ := hholds
    have hkept : recent config.windowDuration t client.requests = l := by
      rw [hl]
      exact recent_eq_self fun u hu => (hrecent u hu).2
    rw [← hrefusedConfig] at hold hkept ⊢
    refine resetAfter_of_get? hc hold ?_ (hrecent earliest (List.mem_of_mem_head? hwaits.head)).1
    rw [hkept]
    exact hwaits.head
  rw [← hrefusedConfig] at hwaits hreset hold
  obtain ⟨hconfig, hclock, -, hlater⟩ := holds_of_waits hmid hholds hwaits (hold.trans hlateClock)
  have hwindow : r'.limiter.config.windowDuration ≤ t' := by
    rw [hconfig]
    exact hold.trans (hlateClock.trans (hclock.trans ht'))
  have hdecision : t' ≤ t + reset → ∃ client, r'.limiter.clients.get? ip = some client ∧
      client.requests = l := fun hle => hlater (by omega) hsame
  rw [← hconfig] at hwaits hreset
  constructor
  · intro hlt
    obtain ⟨client, hc, hl⟩ := hdecision hlt.le
    rw [checkRequest_of_get? hc hwindow, hl, hwaits.recent_of_lt (by omega), if_pos hwaits.full.ge,
      hconfig, hrefusedConfig]
  · rintro hat
    obtain ⟨client, hc, hl⟩ := hdecision hat.le
    have hinstant := hat.trans hreset
    subst hinstant
    rw [checkRequest_of_get? hc hwindow, hl, if_neg (not_le.mpr hwaits.recent_at)]

/-- One request a window, let through at 105: the next one is refused at 150 and at 204, and let
through at 205. -/
theorem reset_hint_exact_at :
    let config : RateLimitConfig := { windowDuration := 100, maxRequestsPerWindow := 1 }
    let ip : IpAddr := .v4 127 0 0 1
    let r := (new config 100).post ⟨.checkRequest ip, 105, 105⟩
    let refused := r.post ⟨.checkRequest ip, 150, 150⟩
    r.limiter.remainingFor ip 150 = 0 ∧ refused.limiter.resetAfter ip 150 = 55 ∧
      (refused.limiter.checkRequest ip 204 204).1 = .error (limitError config) ∧
      (refused.limiter.checkRequest ip 205 205).1 = .ok () := by
  intro config ip r refused
  have hrun : Trace allowed post (new config 100) [⟨.checkRequest ip, 105, 105⟩] r :=
    Trace.of_guarded (by simp [Trace.Guarded, allowed, new])
  have hexact := reset_hint_exact hrun (by decide) (by decide) ip (t := 150) (by decide)
    (le_refl 150) (by decide)
  have hrefused : (r.limiter.checkRequest ip 150 150).1 = .error (limitError config) := by
    decide +kernel
  have hreset : refused.limiter.resetAfter ip 150 = 55 := by decide +kernel
  have hlater := hexact.2 hrefused [] refused (Trace.of_guarded trivial) rfl
  refine ⟨Nat.eq_zero_of_not_pos fun hpos => hexact.1.mp hpos hrefused, hreset, ?_, ?_⟩
  · exact (hlater 204 204 (by decide)).1 (by rw [hreset]; decide)
  · exact (hlater 205 205 (by decide)).2 (by rw [hreset])

end Run

end PJS.WebSocketRateLimiter
