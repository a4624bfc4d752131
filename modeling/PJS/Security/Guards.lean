import PJS.Security.Access

/-! The connection counts of the rate limiter are the counts of live guards. -/
namespace PJS.WebSocketRateLimiter

open Relation

variable {s s' : WebSocketRateLimiter} {c c' : Call} {config : RateLimitConfig}

/-- The connections recorded for an address. -/
def connectionsOf (s : WebSocketRateLimiter) (ip : IpAddr) : ℕ :=
  ((s.clients.get? ip).map ClientRateLimit.connectionCount).getD 0

/-- The guards that a call is: one for its address, if it is a live guard. -/
def Call.guards : Call → IpAddr → ℕ
  | .guard ip => Pi.single ip 1
  | _ => 0

def Calls.liveGuards (p : Calls) (ip : IpAddr) : ℕ := (p.calls.map Call.guards).sum ip

section Effects

theorem connectionsOf_insert (clients : AssocMap IpAddr ClientRateLimit) (config : RateLimitConfig)
    (client : ClientRateLimit) (ip j : IpAddr) :
    connectionsOf ⟨config, clients.insert ip client⟩ j =
      if j = ip then client.connectionCount else connectionsOf ⟨config, clients⟩ j := by
  unfold connectionsOf
  rw [AssocMap.get?_insert]
  split_ifs <;> rfl

theorem connections_entry (s : WebSocketRateLimiter) (ip : IpAddr) (created : ℕ) :
    (s.entry ip created).connectionCount = s.connectionsOf ip := by
  unfold entry connectionsOf
  cases s.clients.get? ip <;> rfl

/-- Writing back an entry with the same count changes no count. -/
theorem connectionsOf_insert_self {client : ClientRateLimit} {ip : IpAddr}
    (h : client.connectionCount = s.connectionsOf ip) :
    connectionsOf { s with clients := s.clients.insert ip client } = s.connectionsOf := by
  funext j
  rw [connectionsOf_insert]
  split_ifs with hj
  · rw [h, hj]
  · rfl

theorem connectionsOf_requestEntry (s : WebSocketRateLimiter) (ip : IpAddr) (now created : ℕ) :
    (s.requestEntry ip now created).2.connectionsOf = s.connectionsOf := by
  rw [requestEntry, withEntry_snd]
  refine connectionsOf_insert_self ?_
  rw [← connections_entry s ip created, ClientRateLimit.checkRequest]
  split_ifs <;> rfl

theorem connectionsOf_checkMessage (s : WebSocketRateLimiter) (ip : IpAddr) (frameSize now : ℕ) :
    (s.checkMessage ip frameSize now).2.connectionsOf = s.connectionsOf := by
  rcases checkMessage_snd s ip frameSize now with h | ⟨client, hclient, h⟩
  · rw [h]
  · rw [h]
    refine connectionsOf_insert_self ?_
    rw [connectionsOf, hclient, ClientRateLimit.checkMessageRate]
    split_ifs <;> rfl

/-- A connection is let through below the limit, and is counted; otherwise nothing is. -/
theorem connectionsOf_connectionEntry (s : WebSocketRateLimiter) (ip : IpAddr) (created : ℕ) :
    ((s.connectionEntry ip created).1 = .ok () ∧ s.connectionsOf ip < s.config.maxConnectionsPerIp ∧
        (s.connectionEntry ip created).2.connectionsOf = s.connectionsOf + Pi.single ip 1) ∨
      ((s.connectionEntry ip created).1 ≠ .ok () ∧
        (s.connectionEntry ip created).2.connectionsOf = s.connectionsOf) := by
  have hresult : (s.connectionEntry ip created).1 =
      ((s.entry ip created).checkConnection s.config).1 := rfl
  rw [hresult, connectionEntry, withEntry_snd, ClientRateLimit.checkConnection]
  split_ifs with hfull
  · exact Or.inr ⟨by simp, connectionsOf_insert_self (connections_entry s ip created)⟩
  · rw [connections_entry, not_le] at hfull
    refine Or.inl ⟨rfl, hfull, ?_⟩
    funext j
    rw [connectionsOf_insert, Pi.add_apply, connections_entry]
    split_ifs with hj
    · rw [hj, Pi.single_eq_same]
    · rw [Pi.single_eq_of_ne hj, Nat.add_zero]

theorem connectionsOf_closeConnection (s : WebSocketRateLimiter) (ip : IpAddr) :
    (s.closeConnection ip).connectionsOf = s.connectionsOf - Pi.single ip 1 := by
  funext j
  change ((AssocMap.get? (s.clients.modify ip _) j).map _).getD 0 = _
  rw [AssocMap.get?_modify, Pi.sub_apply, connectionsOf]
  split_ifs with hj
  · rw [hj, Pi.single_eq_same]
    cases s.clients.get? ip <;> rfl
  · rw [Pi.single_eq_of_ne hj, Nat.sub_zero]

/-- Only a client without connections is evicted. -/
theorem connectionsOf_erase {ip : IpAddr} {client : ClientRateLimit} {cutoff : ℕ}
    (hclient : s.clients.get? ip = some client) (h : client.expired cutoff = true) :
    connectionsOf { s with clients := s.clients.erase ip } = s.connectionsOf := by
  funext j
  change ((AssocMap.get? (s.clients.erase ip) j).map _).getD 0 = _
  rw [AssocMap.get?_erase, connectionsOf]
  split_ifs with hj
  · rw [ClientRateLimit.expired, Bool.and_eq_true, decide_eq_true_eq] at h
    rw [hj, hclient]
    exact h.1.symm
  · rfl

/-- A step moves the counts as it moves the guards. -/
theorem Call.Step.connectionsOf (h : Call.Step s c s' c') {rest : IpAddr → ℕ}
    (hs : s.connectionsOf = c.guards + rest) : s'.connectionsOf = c'.guards + rest := by
  cases h with
  | @request ip now created => rwa [connectionsOf_requestEntry]
  | @connect ip created hok =>
    rcases connectionsOf_connectionEntry s ip created with ⟨-, -, hcount⟩ | ⟨herror, -⟩
    · rw [hcount, hs]
      change 0 + rest + Pi.single ip 1 = Pi.single ip 1 + rest
      rw [zero_add, add_comm]
    · exact absurd hok herror
  | @refuse ip created error herror =>
    rcases connectionsOf_connectionEntry s ip created with ⟨hok, -⟩ | ⟨-, hcount⟩
    · rw [hok] at herror
      cases herror
    · rwa [hcount]
  | guardMessage | message => rwa [connectionsOf_checkMessage]
  | drop =>
    rw [connectionsOf_closeConnection, hs]
    change Pi.single _ 1 + rest - Pi.single _ 1 = 0 + rest
    rw [add_tsub_cancel_left, zero_add]
  | evict hnew hclient hexpired => rwa [connectionsOf_erase hclient hexpired]
  | tracked | untracked | full | room | skip | sweep | keep | swept => exact hs

end Effects

section Runs

/-- The limiter has its configuration, and no address has more connections than the limit. -/
def Bounded (config : RateLimitConfig) (s : WebSocketRateLimiter) : Prop :=
  s.config = config ∧ ∀ ip, s.connectionsOf ip ≤ config.maxConnectionsPerIp

theorem Call.Step.bounded (h : Call.Step s c s' c') (hs : Bounded config s) :
    Bounded config s' := by
  obtain ⟨rfl, hle⟩ := hs
  refine ⟨h.config_eq, fun j => ?_⟩
  cases h with
  | @request ip now created => rw [connectionsOf_requestEntry]; exact hle j
  | @connect ip created hok =>
    rcases connectionsOf_connectionEntry s ip created with ⟨-, hlt, hcount⟩ | ⟨herror, -⟩
    · rw [hcount, Pi.add_apply]
      by_cases hj : j = ip
      · rw [hj, Pi.single_eq_same]
        exact hlt
      · rw [Pi.single_eq_of_ne hj]
        exact hle j
    · exact absurd hok herror
  | @refuse ip created error herror =>
    rcases connectionsOf_connectionEntry s ip created with ⟨hok, -⟩ | ⟨-, hcount⟩
    · rw [hok] at herror
      cases herror
    · rw [hcount]
      exact hle j
  | guardMessage | message => rw [connectionsOf_checkMessage]; exact hle j
  | drop =>
    rw [connectionsOf_closeConnection]
    exact (Nat.sub_le _ _).trans (hle j)
  | evict hnew hclient hexpired => rw [connectionsOf_erase hclient hexpired]; exact hle j
  | tracked | untracked | full | room | skip | sweep | keep | swept => exact hle j

theorem outline (config : RateLimitConfig) :
    Pool.Outline Call.Starts Call.Step (Bounded config) (fun _ _ => True) fun _ _ => True where
  symm := id
  begins := fun _ _ => trivial
  begins_apart := fun _ _ => trivial
  own := fun hs _ h => ⟨h.bounded hs, trivial⟩
  other := fun _ _ _ _ _ => ⟨trivial, trivial⟩

theorem guards_of_starts {c : Call} (h : c.Starts) : c.guards = 0 := by
  rcases h with ⟨kind, ip, rfl⟩ | ⟨ip, frameSize, rfl⟩ | rfl <;> rfl

theorem Calls.sound {p : Calls}
    (h : ReflTransGen (Pool.Step Call.Starts Call.Step) (Calls.new config) p) :
    Bounded config p.shared ∧ p.shared.connectionsOf = p.liveGuards := by
  have hholds : Pool.Holds (Bounded config) (fun _ _ => True) (fun _ _ => True) p ∧
      p.shared.connectionsOf = (p.calls.map Call.guards).sum := by
    induction h with
    | refl => exact ⟨Pool.holds_nil ⟨rfl, fun _ => Nat.zero_le _⟩, rfl⟩
    | tail _ hstep ih =>
      refine ⟨(outline config).step_holds ih.1 hstep, ?_⟩
      exact Pool.sum_step Call.guards (fun s n => s.connectionsOf = n) (fun _ => guards_of_starts)
        (fun _ _ _ _ _ _ _ h => h.connectionsOf) ih.1 hstep ih.2
  exact ⟨hholds.1.shared, hholds.2⟩

/-- A tracked address has as many connections as live guards, and no more than the limit; an
address with a live guard is tracked, so its messages draw on its tokens. -/
theorem guards_counted {p : Calls}
    (h : ReflTransGen (Pool.Step Call.Starts Call.Step) (Calls.new config) p) (ip : IpAddr) :
    (∀ client, p.shared.clients.get? ip = some client →
      client.connectionCount = p.liveGuards ip ∧
        client.connectionCount ≤ config.maxConnectionsPerIp) ∧
      (0 < p.liveGuards ip → ∃ client, p.shared.clients.get? ip = some client ∧
        ∀ frameSize now, frameSize ≤ config.maxFrameSize →
          p.shared.checkMessage ip frameSize now =
            ((client.checkMessageRate config now).1, { p.shared with
              clients := p.shared.clients.insert ip (client.checkMessageRate config now).2 })) := by
  obtain ⟨⟨hconfig, hle⟩, hcount⟩ := Calls.sound h
  have hip := congrFun hcount ip
  constructor
  · intro client hclient
    have hconnections : p.shared.connectionsOf ip = client.connectionCount := by
      rw [connectionsOf, hclient]
      rfl
    rw [← hconnections]
    exact ⟨hip, hle ip⟩
  · intro hpos
    rw [← hip, connectionsOf] at hpos
    cases hclient : p.shared.clients.get? ip with
    | none =>
      rw [hclient] at hpos
      exact absurd hpos (Nat.lt_irrefl 0)
    | some client =>
      refine ⟨client, rfl, fun frameSize now hsize => ?_⟩
      subst hconfig
      rw [checkMessage, if_neg (not_lt.mpr hsize), hclient]

/-- A sweep evicts a client that only made a request; meanwhile a second guard is created for an
address, the first is dropped, and a third is under way. -/
theorem guards_counted_swept :
    ∃ p : Calls, ReflTransGen (Pool.Step Call.Starts Call.Step) (Calls.new {}) p ∧
      p.calls = [.returned (.ok ()), .returned (.ok ()), .returned (.ok ()),
        .guard (.v4 127 0 0 1), .entry .connection (.v4 127 0 0 1)] ∧
      p.shared.clients.keys = [.v4 127 0 0 1] ∧ p.liveGuards (.v4 127 0 0 1) = 1 ∧
      ∃ client, p.shared.clients.get? (.v4 127 0 0 1) = some client ∧
        client.connectionCount = 1 := by
  let ip : IpAddr := .v4 127 0 0 1
  let other : IpAddr := .v4 127 0 0 2
  let s : WebSocketRateLimiter := .new {}
  let s₁ := (s.connectionEntry ip 0).2
  let s₂ := (s₁.requestEntry other 0 0).2
  let s₃ : WebSocketRateLimiter := { s₂ with clients := s₂.clients.erase other }
  let s₄ := (s₃.connectionEntry ip 0).2
  let s₅ := s₄.closeConnection ip
  obtain ⟨now, cutoff, hcutoff, hpos⟩ : ∃ now cutoff, s.cutoff now = some cutoff ∧ 0 < cutoff := by
    refine ⟨s.config.windowDuration * 2 + 1, 1, ?_, Nat.one_pos⟩
    rw [WebSocketRateLimiter.cutoff, checkedSub, if_pos (Nat.le_succ _), Nat.add_sub_cancel_left]
  -- a guard, and a request from another address
  have hguard : ReflTransGen (Pool.Step Call.Starts Call.Step) (Calls.new {}) ⟨s₁, [.guard ip]⟩ :=
    (((ReflTransGen.single (.start (Or.inl ⟨.connection, ip, rfl⟩))).tail
      (.step (l := []) (.untracked List.not_mem_nil))).tail
      (.step (l := []) (.room (by decide)))).tail (.step (l := []) (.connect rfl))
  have hrequest : ReflTransGen (Pool.Step Call.Starts Call.Step) ⟨s₁, [.guard ip]⟩
      ⟨s₂, [.guard ip, .returned (.ok ())]⟩ :=
    (((ReflTransGen.single (.start (Or.inl ⟨.request, other, rfl⟩))).tail
      (.step (l := [_]) (.untracked (by decide)))).tail
      (.step (l := [_]) (.room (by decide)))).tail (.step (l := [_]) .request)
  -- the sweep begins, and a second guard is under way
  have hsweep : ReflTransGen (Pool.Step Call.Starts Call.Step)
      ⟨s₂, [.guard ip, .returned (.ok ())]⟩
      ⟨s₂, [.guard ip, .returned (.ok ()), .retaining cutoff [ip, other] [],
        .entry .connection ip]⟩ :=
    (((ReflTransGen.single (.start (Or.inr (Or.inr rfl)))).tail
      (.step (l := [_, _]) (.sweep hcutoff))).tail
      (.start (Or.inl ⟨.connection, ip, rfl⟩))).tail
      (.step (l := [_, _, _]) (.tracked (by decide)))
  have hother : s₂.clients.get? other = some ((s₁.entry other 0).checkRequest s.config 0).2 := rfl
  have hexpired : ClientRateLimit.expired cutoff ((s₁.entry other 0).checkRequest s.config 0).2 =
      true := decide_eq_true hpos
  -- the request's client is evicted, the guard's is kept, and the guards change hands
  have h₁ : Pool.Step Call.Starts Call.Step
      ⟨s₂, [.guard ip, .returned (.ok ()), .retaining cutoff [ip, other] [], .entry .connection ip]⟩
      ⟨s₃, [.guard ip, .returned (.ok ()), .retaining cutoff [ip, other] [other],
        .entry .connection ip]⟩ :=
    .step (l := [_, _]) (.evict List.not_mem_nil hother hexpired)
  have h₂ : Pool.Step Call.Starts Call.Step
      ⟨s₃, [.guard ip, .returned (.ok ()), .retaining cutoff [ip, other] [other],
        .entry .connection ip]⟩
      ⟨s₄, [.guard ip, .returned (.ok ()), .retaining cutoff [ip, other] [other], .guard ip]⟩ :=
    .step (l := [_, _, _]) (.connect rfl)
  have h₃ : Pool.Step Call.Starts Call.Step
      ⟨s₄, [.guard ip, .returned (.ok ()), .retaining cutoff [ip, other] [other], .guard ip]⟩
      ⟨s₅, [.returned (.ok ()), .returned (.ok ()), .retaining cutoff [ip, other] [other],
        .guard ip]⟩ := .step (l := []) .drop
  have h₄ : Pool.Step Call.Starts Call.Step
      ⟨s₅, [.returned (.ok ()), .returned (.ok ()), .retaining cutoff [ip, other] [other],
        .guard ip]⟩
      ⟨s₅, [.returned (.ok ()), .returned (.ok ()), .retaining cutoff [ip, other] [ip, other],
        .guard ip]⟩ := .step (l := [_, _]) (.keep (by decide) rfl rfl)
  have hevict := (((ReflTransGen.single h₁).tail h₂).tail h₃).tail h₄
  -- the sweep ends, and a third guard is under way
  have hend : ReflTransGen (Pool.Step Call.Starts Call.Step)
      ⟨s₅, [.returned (.ok ()), .returned (.ok ()), .retaining cutoff [ip, other] [ip, other],
        .guard ip]⟩
      ⟨s₅, [.returned (.ok ()), .returned (.ok ()), .returned (.ok ()), .guard ip,
        .entry .connection ip]⟩ :=
    ((ReflTransGen.single (.step (l := [_, _]) (.swept (by decide)))).tail
      (.start (Or.inl ⟨.connection, ip, rfl⟩))).tail
      (.step (l := [_, _, _, _]) (.tracked (by decide)))
  have hrun := (((hguard.trans hrequest).trans hsweep).trans hevict).trans hend
  obtain ⟨hcount, hlive⟩ := guards_counted hrun ip
  obtain ⟨client, hclient, -⟩ := hlive Nat.one_pos
  exact ⟨_, hrun, rfl, rfl, rfl, client, hclient, (hcount client hclient).1⟩

end Runs

end PJS.WebSocketRateLimiter
