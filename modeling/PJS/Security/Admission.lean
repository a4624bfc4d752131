import PJS.Security.Access

/-! The bound on the table of clients. The length is tested in one step and the client inserted in
a later one, so that calls between the two steps may fill the table beyond its bound. -/
namespace PJS.WebSocketRateLimiter

open Relation

variable {s s' : WebSocketRateLimiter} {c c' : Call} {config : RateLimitConfig} {p q : Calls}

/-- The address whose client a call is about to insert, if it is not there yet. -/
def Call.admitted : Call → Option IpAddr
  | .entry _ ip => some ip
  | _ => none

namespace Calls

/-- Concurrent `check_request` and `check_connection` calls. -/
def CheckStep : Calls → Calls → Prop := Pool.Step Call.Checks Call.Step

/-- The tracked clients, and those that calls let through are about to insert. -/
def committed (p : Calls) : Finset IpAddr :=
  p.shared.clients.keys.toFinset ∪ (p.calls.filterMap Call.admitted).toFinset

/-- A further client is let through only while the committed clients are below the bound. -/
def HasRoom (p q : Calls) : Prop :=
  ∀ ip ∈ q.committed, ip ∉ p.committed → p.committed.card < maxTrackedClients

def RoomyStep (p q : Calls) : Prop := p.CheckStep q ∧ p.HasRoom q

end Calls

section Effects

theorem mem_committed {ip : IpAddr} : ip ∈ p.committed ↔
    ip ∈ p.shared.clients.keys ∨ ∃ c ∈ p.calls, c.admitted = some ip := by
  rw [Calls.committed, Finset.mem_union, List.mem_toFinset, List.mem_toFinset, List.mem_filterMap]

theorem mem_keys_insert (clients : AssocMap IpAddr ClientRateLimit) (ip j : IpAddr)
    (client : ClientRateLimit) : j ∈ (clients.insert ip client).keys ↔ j = ip ∨ j ∈ clients.keys := by
  rw [AssocMap.mem_keys_iff, AssocMap.mem_keys_iff, AssocMap.get?_insert]
  split_ifs with hj
  · simp [hj]
  · simp [hj]

theorem mem_keys_checkMessage (s : WebSocketRateLimiter) (ip : IpAddr) (frameSize now : ℕ)
    {j : IpAddr} (h : j ∈ (s.checkMessage ip frameSize now).2.clients.keys) : j ∈ s.clients.keys := by
  rcases checkMessage_snd s ip frameSize now with hs | ⟨client, hclient, hs⟩
  · rwa [hs] at h
  · rw [hs, mem_keys_insert] at h
    rcases h with rfl | h
    · exact AssocMap.mem_keys_iff.mpr ⟨client, hclient⟩
    · exact h

theorem mem_keys_closeConnection (s : WebSocketRateLimiter) (ip : IpAddr) {j : IpAddr}
    (h : j ∈ (s.closeConnection ip).clients.keys) : j ∈ s.clients.keys := by
  obtain ⟨client, hclient⟩ := AssocMap.mem_keys_iff.mp h
  change (s.clients.modify ip _).get? j = some client at hclient
  rw [AssocMap.get?_modify] at hclient
  refine AssocMap.mem_keys_iff.mpr ?_
  split_ifs at hclient
  · obtain ⟨client', hclient', -⟩ := Option.map_eq_some_iff.mp hclient
    exact ⟨client', hclient'⟩
  · exact ⟨client, hclient⟩

/-- A client gets into the table from a call that was let through. -/
theorem Call.Step.mem_keys (h : Call.Step s c s' c') {j : IpAddr} (hj : j ∈ s'.clients.keys) :
    j ∈ s.clients.keys ∨ c.admitted = some j := by
  cases h with
  | request | connect | refuse =>
    rcases (mem_keys_insert s.clients _ j _).mp hj with rfl | hj
    · exact Or.inr rfl
    · exact Or.inl hj
  | guardMessage | message => exact Or.inl (mem_keys_checkMessage _ _ _ _ hj)
  | drop => exact Or.inl (mem_keys_closeConnection _ _ hj)
  | evict =>
    rw [AssocMap.keys_erase] at hj
    exact Or.inl (List.mem_of_mem_filter hj)
  | tracked | untracked | full | room | skip | sweep | keep | swept => exact Or.inl hj

/-- A call that begins commits no client. -/
theorem mem_committed_of_start {calls : List Call} (hc : c.Checks) {j : IpAddr}
    (hj : j ∈ Calls.committed ⟨s, calls ++ [c]⟩) : j ∈ Calls.committed ⟨s, calls⟩ := by
  obtain ⟨kind, ip, rfl⟩ := hc
  rw [mem_committed] at hj ⊢
  refine hj.imp_right ?_
  rintro ⟨c, hc, hj⟩
  rcases List.mem_append.mp hc with hc | hc
  · exact ⟨c, hc, hj⟩
  · rw [List.mem_singleton.mp hc] at hj
    cases hj

/-- Whatever is committed after a step and was not before is what the call is let through for. -/
theorem mem_committed_of_step {l r : List Call} (h : Call.Step s c s' c') {j : IpAddr}
    (hj : j ∈ Calls.committed ⟨s', l ++ c' :: r⟩) :
    j ∈ Calls.committed ⟨s, l ++ c :: r⟩ ∨ c'.admitted = some j := by
  rw [mem_committed] at hj ⊢
  rcases hj with hj | ⟨d, hd, hj⟩
  · refine Or.inl ((h.mem_keys hj).imp_right fun hj => ⟨c, by simp, hj⟩)
  · rcases List.mem_append.mp hd with hd | hd
    · exact Or.inl (Or.inr ⟨d, List.mem_append_left _ hd, hj⟩)
    · rcases List.mem_cons.mp hd with rfl | hd
      · exact Or.inr hj
      · exact Or.inl (Or.inr ⟨d, List.mem_append_right _ (List.mem_cons_of_mem _ hd), hj⟩)

/-- One step commits at most one further client. -/
theorem committed_step (h : p.CheckStep q) : q.committed ⊆ p.committed ∨
    ∃ ip, q.committed ⊆ insert ip p.committed := by
  cases h with
  | start h => exact Or.inl fun j hj => mem_committed_of_start h hj
  | @step s s' l r c c' h =>
    cases hadmitted : c'.admitted with
    | none =>
      refine Or.inl fun j hj => (mem_committed_of_step h hj).resolve_right fun hj => ?_
      rw [hadmitted] at hj
      cases hj
    | some ip =>
      refine Or.inr ⟨ip, fun j hj => ?_⟩
      rcases mem_committed_of_step h hj with hj | hj
      · exact Finset.mem_insert_of_mem hj
      · rw [hadmitted] at hj
        cases hj
        exact Finset.mem_insert_self ip _

theorem card_committed_step (h : p.CheckStep q) (hroom : p.HasRoom q)
    (hp : p.committed.card ≤ maxTrackedClients) : q.committed.card ≤ maxTrackedClients := by
  by_cases hsub : q.committed ⊆ p.committed
  · exact (Finset.card_le_card hsub).trans hp
  · obtain ⟨ip, hq, hnot⟩ := Finset.not_subset.mp hsub
    obtain ⟨j, hj⟩ := (committed_step h).resolve_left hsub
    have hlt := hroom ip hq hnot
    exact (Finset.card_le_card hj).trans ((Finset.card_insert_le j _).trans hlt)

theorem size_le_card_committed (p : Calls) : p.shared.clients.size ≤ p.committed.card := by
  have hkeys : p.shared.clients.keys.toFinset.card = p.shared.clients.size :=
    (List.toFinset_card_of_nodup p.shared.clients.nodup).trans (List.length_map _)
  rw [← hkeys]
  exact Finset.card_le_card Finset.subset_union_left

end Effects

section Runs

/-- A call that was let through inserts its client. -/
theorem exists_insert {c : Call} {ip : IpAddr} (s : WebSocketRateLimiter)
    (hc : c.admitted = some ip) : ∃ s' c', Call.Step s c s' c' ∧ c'.admitted = none ∧
      ∀ j, j = ip ∨ j ∈ s.clients.keys → j ∈ s'.clients.keys := by
  have hkeys : ∀ (check : ClientRateLimit → Except RateLimitError Unit × ClientRateLimit) j,
      j = ip ∨ j ∈ s.clients.keys → j ∈ (s.withEntry ip 0 check).2.clients.keys :=
    fun check j => (mem_keys_insert s.clients ip j _).mpr
  match c, hc with
  | .entry .request _, rfl => exact ⟨_, .returned (s.requestEntry ip 0 0).1, .request, rfl, hkeys _⟩
  | .entry .connection _, rfl =>
    cases hresult : (s.connectionEntry ip 0).1 with
    | ok => exact ⟨_, _, .connect hresult, rfl, hkeys _⟩
    | error error => exact ⟨_, _, .refuse hresult, rfl, hkeys _⟩

/-- With more committed clients than the bound, the calls under way can fill the table past it. -/
theorem exceeds_of_committed (h : maxTrackedClients < p.committed.card) :
    ∃ q, ReflTransGen Calls.CheckStep p q ∧ maxTrackedClients < q.shared.clients.size := by
  induction hn : (p.calls.filterMap Call.admitted).length generalizing p with
  | zero =>
    refine ⟨p, .refl, h.trans_le ?_⟩
    rw [Calls.committed, List.length_eq_zero_iff.mp hn, List.toFinset_nil, Finset.union_empty]
    exact (List.toFinset_card_le _).trans (List.length_map _).le
  | succ n ih =>
    obtain ⟨ip, hip⟩ := List.exists_mem_of_length_pos (hn.ge.trans_lt' (Nat.succ_pos n))
    obtain ⟨c, hc, hadmitted⟩ := List.mem_filterMap.mp hip
    obtain ⟨l, r, hcalls⟩ := List.append_of_mem hc
    obtain ⟨s, calls⟩ := p
    subst hcalls
    obtain ⟨s', c', hstep, hdone, hkeys⟩ := exists_insert s hadmitted
    -- the client moves from the calls to the table
    have hsub : Calls.committed ⟨s, l ++ c :: r⟩ ⊆ Calls.committed ⟨s', l ++ c' :: r⟩ := by
      intro j hj
      rw [mem_committed] at hj ⊢
      rcases hj with hj | ⟨d, hd, hj⟩
      · exact Or.inl (hkeys j (Or.inr hj))
      · rcases List.mem_append.mp hd with hd | hd
        · exact Or.inr ⟨d, List.mem_append_left _ hd, hj⟩
        · rcases List.mem_cons.mp hd with rfl | hd
          · exact Or.inl (hkeys j (Or.inl (Option.some.inj (hj.symm.trans hadmitted))))
          · exact Or.inr ⟨d, List.mem_append_right _ (List.mem_cons_of_mem _ hd), hj⟩
    obtain ⟨q, hrun, hq⟩ := ih (p := ⟨s', l ++ c' :: r⟩) (h.trans_le (Finset.card_le_card hsub)) (by
      simp only [List.filterMap_append, List.filterMap_cons, hadmitted, hdone,
        List.length_append, List.length_cons] at hn ⊢
      omega)
    exact ⟨q, .head (.step hstep) hrun, hq⟩

end Runs

section Burst

/-- Distinct addresses. -/
def address (n : ℕ) : IpAddr :=
  .v6 0 0 0 0 0 0 (UInt16.ofNat (n / 65536)) (UInt16.ofNat (n % 65536))

theorem address_inj {m n : ℕ} (hm : m < 65536 * 65536) (hn : n < 65536 * 65536)
    (h : address m = address n) : m = n := by
  simp only [address, IpAddr.v6.injEq, true_and] at h
  have hhigh := congrArg UInt16.toNat h.1
  have hlow := congrArg UInt16.toNat h.2
  simp only [UInt16.toNat_ofNat'] at hhigh hlow
  omega

theorem keys_requestEntry {ip : IpAddr} (h : ip ∉ s.clients.keys) :
    (s.requestEntry ip 0 0).2.clients.keys = s.clients.keys ++ [ip] := by
  change (s.clients.insert ip _).keys = _
  rw [AssocMap.keys, AssocMap.entries_insert_of_notMem h, List.map_append]
  rfl

/-- A new client is let through when the table has room. -/
theorem reaches_entry {ip : IpAddr} (h : ip ∉ p.shared.clients.keys)
    (hsize : p.shared.clients.size < maxTrackedClients) :
    ReflTransGen Calls.CheckStep p ⟨p.shared, p.calls ++ [.entry .request ip]⟩ := by
  have h₁ : Calls.CheckStep p ⟨p.shared, p.calls ++ [.containsKey .request ip]⟩ :=
    .start ⟨_, _, rfl⟩
  have h₂ : Calls.CheckStep _ ⟨p.shared, p.calls ++ [.len .request ip]⟩ := .step (.untracked h)
  have h₃ : Calls.CheckStep _ ⟨p.shared, p.calls ++ [.entry .request ip]⟩ := .step (.room hsize)
  exact ((ReflTransGen.single h₁).tail h₂).tail h₃

theorem size_eq {n : ℕ} (h : s.clients.keys = (List.range n).map address) :
    s.clients.size = n := by
  have hlength : s.clients.keys.length = n := by
    rw [h, List.length_map, List.length_range]
  exact (List.length_map _).symm.trans hlength

theorem address_notMem {m n : ℕ} (h : s.clients.keys = (List.range n).map address)
    (hle : n ≤ m) (hm : m ≤ maxTrackedClients) : address m ∉ s.clients.keys := by
  intro hmem
  rw [h] at hmem
  obtain ⟨k, hk, heq⟩ := List.mem_map.mp hmem
  have hlt := List.mem_range.mp hk
  have hbound : maxTrackedClients < 65536 * 65536 := by decide
  have hkm := address_inj (by omega) (by omega) heq
  omega

theorem keys_insert_address {n : ℕ} (h : s.clients.keys = (List.range n).map address)
    (hn : n ≤ maxTrackedClients) :
    (s.requestEntry (address n) 0 0).2.clients.keys = (List.range (n + 1)).map address := by
  rw [keys_requestEntry (address_notMem h le_rfl hn), h, List.range_succ, List.map_append]
  rfl

/-- The tracked addresses, when every call has ended. -/
def Tracks (p : Calls) (n : ℕ) : Prop :=
  p.shared.clients.keys = (List.range n).map address ∧ p.calls.filterMap Call.admitted = []

theorem roomy_start {calls : List Call} (hc : c.Checks) :
    Calls.RoomyStep ⟨s, calls⟩ ⟨s, calls ++ [c]⟩ :=
  ⟨.start hc, fun _ hq hp => absurd (mem_committed_of_start hc hq) hp⟩

/-- A step that lets no client through needs no room. -/
theorem roomy_step {l r : List Call} (h : Call.Step s c s' c') (hc : c'.admitted = none) :
    Calls.RoomyStep ⟨s, l ++ c :: r⟩ ⟨s', l ++ c' :: r⟩ := by
  refine ⟨.step h, fun ip hq hp => absurd hq fun hq => ?_⟩
  rcases mem_committed_of_step h hq with hq | hq
  · exact hp hq
  · rw [hc] at hq
    cases hq

/-- There is room while the clients and those about to be inserted stay below the bound. -/
theorem hasRoom_of_lt
    (h : p.shared.clients.size + (p.calls.filterMap Call.admitted).length < maxTrackedClients) :
    p.HasRoom q := by
  intro _ _ _
  refine (Finset.card_union_le _ _).trans_lt (lt_of_le_of_lt (Nat.add_le_add ?_ ?_) h)
  · exact (List.toFinset_card_le _).trans (List.length_map _).le
  · exact List.toFinset_card_le _

/-- A new client is let through, with room for all that are under way. -/
theorem reaches_roomy_entry {ip : IpAddr} (h : ip ∉ p.shared.clients.keys)
    (hroom : p.shared.clients.size + (p.calls.filterMap Call.admitted).length < maxTrackedClients) :
    ReflTransGen Calls.RoomyStep p ⟨p.shared, p.calls ++ [.entry .request ip]⟩ := by
  have h₁ : Calls.RoomyStep p ⟨p.shared, p.calls ++ [.containsKey .request ip]⟩ :=
    roomy_start ⟨_, _, rfl⟩
  have h₂ : Calls.RoomyStep _ ⟨p.shared, p.calls ++ [.len .request ip]⟩ :=
    roomy_step (.untracked h) rfl
  have h₃ : Calls.RoomyStep _ ⟨p.shared, p.calls ++ [.entry .request ip]⟩ :=
    ⟨.step (.room (by omega)), hasRoom_of_lt (by
      rw [List.filterMap_append, List.filterMap_cons_none rfl, List.filterMap_nil, List.append_nil]
      exact hroom)⟩
  exact ((ReflTransGen.single h₁).tail h₂).tail h₃

/-- The first `n` addresses get tracked. -/
theorem exists_tracked (config : RateLimitConfig) {n : ℕ} (hn : n ≤ maxTrackedClients) :
    ∃ p : Calls, ReflTransGen Calls.RoomyStep (Calls.new config) p ∧ Tracks p n := by
  induction n with
  | zero => exact ⟨_, .refl, rfl, rfl⟩
  | succ n ih =>
    obtain ⟨p, hrun, hkeys, hcalls⟩ := ih (by omega)
    have hnew := address_notMem hkeys le_rfl (by omega)
    have hentry := reaches_roomy_entry hnew (by rw [size_eq hkeys, hcalls]; exact hn)
    have hinsert : Calls.RoomyStep _ ⟨(p.shared.requestEntry (address n) 0 0).2,
        p.calls ++ [.returned (p.shared.requestEntry (address n) 0 0).1]⟩ :=
      roomy_step .request rfl
    refine ⟨_, (hrun.trans hentry).tail hinsert, ?_, ?_⟩
    · exact keys_insert_address hkeys (by omega)
    · rw [List.filterMap_append, hcalls]
      rfl

/-- As long as every client is let through while the tracked clients and those about to be
inserted are below the bound, the table stays within it. -/
theorem size_le_of_hasRoom
    (h : ReflTransGen (fun p q => Calls.CheckStep p q ∧ p.HasRoom q) (Calls.new config) p) :
    p.shared.clients.size ≤ maxTrackedClients := by
  refine (size_le_card_committed p).trans ?_
  induction h with
  | refl => exact Nat.zero_le _
  | tail _ hstep ih => exact card_committed_step hstep.1 hstep.2 ih

/-- Two calls are let through before either inserts its client, and fill the table; a third one is
refused. -/
theorem size_le_of_hasRoom_full : ∃ p : Calls,
    ReflTransGen (fun p q => Calls.CheckStep p q ∧ p.HasRoom q) (Calls.new {}) p ∧
      p.shared.clients.keys = (List.range maxTrackedClients).map address ∧
      p.calls.getLast? = some (.returned (.error (.capacityExceeded maxTrackedClients))) ∧
      p.shared.clients.size ≤ maxTrackedClients := by
  obtain ⟨p, hrun, hkeys, hcalls⟩ := exists_tracked {} (show 99998 ≤ maxTrackedClients by decide)
  have hnew : ∀ n, 99998 ≤ n → n ≤ maxTrackedClients → address n ∉ p.shared.clients.keys :=
    fun n => address_notMem hkeys
  have hfirst := reaches_roomy_entry (hnew 99998 le_rfl (by decide))
    (by rw [size_eq hkeys, hcalls]; decide)
  have hsecond := @reaches_roomy_entry ⟨p.shared, p.calls ++ [.entry .request (address 99998)]⟩
    (address 99999) (hnew 99999 (by decide) (by decide))
    (by rw [List.filterMap_append, hcalls, size_eq hkeys]; decide)
  set first : Call := .entry .request (address 99998)
  set second : Call := .entry .request (address 99999)
  set s₁ := (p.shared.requestEntry (address 99998) 0 0).2
  set s₂ := (s₁.requestEntry (address 99999) 0 0).2
  set inserted : Call := .returned (p.shared.requestEntry (address 99998) 0 0).1
  set ended : List Call :=
    p.calls ++ [inserted] ++ [.returned (s₁.requestEntry (address 99999) 0 0).1]
  have hkeys₁ := keys_insert_address hkeys (by decide)
  have hkeys₂ := keys_insert_address hkeys₁ (by decide)
  -- both insert, and the third call finds the table full
  have h₁ : Calls.RoomyStep ⟨p.shared, p.calls ++ [first] ++ [second]⟩
      ⟨s₁, p.calls ++ inserted :: [second]⟩ := by
    rw [List.append_assoc]
    exact roomy_step .request rfl
  have h₂ : Calls.RoomyStep ⟨s₁, p.calls ++ inserted :: [second]⟩ ⟨s₂, ended⟩ := by
    rw [List.append_cons]
    exact roomy_step .request rfl
  have h₃ : Calls.RoomyStep ⟨s₂, ended⟩
      ⟨s₂, ended ++ [.containsKey .request (address 100000)]⟩ := roomy_start ⟨_, _, rfl⟩
  have h₄ : Calls.RoomyStep ⟨s₂, ended ++ [.containsKey .request (address 100000)]⟩
      ⟨s₂, ended ++ [.len .request (address 100000)]⟩ :=
    roomy_step (.untracked (address_notMem hkeys₂ le_rfl le_rfl)) rfl
  have h₅ : Calls.RoomyStep ⟨s₂, ended ++ [.len .request (address 100000)]⟩
      ⟨s₂, ended ++ [.returned (.error (.capacityExceeded maxTrackedClients))]⟩ :=
    roomy_step (.full (size_eq hkeys₂).ge) rfl
  have hend := (((((hrun.trans hfirst).trans hsecond).tail h₁).tail h₂).tail h₃).tail h₄ |>.tail h₅
  exact ⟨_, hend, hkeys₂, List.getLast?_concat, size_le_of_hasRoom hend⟩

/-- Two calls test the length while one place is free, and both insert their clients. -/
theorem table_overfull : ∃ p : Calls, ReflTransGen Calls.CheckStep (Calls.new {}) p ∧
    maxTrackedClients < p.shared.clients.size := by
  obtain ⟨p, hroomy, hkeys, -⟩ := exists_tracked {} (show 99999 ≤ maxTrackedClients by decide)
  have hrun : ReflTransGen Calls.CheckStep (Calls.new {}) p :=
    ReflTransGen.mono (fun _ _ h => h.1) _ _ hroomy
  have hsize : p.shared.clients.size < maxTrackedClients := by
    rw [size_eq hkeys]
    decide
  have hfirst := reaches_entry (address_notMem hkeys le_rfl (by decide)) hsize
  have hsecond := reaches_entry (p := ⟨p.shared, p.calls ++ [.entry .request (address 99999)]⟩)
    (address_notMem (m := 100000) hkeys (by decide) (by decide)) hsize
  set q : Calls := ⟨p.shared, p.calls ++ [.entry .request (address 99999)] ++
    [.entry .request (address 100000)]⟩ with hq
  have hsub : ((List.range 100001).map address).toFinset ⊆ q.committed := by
    intro j hj
    obtain ⟨n, hn, rfl⟩ := List.mem_map.mp (List.mem_toFinset.mp hj)
    have hlt := List.mem_range.mp hn
    rw [mem_committed, hq]
    rcases Nat.lt_trichotomy n 99999 with hlow | rfl | hhigh
    · refine Or.inl ?_
      change address n ∈ p.shared.clients.keys
      rw [hkeys]
      exact List.mem_map_of_mem (List.mem_range.mpr hlow)
    · exact Or.inr ⟨.entry .request (address 99999), by simp, rfl⟩
    · obtain rfl : n = 100000 := by omega
      exact Or.inr ⟨.entry .request (address 100000), by simp, rfl⟩
  have hnodup : ((List.range 100001).map address).Nodup :=
    List.nodup_range.map_on fun m hm n hn h =>
      address_inj (by have := List.mem_range.mp hm; omega) (by have := List.mem_range.mp hn; omega) h
  have hcard : maxTrackedClients < q.committed.card := by
    refine lt_of_lt_of_le ?_ (Finset.card_le_card hsub)
    rw [List.toFinset_card_of_nodup hnodup, List.length_map, List.length_range]
    decide
  obtain ⟨r, hr, hexceeds⟩ := exceeds_of_committed hcard
  exact ⟨r, ((hrun.trans hfirst).trans hsecond).trans hr, hexceeds⟩

end Burst

end PJS.WebSocketRateLimiter
