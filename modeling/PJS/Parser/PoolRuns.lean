import PJS.Lib.Trace
import PJS.Parser.BufferPool

/-! Runs of the buffer pool: any calls of the pool, drops of checked-out buffers and changes to
them, in any order. -/
namespace PJS

open AlignedBuffer

/-- The pool, and the buffers that are checked out of it. -/
structure PoolState where
  pool : BufferPool
  held : List PooledBuffer

/-- A call of the pool, the drop of a checked-out buffer, or a change to it. Checked-out buffers are
numbered as they stand in the list. -/
inductive PoolOp where
  | acquire (size : BufferSize)
  | acquireWithCapacity (minCapacity : ℕ)
  | cleanup
  | drop (i : ℕ)
  | reserve (i additional : ℕ)
  | extendFromSlice (i : ℕ) (data : List UInt8)
  | clear (i : ℕ)

/-- An operation at an instant, and what the allocator answers at that instant. -/
structure PoolCall where
  op : PoolOp
  allocator : Allocator
  now : ℕ

namespace PoolState

def empty : PoolState := ⟨.empty, []⟩

/-- A buffer that was acquired is checked out. -/
def checkOut (s : PoolState) (result : Except BufferFault PooledBuffer × BufferPool) : PoolState :=
  match result.1 with
  | .ok pooled => ⟨result.2, s.held ++ [pooled]⟩
  | .error _ => { s with pool := result.2 }

/-- Runs on the checked-out buffer with the number, if there is one. -/
def edit (s : PoolState) (i : ℕ) (run : BufferM Unit) : PoolState :=
  { s with held := s.held.modify i fun pooled =>
    { pooled with buffer := (Check.exec run pooled.buffer).2 } }

/-- The state after a call. -/
def step (config : PoolConfig) (s : PoolState) (call : PoolCall) : PoolState :=
  match call.op with
  | .acquire size => s.checkOut (s.pool.acquire config call.allocator call.now size)
  | .acquireWithCapacity minCapacity =>
    s.checkOut (s.pool.acquireWithCapacity config call.allocator call.now minCapacity)
  | .cleanup => { s with pool := (s.pool.cleanup config call.now).2 }
  | .drop i =>
    match s.held[i]? with
    | some pooled => ⟨s.pool.release call.now pooled, s.held.eraseIdx i⟩
    | none => s
  | .reserve i additional => s.edit i (reserve call.allocator call.now additional)
  | .extendFromSlice i data => s.edit i (extendFromSlice call.allocator call.now data)
  | .clear i => s.edit i (modify (AlignedBuffer.clear call.now))

end PoolState

section Capacities

theorem capacities_append (l l' : List AlignedBuffer) :
    capacities (l ++ l') = capacities l + capacities l' := by
  unfold capacities
  rw [List.map_append, List.sum_append]

theorem capacities_cons (buffer : AlignedBuffer) (l : List AlignedBuffer) :
    capacities (buffer :: l) = buffer.capacity + capacities l := by
  unfold capacities
  rw [List.map_cons, List.sum_cons]

theorem capacities_singleton (buffer : AlignedBuffer) :
    capacities [buffer] = buffer.capacity := by
  simp [capacities]

theorem capacities_filter_le (p : AlignedBuffer → Bool) (l : List AlignedBuffer) :
    capacities (l.filter p) ≤ capacities l :=
  (List.filter_sublist.map AlignedBuffer.capacity).sum_le_sum fun _ _ => Nat.zero_le _

end Capacities

/-- A buffer that may be handed out for its size class. -/
structure Serves (size : BufferSize) (buffer : AlignedBuffer) : Prop where
  valid : buffer.Valid
  le : size.bytes ≤ buffer.capacity

namespace PoolState

/-- Idle buffers are empty, and every buffer serves the class it was acquired for. -/
structure Sound (s : PoolState) : Prop where
  idle : ∀ size, ∀ buffer ∈ s.pool.stock size, Serves size buffer ∧ buffer.len = 0
  held : ∀ pooled ∈ s.held, Serves pooled.size pooled.buffer

/-- The capacities of the idle and of the checked-out buffers together. -/
def total (s : PoolState) : ℕ :=
  s.pool.currentMemoryUsage + capacities (s.held.map PooledBuffer.buffer)

theorem sound_empty : Sound empty where
  idle size buffer h := by cases h
  held pooled h := by cases h

variable {s : PoolState} {config : PoolConfig} {allocator : Allocator} {now : ℕ}
  {size : BufferSize}

theorem checkOut_of_ok {result : Except BufferFault PooledBuffer × BufferPool}
    {pooled : PooledBuffer} (h : result.1 = .ok pooled) :
    s.checkOut result = ⟨result.2, s.held ++ [pooled]⟩ := by
  unfold checkOut
  rw [h]

theorem checkOut_of_error {result : Except BufferFault PooledBuffer × BufferPool}
    {fault : BufferFault} (h : result.1 = .error fault) :
    s.checkOut result = { s with pool := result.2 } := by
  unfold checkOut
  rw [h]

/-- The capacity that `acquire` takes from the allocator. -/
def acquireDemand (config : PoolConfig) (allocator : Allocator) (pool : BufferPool)
    (size : BufferSize) : ℕ :=
  if pool.Admits config size ∧ pool.stock size = [] then
    (allocator.fresh? size.bytes config.simdAlignment).elim 0 fun r => r.1.size
  else 0

section CheckOut

variable {pool : BufferPool} {pooled : PooledBuffer}

theorem total_mk (pool : BufferPool) (held : List PooledBuffer) :
    total ⟨pool, held⟩ = (pool.pools.total fun bucket => capacities bucket.buffers) +
      capacities (held.map PooledBuffer.buffer) := rfl

theorem total_concat (pool : BufferPool) (held : List PooledBuffer) (pooled : PooledBuffer) :
    total ⟨pool, held ++ [pooled]⟩ =
      (pool.pools.total fun bucket => capacities bucket.buffers) +
        (capacities (held.map PooledBuffer.buffer) + pooled.buffer.capacity) := by
  rw [total_mk, List.map_append, capacities_append, List.map_singleton, capacities_singleton]

/-- Another buffer is checked out. -/
theorem Sound.concat (hs : s.Sound)
    (hidle : ∀ size, ∀ buffer ∈ pool.stock size, Serves size buffer ∧ buffer.len = 0)
    (hserves : Serves pooled.size pooled.buffer) :
    Sound ⟨pool, s.held ++ [pooled]⟩ where
  idle := hidle
  held p hp := by
    rcases List.mem_append.mp hp with hp | hp
    · exact hs.held p hp
    · rw [List.mem_singleton.mp hp]
      exact hserves

end CheckOut

theorem bytes_le_fresh {layout : Layout} {block : List UInt8} {alignment : ℕ}
    (h : allocator.fresh? size.bytes alignment = some (layout, block)) :
    size.bytes ≤ layout.size := by
  obtain ⟨-, -, hlayout, -⟩ := fresh?_eq_some h
  exact Layout.le_holding (lt_max_of_lt_right (by decide)) hlayout

theorem checkOut_acquire (allocator : Allocator) (now : ℕ) (size : BufferSize) (hs : s.Sound) :
    (s.checkOut (s.pool.acquire config allocator now size)).Sound ∧
      (s.checkOut (s.pool.acquire config allocator now size)).total =
        s.total + acquireDemand config allocator s.pool size := by
  unfold acquireDemand
  cases BufferPool.acquires config allocator now s.pool size with
  | refused h he =>
    rw [he, if_neg fun hdemand => h hdemand.1]
    exact ⟨hs, rfl⟩
  | @reused front buffer h hstock hok hpools =>
    have hne : s.pool.stock size ≠ [] := by simp [hstock]
    obtain ⟨bucket, hbucket, hbuffers⟩ := BufferPool.exists_of_stock hne
    have hserves : ∀ b ∈ front ++ [buffer], Serves size b ∧ b.len = 0 := hstock ▸ hs.idle size
    rw [checkOut_of_ok hok, if_neg fun hdemand => hne hdemand.2]
    constructor
    · refine hs.concat (fun k b hb => ?_) ?_
      · rw [BufferPool.stock_of_insert hpools] at hb
        split_ifs at hb with hk
        · rw [hk]
          exact hserves b (List.mem_append_left _ hb)
        · exact hs.idle k b hb
      · obtain ⟨hbuffer, -⟩ := hserves buffer (by simp)
        exact ⟨{ hbuffer.valid with }, hbuffer.le⟩
    · have htotal := AssocMap.total_insert_of_get? hbucket ⟨front, now⟩
        fun bucket => capacities bucket.buffers
      rw [hbuffers, hstock, capacities_append, capacities_singleton] at htotal
      rw [total_concat, hpools]
      unfold total BufferPool.currentMemoryUsage
      simp only at htotal ⊢
      omega
  | fresh h hstock hfresh hok hpools =>
    rw [checkOut_of_ok hok, if_pos ⟨h, hstock⟩, hfresh]
    constructor
    · refine hs.concat (fun k => ?_) ⟨valid_fresh now hfresh, bytes_le_fresh hfresh⟩
      rw [BufferPool.stock_congr hpools]
      exact hs.idle k
    · rw [total_concat, hpools, ← Nat.add_assoc]
      rfl
  | failed h hstock hfresh he hpools =>
    rw [checkOut_of_error he, if_pos ⟨h, hstock⟩, hfresh]
    refine ⟨⟨fun k => ?_, hs.held⟩, ?_⟩
    · rw [BufferPool.stock_congr hpools]
      exact hs.idle k
    · rw [total_mk, hpools]
      rfl

theorem mem_stock_cleanup {k : BufferSize} {buffer : AlignedBuffer}
    (h : buffer ∈ (s.pool.cleanup config now).2.stock k) : buffer ∈ s.pool.stock k := by
  unfold BufferPool.cleanup BufferPool.stock at h
  simp only [BufferPool.pools_track, AssocMap.get?_retain, AssocMap.get?_mapVal] at h
  unfold BufferPool.stock
  cases hbucket : s.pool.pools.get? k with
  | none =>
    rw [hbucket] at h
    exact h
  | some bucket =>
    rw [hbucket, Option.map_some, Option.filter_some] at h
    split_ifs at h
    · exact List.mem_of_mem_filter h
    · cases h

theorem sound_cleanup (config : PoolConfig) (now : ℕ) (hs : s.Sound) :
    Sound { s with pool := (s.pool.cleanup config now).2 } where
  idle size buffer h := hs.idle size buffer (mem_stock_cleanup h)
  held := hs.held

theorem total_cleanup_le (s : PoolState) (config : PoolConfig) (now : ℕ) :
    total { s with pool := (s.pool.cleanup config now).2 } ≤ s.total := by
  rw [total_mk]
  refine Nat.add_le_add_right ?_ _
  unfold BufferPool.cleanup
  simp only [BufferPool.pools_track]
  refine (AssocMap.total_retain_le _ _ _).trans ?_
  rw [AssocMap.total_mapVal]
  exact AssocMap.total_le_total fun bucket => capacities_filter_le _ bucket.buffers

section Release

variable {i : ℕ} {pooled : PooledBuffer}

/-- A buffer that is dropped joins the idle buffers of its size, or is freed. -/
theorem pools_release (now : ℕ) (pool : BufferPool) (pooled : PooledBuffer) :
    ∃ bucket, (pool.release now pooled).pools = pool.pools.insert pooled.size bucket ∧
      (bucket.buffers = pool.stock pooled.size ++ [pooled.buffer.clear now] ∨
        bucket.buffers = pool.stock pooled.size) := by
  refine ⟨_, rfl, ?_⟩
  have hstock : ((pool.pools.get? pooled.size).getD ⟨[], now⟩).buffers =
      pool.stock pooled.size := by
    unfold BufferPool.stock
    cases pool.pools.get? pooled.size <;> rfl
  split_ifs
  · exact .inl (by rw [hstock])
  · exact .inr hstock

theorem sound_release (now : ℕ) (hs : s.Sound) (hget : s.held[i]? = some pooled) :
    Sound ⟨s.pool.release now pooled, s.held.eraseIdx i⟩ where
  idle size buffer hbuffer := by
    have hpooled := hs.held pooled (List.mem_of_getElem? hget)
    obtain ⟨bucket, hpools, hbuffers⟩ := pools_release now s.pool pooled
    rw [BufferPool.stock_of_insert hpools] at hbuffer
    split_ifs at hbuffer with hk
    · rw [hk]
      rcases hbuffers with hbuffers | hbuffers
      · rw [hbuffers] at hbuffer
        rcases List.mem_append.mp hbuffer with hbuffer | hbuffer
        · exact hs.idle pooled.size buffer hbuffer
        · rw [List.mem_singleton.mp hbuffer]
          exact ⟨⟨hpooled.valid.clear now, hpooled.le⟩, rfl⟩
      · rw [hbuffers] at hbuffer
        exact hs.idle pooled.size buffer hbuffer
    · exact hs.idle size buffer hbuffer
  held p hp := hs.held p (List.mem_of_mem_eraseIdx hp)

theorem capacities_eraseIdx {held : List PooledBuffer} (hget : held[i]? = some pooled) :
    capacities ((held.eraseIdx i).map PooledBuffer.buffer) + pooled.buffer.capacity =
      capacities (held.map PooledBuffer.buffer) := by
  induction held generalizing i with
  | nil => cases hget
  | cons p held ih =>
    cases i with
    | zero =>
      obtain rfl := Option.some.inj hget
      rw [List.eraseIdx_cons_zero, List.map_cons, capacities_cons, Nat.add_comm]
    | succ i =>
      have hrest := ih hget
      rw [List.eraseIdx_cons_succ, List.map_cons, List.map_cons, capacities_cons, capacities_cons]
      omega

theorem total_release_le (now : ℕ) (hget : s.held[i]? = some pooled) :
    total ⟨s.pool.release now pooled, s.held.eraseIdx i⟩ ≤ s.total := by
  obtain ⟨bucket, hpools, hbuffers⟩ := pools_release now s.pool pooled
  have hheld := capacities_eraseIdx hget
  have hbucket : capacities bucket.buffers ≤
      capacities (s.pool.stock pooled.size) + pooled.buffer.capacity := by
    rcases hbuffers with hbuffers | hbuffers
    · rw [hbuffers, capacities_append, capacities_singleton]
      rfl
    · rw [hbuffers]
      exact Nat.le_add_right _ _
  have hpool : ((s.pool.release now pooled).pools.total fun bucket => capacities bucket.buffers) ≤
      s.pool.currentMemoryUsage + pooled.buffer.capacity := by
    unfold BufferPool.currentMemoryUsage
    unfold BufferPool.stock at hbucket
    rw [hpools]
    cases hold : s.pool.pools.get? pooled.size with
    | none =>
      rw [AssocMap.total_insert_of_none hold]
      rw [hold] at hbucket
      exact Nat.add_le_add_left (hbucket.trans_eq (Nat.zero_add _)) _
    | some old =>
      have htotal := AssocMap.total_insert_of_get? hold bucket fun bucket =>
        capacities bucket.buffers
      rw [hold, Option.elim_some] at hbucket
      omega
  rw [total_mk]
  unfold total
  omega

end Release

section Edit

/-- The capacity that a growth of a buffer takes from the allocator. -/
def growDemand (allocator : Allocator) (additional : ℕ) (buffer : AlignedBuffer) : ℕ :=
  if buffer.capacity < buffer.len + additional then
    (buffer.regrown? allocator additional).elim 0 fun r => r.1.size - buffer.capacity
  else 0

variable {size : BufferSize} {buffer : AlignedBuffer}

theorem serves_reserve (allocator : Allocator) (now additional : ℕ) (h : Serves size buffer) :
    Serves size (Check.exec (reserve allocator now additional) buffer).2 ∧
      (Check.exec (reserve allocator now additional) buffer).2.capacity =
        buffer.capacity + growDemand allocator additional buffer := by
  unfold growDemand
  by_cases hfits : buffer.len + additional ≤ buffer.capacity
  · rw [reserve_of_le h.valid hfits, if_neg (not_lt.mpr hfits)]
    exact ⟨h, rfl⟩
  · have hlt := not_le.mp hfits
    rw [if_pos hlt]
    rcases reserve_of_lt allocator now h.valid hlt with
      ⟨e, hnone, he⟩ | ⟨layout, block, hr, hok⟩
    · rw [he, hnone]
      exact ⟨h, rfl⟩
    · have hgrows := (lt_regrow h.valid hlt hr).le
      rw [hok, hr]
      refine ⟨⟨h.valid.regrow now hlt hr, h.le.trans hgrows⟩, ?_⟩
      exact (Nat.add_sub_cancel' hgrows).symm

theorem serves_extendFromSlice (allocator : Allocator) (now : ℕ) (data : List UInt8)
    (h : Serves size buffer) :
    Serves size (Check.exec (extendFromSlice allocator now data) buffer).2 ∧
      (Check.exec (extendFromSlice allocator now data) buffer).2.capacity =
        buffer.capacity + growDemand allocator data.length buffer := by
  unfold growDemand
  by_cases hfits : buffer.len + data.length ≤ buffer.capacity
  · rw [extendFromSlice_of_le h.valid hfits, if_neg (not_lt.mpr hfits)]
    exact ⟨⟨h.valid.append now hfits, h.le⟩, rfl⟩
  · have hlt := not_le.mp hfits
    rw [if_pos hlt]
    rcases extendFromSlice_of_lt allocator now h.valid hlt with
      ⟨e, hnone, he⟩ | ⟨layout, block, hr, hok⟩
    · rw [he, hnone]
      exact ⟨h, rfl⟩
    · have hgrows := (lt_regrow h.valid hlt hr).le
      have hroom : buffer.len + data.length ≤ layout.size :=
        Layout.le_holding h.valid.alignment_pos (regrown?_eq_some hr).1
      rw [hok, hr]
      refine ⟨⟨(h.valid.regrow now hlt hr).append now hroom, h.le.trans hgrows⟩, ?_⟩
      exact (Nat.add_sub_cancel' hgrows).symm

end Edit

section Step

/-- The capacity that a call takes from the allocator. -/
def demand (config : PoolConfig) (s : PoolState) (call : PoolCall) : ℕ :=
  match call.op with
  | .acquire size => acquireDemand config call.allocator s.pool size
  | .acquireWithCapacity minCapacity =>
    acquireDemand config call.allocator s.pool (BufferSize.forCapacity minCapacity)
  | .reserve i additional =>
    (s.held[i]?).elim 0 fun pooled => growDemand call.allocator additional pooled.buffer
  | .extendFromSlice i data =>
    (s.held[i]?).elim 0 fun pooled => growDemand call.allocator data.length pooled.buffer
  | _ => 0

theorem mem_modify {held : List PooledBuffer} {i : ℕ} {f : PooledBuffer → PooledBuffer}
    {pooled : PooledBuffer} (h : pooled ∈ held.modify i f) :
    ∃ p ∈ held, pooled = p ∨ pooled = f p := by
  obtain ⟨j, hj⟩ := List.mem_iff_getElem?.mp h
  rw [List.getElem?_modify, Option.map_eq_map, Option.map_eq_some_iff] at hj
  obtain ⟨p, hp, rfl⟩ := hj
  refine ⟨p, List.mem_of_getElem? hp, ?_⟩
  split_ifs
  · exact .inr rfl
  · exact .inl rfl

theorem capacities_modify {held : List PooledBuffer} {f : PooledBuffer → PooledBuffer}
    {d : AlignedBuffer → ℕ}
    (hf : ∀ p ∈ held, (f p).buffer.capacity = p.buffer.capacity + d p.buffer) (i : ℕ) :
    capacities ((held.modify i f).map PooledBuffer.buffer) =
      capacities (held.map PooledBuffer.buffer) + (held[i]?).elim 0 fun p => d p.buffer := by
  induction held generalizing i with
  | nil => cases i <;> rfl
  | cons p held ih =>
    rw [List.forall_mem_cons] at hf
    cases i with
    | zero =>
      rw [List.modify_zero_cons, List.map_cons, List.map_cons, capacities_cons, capacities_cons,
        hf.1, List.getElem?_cons_zero, Option.elim_some]
      omega
    | succ i =>
      rw [List.modify_succ_cons, List.map_cons, List.map_cons, capacities_cons, capacities_cons,
        ih hf.2 i, List.getElem?_cons_succ]
      omega

/-- What one run does to a checked-out buffer, wherever the buffer stands. -/
theorem edit_accounts (hs : s.Sound) (i : ℕ) (run : BufferM Unit) (d : AlignedBuffer → ℕ)
    (hrun : ∀ size buffer, Serves size buffer → Serves size (Check.exec run buffer).2 ∧
      (Check.exec run buffer).2.capacity = buffer.capacity + d buffer) :
    (s.edit i run).Sound ∧
      (s.edit i run).total = s.total + (s.held[i]?).elim 0 fun pooled => d pooled.buffer := by
  constructor
  · refine ⟨hs.idle, fun pooled hpooled => ?_⟩
    obtain ⟨p, hp, rfl | rfl⟩ := mem_modify hpooled
    · exact hs.held pooled hp
    · exact (hrun p.size p.buffer (hs.held p hp)).1
  · unfold edit
    rw [total_mk, capacities_modify fun p hp => (hrun p.size p.buffer (hs.held p hp)).2,
      ← Nat.add_assoc]
    rfl

/-- A call keeps the pool sound, and adds no more capacity to it than it takes from the
allocator. -/
theorem step_accounts (hs : s.Sound) (call : PoolCall) :
    (s.step config call).Sound ∧ (s.step config call).total ≤ s.total + s.demand config call ∧
      (s.demand config call ≠ 0 →
        (s.step config call).total = s.total + s.demand config call) := by
  obtain ⟨op, allocator, now⟩ := call
  cases op with
  | acquire size =>
    obtain ⟨hsound, htotal⟩ := checkOut_acquire allocator now size hs
    exact ⟨hsound, htotal.le, fun _ => htotal⟩
  | acquireWithCapacity minCapacity =>
    obtain ⟨hsound, htotal⟩ :=
      checkOut_acquire allocator now (BufferSize.forCapacity minCapacity) hs
    exact ⟨hsound, htotal.le, fun _ => htotal⟩
  | cleanup =>
    exact ⟨sound_cleanup config now hs, total_cleanup_le s config now, fun h => absurd rfl h⟩
  | drop i =>
    unfold step
    cases hget : s.held[i]? with
    | none =>
      simp only [hget]
      exact ⟨hs, le_rfl, fun _ => rfl⟩
    | some pooled =>
      simp only [hget]
      exact ⟨sound_release now hs hget, total_release_le now hget, fun h => absurd rfl h⟩
  | reserve i additional =>
    obtain ⟨hsound, htotal⟩ := edit_accounts hs i _ _ fun size buffer =>
      serves_reserve allocator now additional
    exact ⟨hsound, htotal.le, fun _ => htotal⟩
  | extendFromSlice i data =>
    obtain ⟨hsound, htotal⟩ := edit_accounts hs i _ _ fun size buffer =>
      serves_extendFromSlice allocator now data
    exact ⟨hsound, htotal.le, fun _ => htotal⟩
  | clear i =>
    obtain ⟨hsound, htotal⟩ := edit_accounts hs i (modify (AlignedBuffer.clear now)) (fun _ => 0)
      fun size buffer h => ⟨⟨h.valid.clear now, h.le⟩, rfl⟩
    refine ⟨hsound, ?_, fun h => absurd rfl h⟩
    refine htotal.trans_le ?_
    cases s.held[i]? <;> rfl

end Step

end PoolState

/-- An allocator that always has memory, and clears it. -/
def Allocator.zeroed : Allocator where
  alloc layout := some (List.replicate layout.size 0)
  realloc old _ newSize := some (old.take newSize ++ List.replicate (newSize - old.length) 0)
  length_alloc _ h := by
    rw [← Option.some.inj h, List.length_replicate]
  length_realloc _ _ _ h := by
    rw [← Option.some.inj h, List.length_append, List.length_take, List.length_replicate]
    omega
  take_realloc hold _ _ h := by
    rw [← Option.some.inj h, List.take_append_of_le_length, List.take_take]
    · rw [min_eq_left (min_le_right _ _)]
    · rw [List.length_take]
      omega

namespace PoolState

variable {config : PoolConfig}

/-- The state after some calls, from the empty pool on. -/
def run (config : PoolConfig) (calls : List PoolCall) : PoolState := calls.foldl (step config) empty

theorem sound_run (config : PoolConfig) (calls : List PoolCall) : (run config calls).Sound := by
  suffices h : ∀ s : PoolState, s.Sound → (calls.foldl (step config) s).Sound from
    h empty sound_empty
  induction calls with
  | nil => exact fun s hs => hs
  | cons call calls ih => exact fun s hs => ih _ (step_accounts hs call).1

section Memory

/-- The buffers of the pool are within its memory limit. -/
def Within (config : PoolConfig) (s : PoolState) : Prop := s.total ≤ config.maxTotalMemory

instance (s : PoolState) : Decidable (Within config s) := inferInstanceAs (Decidable (_ ≤ _))

/-- What a call takes from the allocator still fits in the memory limit, beside the idle and the
checked-out buffers. -/
def Fits (config : PoolConfig) (s : PoolState) (call : PoolCall) : Prop :=
  s.total + s.demand config call ≤ config.maxTotalMemory

theorem within_step_iff {s : PoolState} (hs : s.Sound) (hw : Within config s) (call : PoolCall) :
    Within config (s.step config call) ↔ Fits config s call := by
  have haccounts : _ ∧ (s.step config call).total ≤ _ ∧ _ := step_accounts hs call
  obtain ⟨-, hle, heq⟩ := haccounts
  unfold Within Fits at *
  by_cases hdemand : s.demand config call = 0
  · omega
  · rw [heq hdemand]

/-- The limit is checked against the idle buffers alone: a run stays within it exactly where every
buffer that is allocated or grown fits beside all the others. -/
theorem within_iff_fits (config : PoolConfig) (calls : List PoolCall) :
    (∀ pre, pre <+: calls → Within config (run config pre)) ↔
      Trace.Guarded (Fits config) (step config) empty calls :=
  (Trace.guarded_iff (I := Sound) (P := Within config)
    (fun _ call hs => (step_accounts hs call).1)
    (fun _ call hs hw => within_step_iff hs hw call) sound_empty (Nat.zero_le _)).symm

/-- The limit of 1 KiB, as for a pool that holds one small buffer. -/
def oneKilobyte : PoolConfig := { PoolConfig.default with maxTotalMemory := 1024 }

/-- Two small buffers that are checked out at once exceed a limit of one. -/
theorem two_acquired :
    ¬∀ (config : PoolConfig) (calls pre : List PoolCall), pre <+: calls →
      Within config (run config pre) := by
  intro h
  have hwithin := h oneKilobyte
    [⟨.acquire .small, .zeroed, 0⟩, ⟨.acquire .small, .zeroed, 0⟩] _ List.prefix_rfl
  exact absurd hwithin (by decide)

end Memory

section Starvation

/-- An idle buffer is handed out only where the limit has room for another one: the check comes
before the reuse, and counts the idle buffers themselves. -/
theorem acquire_idle_iff (config : PoolConfig) (calls : List PoolCall) (size : BufferSize)
    (allocator₀ : Allocator) (now₀ : ℕ) (allocator : Allocator) (now : ℕ)
    (hidle : (run config calls).pool.stock size ≠ [])
    (hempty : ∃ pooled, (BufferPool.empty.acquire config allocator₀ now₀ size).1 = .ok pooled) :
    (∃ pooled, ((run config calls).pool.acquire config allocator now size).1 = .ok pooled) ↔
      (run config calls).pool.currentMemoryUsage + size.bytes ≤ config.maxTotalMemory := by
  have hvalid : size.bytes ≤ config.maxBufferSize :=
    ((BufferPool.acquire_isOk_iff config allocator₀ now₀ .empty size).mp hempty).1.1
  rw [BufferPool.acquire_isOk_iff]
  constructor
  · exact fun h => h.1.2
  · exact fun h => ⟨⟨hvalid, h⟩, .inl hidle⟩

/-- A small buffer is acquired and dropped. -/
def oneReturned : List PoolCall := [⟨.acquire .small, .zeroed, 0⟩, ⟨.drop 0, .zeroed, 0⟩]

theorem acquire_idle_default :
    (∃ pooled, ((run .default oneReturned).pool.acquire .default .zeroed 0 .small).1 =
        .ok pooled) ↔
      (run .default oneReturned).pool.currentMemoryUsage + BufferSize.small.bytes ≤
        PoolConfig.default.maxTotalMemory :=
  acquire_idle_iff .default oneReturned .small .zeroed 0 .zeroed 0 (by decide) ⟨_, rfl⟩

/-- With room for one small buffer, the buffer is handed out once and never again. -/
theorem oneReturned_starves :
    ¬∀ (config : PoolConfig) (calls : List PoolCall) (size : BufferSize)
      (allocator₀ : Allocator) (now₀ : ℕ) (allocator : Allocator) (now : ℕ),
      (run config calls).pool.stock size ≠ [] →
      (∃ pooled, (BufferPool.empty.acquire config allocator₀ now₀ size).1 = .ok pooled) →
      ∃ pooled, ((run config calls).pool.acquire config allocator now size).1 = .ok pooled := by
  intro h
  have hok := h oneKilobyte oneReturned .small .zeroed 0 .zeroed 0 (by decide) ⟨_, rfl⟩
  obtain ⟨hadmits, -⟩ := (BufferPool.acquire_isOk_iff _ _ _ _ _).mp hok
  exact absurd hadmits (by decide)

end Starvation

section Capacity

theorem le_bytes_forCapacity {n : ℕ} (h : n ≤ BufferSize.huge.bytes) :
    n ≤ (BufferSize.forCapacity n).bytes := by
  unfold BufferSize.forCapacity
  split_ifs <;> assumption

theorem forCapacity_of_lt {n : ℕ} (h : BufferSize.huge.bytes < n) :
    BufferSize.forCapacity n = .huge := by
  have hbytes : BufferSize.huge.bytes = 4194304 := rfl
  unfold BufferSize.forCapacity
  rw [if_neg (by omega), if_neg (by omega), if_neg (by omega), if_neg (by omega)]

/-- The sizes are multiples of every alignment, so a new buffer of the largest size has exactly that
capacity. -/
theorem size_of_huge {allocator : Allocator} {alignment : ℕ} {layout : Layout} {block : List UInt8}
    (h : allocator.fresh? BufferSize.huge.bytes alignment = some (layout, block)) :
    layout.size = BufferSize.huge.bytes := by
  obtain ⟨hpow, hle, hlayout, -⟩ := fresh?_eq_some h
  set align := max alignment alignOfUsize
  have hle' : align ≤ 4096 := max_le hle (by decide)
  have hpos : 0 < align := lt_max_of_lt_right (by decide)
  have hdvd : align ∣ BufferSize.huge.bytes := by
    obtain ⟨k, hk⟩ := isPowerOfTwo_max hpow
    rw [show align = 2 ^ k from hk] at hle' ⊢
    have hk' : k ≤ 12 := (Nat.pow_le_pow_iff_right (by decide)).mp hle'
    exact (Nat.pow_dvd_pow 2 hk').trans (by decide)
  rw [(Layout.fromSizeAlign_eq_some_iff.mp hlayout).1, roundUp_of_dvd hpos hdvd,
    max_eq_left (hle'.trans (by decide))]

/-- What a sound pool hands out serves its size, and is empty. -/
theorem serves_acquired {s : PoolState} (hs : s.Sound) {allocator : Allocator} {now : ℕ}
    {size : BufferSize} {pooled : PooledBuffer}
    (h : (s.pool.acquire config allocator now size).1 = .ok pooled) :
    Serves size pooled.buffer ∧ pooled.buffer.len = 0 := by
  rcases BufferPool.acquire_eq_ok h with
    ⟨front, buffer, hstock, hbuffer⟩ | ⟨layout, block, hfresh, -, hbuffer⟩
  · obtain ⟨hserves, hlen⟩ := hs.idle size buffer (by simp [hstock])
    rw [hbuffer]
    exact ⟨⟨{ hserves.valid with }, hserves.le⟩, hlen⟩
  · rw [hbuffer]
    exact ⟨⟨valid_fresh now hfresh, bytes_le_fresh hfresh⟩, rfl⟩

/-- The largest size class is open-ended: above it, a buffer is large enough only if it had grown
before it was returned. -/
theorem acquireWithCapacity_iff (config : PoolConfig) (calls : List PoolCall)
    (allocator : Allocator) (now n : ℕ) :
    (∀ pooled, ((run config calls).pool.acquireWithCapacity config allocator now n).1 =
        .ok pooled → n ≤ pooled.capacity ∧ pooled.buffer.len = 0) ↔
      n ≤ BufferSize.huge.bytes ∨
        ¬ (run config calls).pool.Grants config allocator .huge ∨
        ∃ buffer, ((run config calls).pool.stock .huge).getLast? = some buffer ∧
          n ≤ buffer.capacity := by
  have hsound := sound_run config calls
  unfold BufferPool.acquireWithCapacity PooledBuffer.capacity
  by_cases hn : n ≤ BufferSize.huge.bytes
  · refine iff_of_true (fun pooled hok => ?_) (.inl hn)
    obtain ⟨hserves, hlen⟩ := serves_acquired hsound hok
    exact ⟨(le_bytes_forCapacity hn).trans hserves.le, hlen⟩
  rw [forCapacity_of_lt (not_le.mp hn), or_iff_right hn]
  constructor
  · intro h
    by_cases hgrants : (run config calls).pool.Grants config allocator .huge
    swap
    · exact .inl hgrants
    obtain ⟨pooled, hok⟩ := (BufferPool.acquire_isOk_iff config allocator now _ _).mpr hgrants
    obtain ⟨hle, -⟩ := h pooled hok
    rcases BufferPool.acquire_eq_ok hok with
      ⟨front, buffer, hstock, hbuffer⟩ | ⟨layout, block, hfresh, -, hbuffer⟩
    · rw [hbuffer] at hle
      exact .inr ⟨buffer, by simp [hstock], hle⟩
    · rw [hbuffer] at hle
      exact absurd (hle.trans_eq (size_of_huge hfresh)) hn
  · intro h pooled hok
    have hgrants := (BufferPool.acquire_isOk_iff config allocator now _ _).mp ⟨pooled, hok⟩
    obtain ⟨-, hlen⟩ := serves_acquired hsound hok
    refine ⟨?_, hlen⟩
    rcases h with hrefused | ⟨buffer, hlast, hle⟩
    · exact absurd hgrants hrefused
    · rcases BufferPool.acquire_eq_ok hok with
        ⟨front, buffer', hstock, hbuffer⟩ | ⟨layout, block, -, hstock, -⟩
      · rw [hstock, List.getLast?_concat] at hlast
        obtain rfl := Option.some.inj hlast
        rw [hbuffer]
        exact hle
      · rw [hstock] at hlast
        cases hlast

/-- One byte more than the largest size. -/
theorem acquired_too_small :
    ¬∀ (config : PoolConfig) (calls : List PoolCall) (allocator : Allocator) (now n : ℕ)
      (pooled : PooledBuffer),
      ((run config calls).pool.acquireWithCapacity config allocator now n).1 = .ok pooled →
        n ≤ pooled.capacity ∧ pooled.buffer.len = 0 := by
  intro h
  obtain ⟨hle, -⟩ := h .default [] .zeroed 0 4194305 _ rfl
  exact absurd hle (by decide)

end Capacity

end PoolState

end PJS
