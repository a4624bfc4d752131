import PJS.Lib.Assoc
import PJS.Parser.AlignedBuffer

/-! The buffer pool: buckets of idle buffers by size class, and the buffers that are checked
out. -/
namespace PJS

open AlignedBuffer

/-- Standard buffer sizes for different parsing scenarios. -/
inductive BufferSize where
  | small
  | medium
  | large
  | xLarge
  | huge
deriving DecidableEq

namespace BufferSize

/-- `size as usize` -/
def bytes : BufferSize → ℕ
  | .small => 1024
  | .medium => 8192
  | .large => 65536
  | .xLarge => 524288
  | .huge => 4194304

/-- Get appropriate buffer size for given capacity. -/
def forCapacity (capacity : ℕ) : BufferSize :=
  if capacity ≤ 1024 then .small
  else if capacity ≤ 8192 then .medium
  else if capacity ≤ 65536 then .large
  else if capacity ≤ 524288 then .xLarge
  else .huge

end BufferSize

/-- Configuration for buffer pool behavior. Of the validator the pool reads `maxBufferSize`. -/
structure PoolConfig where
  maxBuffersPerBucket : ℕ
  maxTotalMemory : ℕ
  bufferTtl : ℕ
  trackStats : Bool
  simdAlignment : ℕ
  maxBufferSize : ℕ

def PoolConfig.default : PoolConfig where
  maxBuffersPerBucket := 50
  maxTotalMemory := 512 * 1024 * 1024
  bufferTtl := 300 * 10 ^ 9
  trackStats := true
  simdAlignment := 32
  maxBufferSize := 256 * 1024 * 1024

/-- The check of the security validator, with the text of its error. -/
def validateBufferSize (maxBufferSize size : ℕ) : Except String Unit :=
  if size > maxBufferSize then
    .error s!"Buffer size {size} exceeds maximum allowed {maxBufferSize}"
  else .ok ()

/-- A bucket containing buffers of the same size. -/
structure BufferBucket where
  buffers : List AlignedBuffer
  lastAccess : ℕ

/-- Statistics about buffer pool usage. -/
structure PoolStats where
  totalAllocations : ℕ
  cacheHits : ℕ
  cacheMisses : ℕ
  currentMemoryUsage : ℕ
  peakMemoryUsage : ℕ
  cleanupCount : ℕ

namespace PoolStats

def new : PoolStats := ⟨0, 0, 0, 0, 0, 0⟩

def incrementAllocations (stats : PoolStats) : PoolStats :=
  { stats with totalAllocations := stats.totalAllocations + 1 }

def incrementCacheHits (stats : PoolStats) : PoolStats :=
  { stats with cacheHits := stats.cacheHits + 1 }

def incrementCacheMisses (stats : PoolStats) : PoolStats :=
  { stats with cacheMisses := stats.cacheMisses + 1 }

def incrementCleanupCount (stats : PoolStats) : PoolStats :=
  { stats with cleanupCount := stats.cleanupCount + 1 }

def updateCurrentMemoryUsage (delta : ℤ) (stats : PoolStats) : PoolStats :=
  let current := (max ((stats.currentMemoryUsage : ℤ) + delta) 0).toNat
  { stats with
    currentMemoryUsage := current
    peakMemoryUsage := max stats.peakMemoryUsage current }

end PoolStats

/-- Buffer pool that manages reusable byte buffers for parsing. -/
structure BufferPool where
  pools : AssocMap BufferSize BufferBucket
  stats : PoolStats

/-- RAII wrapper for pooled buffer. The buffer is taken out of it only when it is dropped. -/
structure PooledBuffer where
  buffer : AlignedBuffer
  size : BufferSize
  maxBuffersPerBucket : ℕ

/-- Get buffer capacity. -/
def PooledBuffer.capacity (pooled : PooledBuffer) : ℕ := pooled.buffer.capacity

/-- Result of cleanup operation. -/
structure CleanupStats where
  freedBuffers : ℕ
  freedMemory : ℕ

/-- The capacities of some buffers together. -/
def capacities (buffers : List AlignedBuffer) : ℕ := (buffers.map AlignedBuffer.capacity).sum

namespace BufferPool

def empty : BufferPool := ⟨.empty, .new⟩

/-- Get current memory usage across all pools. The buffers are disjoint parts of memory, so the sum
does not overflow. -/
def currentMemoryUsage (pool : BufferPool) : ℕ :=
  pool.pools.total fun bucket => capacities bucket.buffers

/-- The idle buffers of a size. -/
def stock (pool : BufferPool) (size : BufferSize) : List AlignedBuffer :=
  (pool.pools.get? size).elim [] BufferBucket.buffers

variable (config : PoolConfig) (allocator : Allocator) (now : ℕ)

/-- Changes the statistics if they are tracked. -/
def track (f : PoolStats → PoolStats) (pool : BufferPool) : BufferPool :=
  if config.trackStats then { pool with stats := f pool.stats } else pool

/-- Takes a buffer from an existing bucket. -/
def reuse (pool : BufferPool) (size : BufferSize) : Option (AlignedBuffer × BufferPool) := do
  let bucket ← pool.pools.get? size
  let buffer ← bucket.buffers.getLast?
  let pools := pool.pools.insert size ⟨bucket.buffers.dropLast, now⟩
  return ({ buffer with lastUsed := now }, { pool with pools })

/-- Acquire a buffer of specified size, reusing if available. -/
def acquire (pool : BufferPool) (size : BufferSize) :
    Except BufferFault PooledBuffer × BufferPool :=
  match validateBufferSize config.maxBufferSize size.bytes with
  | .error msg => (.error (.error (.securityViolation msg)), pool)
  | .ok () =>
    let currentUsage := pool.currentMemoryUsage
    if currentUsage + size.bytes > config.maxTotalMemory then
      (.error (.error (.resourceExhausted
        (s!"Adding buffer of size {size.bytes} would exceed memory limit: " ++
          s!"current={currentUsage}, limit={config.maxTotalMemory}"))), pool)
    else
      let pool := pool.track config .incrementAllocations
      match pool.reuse now size with
      | some (buffer, pool) =>
        (.ok ⟨buffer, size, config.maxBuffersPerBucket⟩, pool.track config .incrementCacheHits)
      | none =>
        let pool := pool.track config .incrementCacheMisses
        match AlignedBuffer.new allocator now size.bytes config.simdAlignment with
        | .ok buffer => (.ok ⟨buffer, size, config.maxBuffersPerBucket⟩, pool)
        | .error fault => (.error fault, pool)

/-- Acquire a buffer with at least the specified capacity. -/
def acquireWithCapacity (pool : BufferPool) (minCapacity : ℕ) :
    Except BufferFault PooledBuffer × BufferPool :=
  acquire config allocator now pool (BufferSize.forCapacity minCapacity)

/-- Whether cleanup keeps a buffer. -/
def fresh (buffer : AlignedBuffer) : Bool := !decide (now - buffer.lastUsed > config.bufferTtl)

/-- The bucket without its old buffers. -/
def sweep (bucket : BufferBucket) : BufferBucket :=
  { bucket with buffers := bucket.buffers.filter (fresh config now) }

/-- Perform cleanup of old unused buffers. -/
def cleanup (pool : BufferPool) : CleanupStats × BufferPool :=
  let freed (bucket : BufferBucket) := bucket.buffers.filter fun buffer => !fresh config now buffer
  let freedBuffers := pool.pools.total fun bucket => (freed bucket).length
  let freedMemory := pool.pools.total fun bucket => capacities (freed bucket)
  let pools := (pool.pools.mapVal (sweep config now)).retain fun _ bucket =>
    !(bucket.buffers.isEmpty && decide (now - bucket.lastAccess ≥ config.bufferTtl))
  (⟨freedBuffers, freedMemory⟩,
    ({ pool with pools }.track config .incrementCleanupCount).track config
      (.updateCurrentMemoryUsage (-freedMemory)))

/-- Returns the buffer to the pool when its wrapper is dropped. -/
def release (pool : BufferPool) (pooled : PooledBuffer) : BufferPool :=
  let buffer := pooled.buffer.clear now
  let bucket := (pool.pools.get? pooled.size).getD ⟨[], now⟩
  let bucket := if bucket.buffers.length < pooled.maxBuffersPerBucket then
    ⟨bucket.buffers ++ [buffer], now⟩ else bucket
  { pool with pools := pool.pools.insert pooled.size bucket }

end BufferPool

namespace BufferPool

variable {config : PoolConfig} {allocator : Allocator} {now : ℕ} {pool : BufferPool}
  {size : BufferSize} {buffer : AlignedBuffer} {layout : Layout} {block : List UInt8}

@[simp] theorem pools_track (f : PoolStats → PoolStats) :
    (pool.track config f).pools = pool.pools := by
  unfold track
  split_ifs <;> rfl

/-- The checks that `acquire` makes before it looks for a buffer. -/
def Admits (config : PoolConfig) (pool : BufferPool) (size : BufferSize) : Prop :=
  size.bytes ≤ config.maxBufferSize ∧
    pool.currentMemoryUsage + size.bytes ≤ config.maxTotalMemory

instance : Decidable (Admits config pool size) := inferInstanceAs (Decidable (_ ∧ _))

theorem acquire_refused (allocator : Allocator) (now : ℕ) (h : ¬ Admits config pool size) :
    ∃ e, acquire config allocator now pool size = (.error (.error e), pool) := by
  unfold acquire validateBufferSize
  by_cases hsize : size.bytes ≤ config.maxBufferSize
  · have hlimit : pool.currentMemoryUsage + size.bytes > config.maxTotalMemory :=
      not_le.mp fun hle => h ⟨hsize, hle⟩
    rw [if_neg (not_lt.mpr hsize)]
    exact ⟨_, if_pos hlimit⟩
  · rw [if_pos (not_le.mp hsize)]
    exact ⟨_, rfl⟩

/-- What is left of `acquire` once its checks have passed. -/
theorem acquire_admitted (h : Admits config pool size) :
    acquire config allocator now pool size =
      match (pool.track config .incrementAllocations).reuse now size with
      | some (buffer, pool) =>
        (.ok ⟨buffer, size, config.maxBuffersPerBucket⟩, pool.track config .incrementCacheHits)
      | none =>
        let pool := (pool.track config .incrementAllocations).track config .incrementCacheMisses
        match AlignedBuffer.new allocator now size.bytes config.simdAlignment with
        | .ok buffer => (.ok ⟨buffer, size, config.maxBuffersPerBucket⟩, pool)
        | .error fault => (.error fault, pool) := by
  unfold acquire validateBufferSize
  rw [if_neg (not_lt.mpr h.1)]
  exact if_neg (not_lt.mpr h.2)

theorem exists_of_stock (h : pool.stock size ≠ []) :
    ∃ bucket, pool.pools.get? size = some bucket ∧ bucket.buffers = pool.stock size := by
  unfold stock at h ⊢
  cases hbucket : pool.pools.get? size with
  | none =>
    rw [hbucket] at h
    exact absurd rfl h
  | some bucket => exact ⟨bucket, rfl, rfl⟩

theorem stock_of_insert {pool' : BufferPool} {bucket : BufferBucket}
    (h : pool'.pools = pool.pools.insert size bucket) (k : BufferSize) :
    pool'.stock k = if k = size then bucket.buffers else pool.stock k := by
  unfold stock
  rw [h, AssocMap.get?_insert]
  split_ifs <;> rfl

theorem stock_congr {pool' : BufferPool} (h : pool'.pools = pool.pools) (k : BufferSize) :
    pool'.stock k = pool.stock k := by
  unfold stock
  rw [h]

/-- An idle buffer of the size is handed out: the last of them. -/
theorem acquire_reused (allocator : Allocator) (now : ℕ) (h : Admits config pool size)
    {front : List AlignedBuffer} (hstock : pool.stock size = front ++ [buffer]) :
    (acquire config allocator now pool size).1 =
        .ok ⟨{ buffer with lastUsed := now }, size, config.maxBuffersPerBucket⟩ ∧
      (acquire config allocator now pool size).2.pools = pool.pools.insert size ⟨front, now⟩ := by
  have hne : pool.stock size ≠ [] := by simp [hstock]
  obtain ⟨bucket, hbucket, hbuffers⟩ := exists_of_stock hne
  rw [hstock] at hbuffers
  have hreuse : (pool.track config .incrementAllocations).reuse now size =
      some ({ buffer with lastUsed := now },
        { pool.track config .incrementAllocations with
          pools := pool.pools.insert size ⟨front, now⟩ }) := by
    unfold reuse
    simp [hbucket, hbuffers]
  rw [acquire_admitted h, hreuse]
  exact ⟨rfl, pools_track _⟩

theorem reuse_of_stock (h : pool.stock size = []) (f : PoolStats → PoolStats) :
    (pool.track config f).reuse now size = none := by
  unfold stock at h
  unfold reuse
  rw [pools_track]
  cases hbucket : pool.pools.get? size with
  | none => rfl
  | some bucket =>
    rw [hbucket, Option.elim_some] at h
    simp [h]

theorem acquire_fresh (allocator : Allocator) (now : ℕ) (h : Admits config pool size)
    (hidle : pool.stock size = [])
    (hfresh : allocator.fresh? size.bytes config.simdAlignment = some (layout, block)) :
    (acquire config allocator now pool size).1 =
        .ok ⟨⟨block, 0, layout.size, max config.simdAlignment alignOfUsize, layout, now, now⟩, size,
          config.maxBuffersPerBucket⟩ ∧
      (acquire config allocator now pool size).2.pools = pool.pools := by
  rcases new_eq allocator now size.bytes config.simdAlignment with
    ⟨e, hnone, -⟩ | ⟨layout', block', hsome, hnew⟩
  · rw [hnone] at hfresh
    cases hfresh
  · rw [hfresh] at hsome
    cases hsome
    rw [acquire_admitted h, reuse_of_stock hidle]
    simp only [hnew, pools_track, and_self]

theorem acquire_failed (allocator : Allocator) (now : ℕ) (h : Admits config pool size)
    (hidle : pool.stock size = [])
    (hfresh : allocator.fresh? size.bytes config.simdAlignment = none) :
    ∃ e, (acquire config allocator now pool size).1 = .error (.error e) ∧
      (acquire config allocator now pool size).2.pools = pool.pools := by
  rcases new_eq allocator now size.bytes config.simdAlignment with
    ⟨e, -, hnew⟩ | ⟨layout, block, hsome, -⟩
  · refine ⟨e, ?_⟩
    rw [acquire_admitted h, reuse_of_stock hidle]
    simp only [hnew, pools_track, and_self]
  · rw [hfresh] at hsome
    cases hsome

/-- How `acquire` ends: it is refused, it hands out the last idle buffer of the size or, where there
is none, a new one, or the allocator gives none. -/
inductive Acquires (config : PoolConfig) (allocator : Allocator) (now : ℕ) (pool : BufferPool)
    (size : BufferSize) (result : Except BufferFault PooledBuffer × BufferPool) : Prop
  | refused {e : BufferError} (h : ¬ Admits config pool size)
    (he : result = (.error (.error e), pool))
  | reused {front : List AlignedBuffer} {buffer : AlignedBuffer} (h : Admits config pool size)
    (hstock : pool.stock size = front ++ [buffer])
    (hok : result.1 = .ok ⟨{ buffer with lastUsed := now }, size, config.maxBuffersPerBucket⟩)
    (hpools : result.2.pools = pool.pools.insert size ⟨front, now⟩)
  | fresh {layout : Layout} {block : List UInt8} (h : Admits config pool size)
    (hstock : pool.stock size = [])
    (hfresh : allocator.fresh? size.bytes config.simdAlignment = some (layout, block))
    (hok : result.1 = .ok ⟨⟨block, 0, layout.size, max config.simdAlignment alignOfUsize, layout,
      now, now⟩, size, config.maxBuffersPerBucket⟩)
    (hpools : result.2.pools = pool.pools)
  | failed {e : BufferError} (h : Admits config pool size) (hstock : pool.stock size = [])
    (hfresh : allocator.fresh? size.bytes config.simdAlignment = none)
    (he : result.1 = .error (.error e)) (hpools : result.2.pools = pool.pools)

theorem acquires (config : PoolConfig) (allocator : Allocator) (now : ℕ) (pool : BufferPool)
    (size : BufferSize) :
    Acquires config allocator now pool size (acquire config allocator now pool size) := by
  by_cases h : Admits config pool size
  swap
  · obtain ⟨e, he⟩ := acquire_refused allocator now h
    exact .refused h he
  rcases List.eq_nil_or_concat (pool.stock size) with hstock | ⟨front, buffer, hstock⟩
  swap
  · rw [List.concat_eq_append] at hstock
    obtain ⟨hok, hpools⟩ := acquire_reused allocator now h hstock
    exact .reused h hstock hok hpools
  cases hfresh : allocator.fresh? size.bytes config.simdAlignment with
  | none =>
    obtain ⟨e, he, hpools⟩ := acquire_failed allocator now h hstock hfresh
    exact .failed h hstock hfresh he hpools
  | some r =>
    obtain ⟨hok, hpools⟩ := acquire_fresh allocator now h hstock hfresh
    exact .fresh h hstock hfresh hok hpools

/-- A buffer that is handed out is the last idle one of its size, or a new one. -/
theorem acquire_eq_ok {pooled : PooledBuffer}
    (hok : (acquire config allocator now pool size).1 = .ok pooled) :
    (∃ front buffer, pool.stock size = front ++ [buffer] ∧
      pooled.buffer = { buffer with lastUsed := now }) ∨
    ∃ layout block, allocator.fresh? size.bytes config.simdAlignment = some (layout, block) ∧
      pool.stock size = [] ∧ pooled.buffer =
        ⟨block, 0, layout.size, max config.simdAlignment alignOfUsize, layout, now, now⟩ := by
  cases acquires config allocator now pool size with
  | refused h he => cases (congrArg Prod.fst he).symm.trans hok
  | failed h hstock hfresh he => cases he.symm.trans hok
  | reused h hstock hok' =>
    obtain rfl := Except.ok.inj (hok'.symm.trans hok)
    exact .inl ⟨_, _, hstock, rfl⟩
  | fresh h hstock hfresh hok' =>
    obtain rfl := Except.ok.inj (hok'.symm.trans hok)
    exact .inr ⟨_, _, hfresh, hstock, rfl⟩

/-- Whether a buffer can be handed out: the checks pass, and there is an idle buffer of the size or
the allocator gives a new one. -/
def Grants (config : PoolConfig) (allocator : Allocator) (pool : BufferPool)
    (size : BufferSize) : Prop :=
  Admits config pool size ∧
    (pool.stock size ≠ [] ∨ allocator.fresh? size.bytes config.simdAlignment ≠ none)

theorem acquire_isOk_iff (config : PoolConfig) (allocator : Allocator) (now : ℕ)
    (pool : BufferPool) (size : BufferSize) :
    (∃ pooled, (acquire config allocator now pool size).1 = .ok pooled) ↔
      Grants config allocator pool size := by
  unfold Grants
  cases acquires config allocator now pool size with
  | refused h he =>
    refine iff_of_false ?_ fun hgrants => h hgrants.1
    rintro ⟨pooled, hok⟩
    cases (congrArg Prod.fst he).symm.trans hok
  | reused h hstock hok => exact iff_of_true ⟨_, hok⟩ ⟨h, .inl (by simp [hstock])⟩
  | fresh h hstock hfresh hok => exact iff_of_true ⟨_, hok⟩ ⟨h, .inr (by simp [hfresh])⟩
  | failed h hstock hfresh he =>
    refine iff_of_false ?_ (by simp [hstock, hfresh])
    rintro ⟨pooled, hok⟩
    cases he.symm.trans hok

end BufferPool

end PJS
