import PJS.Lib.Align
import PJS.Lib.Check

/-! Aligned buffers: a block of memory, a length and the arithmetic on `usize` that sizes the
block. -/
namespace PJS

/-- The variants of `DomainError` that buffers raise, with their texts. -/
inductive BufferError where
  | invalidInput (msg : String)
  | resourceExhausted (msg : String)
  | securityViolation (msg : String)
deriving DecidableEq

/-- How a call can fail to return a value: with an error, by arithmetic that overflows, by an access
outside a block, or by a panic. -/
inductive BufferFault where
  | error (e : BufferError)
  | overflow
  | outOfBounds
  | panic (msg : String)
deriving DecidableEq

section Usize

def usizeBits : ℕ := 64

def isizeMax : ℕ := 2 ^ 63 - 1

/-- `mem::align_of::<usize>()` -/
def alignOfUsize : ℕ := 8

/-- `a.checked_add(b)` -/
def checkedAdd (a b : ℕ) : Option ℕ := if a + b < 2 ^ usizeBits then some (a + b) else none

/-- `a + b` -/
def addUsize (a b : ℕ) : Except BufferFault ℕ :=
  if a + b < 2 ^ usizeBits then .ok (a + b) else .error .overflow

/-- `a - b` -/
def subUsize (a b : ℕ) : Except BufferFault ℕ := if b ≤ a then .ok (a - b) else .error .overflow

/-- `o.ok_or_else(|| e)?` -/
def okOr {α : Type} (o : Option α) (e : BufferError) : Except BufferFault α :=
  match o with
  | some a => .ok a
  | none => .error (.error e)

/-- `r.expect(msg)` -/
def AlignedBuffer.expect {α : Type} (r : Except BufferFault α) (msg : String) :
    Except BufferFault α :=
  match r with
  | .ok a => .ok a
  | .error (.error _) => .error (.panic msg)
  | .error fault => .error fault

end Usize

section Memory

/-- Size and alignment of a block. -/
structure Layout where
  size : ℕ
  align : ℕ
  pow : align.isPowerOfTwo
  fits : size ≤ isizeMax - (align - 1)
deriving DecidableEq

/-- `Layout::from_size_align`. The size must not exceed `isize::MAX` when rounded up. -/
def Layout.fromSizeAlign (size align : ℕ) : Option Layout :=
  if h : align.isPowerOfTwo ∧ size ≤ isizeMax - (align - 1) then some ⟨size, align, h.1, h.2⟩
  else none

/-- The text of `LayoutError`. -/
def layoutErrorText : String := "invalid parameters to Layout::from_size_align"

/-- What the global allocator answers at one instant: no block, or a block of the size asked for.
A block is the list of its bytes. A request that breaks the contract may be answered by any
block. -/
structure Allocator where
  alloc : Layout → Option (List UInt8)
  realloc : List UInt8 → Layout → ℕ → Option (List UInt8)
  length_alloc : ∀ {layout block}, 0 < layout.size → alloc layout = some block →
    block.length = layout.size
  length_realloc : ∀ {old layout newSize block}, old.length = layout.size → 0 < newSize →
    newSize ≤ isizeMax - (layout.align - 1) → realloc old layout newSize = some block →
    block.length = newSize
  take_realloc : ∀ {old layout newSize block}, old.length = layout.size → 0 < newSize →
    newSize ≤ isizeMax - (layout.align - 1) → realloc old layout newSize = some block →
    block.take (min layout.size newSize) = old.take (min layout.size newSize)

namespace Allocator

/-- Allocate `size` bytes aligned to `alignment`. -/
def allocAligned (allocator : Allocator) (size alignment : ℕ) :
    Except BufferFault (List UInt8) := do
  if ¬ alignment.isPowerOfTwo then
    throw (.error (.invalidInput s!"Alignment {alignment} is not a power of 2"))
  let layout ← okOr (Layout.fromSizeAlign size alignment)
    (.invalidInput s!"Invalid layout: {layoutErrorText}")
  okOr (allocator.alloc layout)
    (.resourceExhausted s!"Failed to allocate {size} bytes with alignment {alignment}")

/-- Reallocate to `newSize`, preserving the original alignment. -/
def reallocAligned (allocator : Allocator) (block : List UInt8) (oldLayout : Layout)
    (newSize : ℕ) : Except BufferFault (List UInt8) :=
  okOr (allocator.realloc block oldLayout newSize)
    (.resourceExhausted s!"Failed to reallocate to {newSize} bytes")

end Allocator

/-- The first `n` bytes of a block. -/
def readBytes (block : List UInt8) (n : ℕ) : Except BufferFault (List UInt8) :=
  if n ≤ block.length then .ok (block.take n) else .error .outOfBounds

/-- `ptr::copy_nonoverlapping` to the byte at `i` of a block. -/
def copyBytes (data block : List UInt8) (i : ℕ) : Except BufferFault (List UInt8) :=
  if i + data.length ≤ block.length then
    .ok (block.take i ++ data ++ block.drop (i + data.length))
  else .error .outOfBounds

end Memory

/-- SIMD-aligned buffer with metadata. `block` is the memory at `ptr`; instants count in
nanoseconds. -/
structure AlignedBuffer where
  block : List UInt8
  len : ℕ
  capacity : ℕ
  alignment : ℕ
  layout : Layout
  createdAt : ℕ
  lastUsed : ℕ
deriving DecidableEq

abbrev BufferM (α : Type) := Check AlignedBuffer BufferFault α

namespace AlignedBuffer

variable (allocator : Allocator) (now : ℕ)

/-- Create new aligned buffer with guaranteed SIMD alignment. -/
def new (capacity alignment : ℕ) : Except BufferFault AlignedBuffer := do
  if ¬ alignment.isPowerOfTwo then
    throw (.error (.invalidInput s!"Alignment {alignment} is not a power of 2"))
  if alignment > 4096 then
    throw (.error (.invalidInput s!"Alignment {alignment} exceeds maximum of 4096"))
  let alignment := max alignment alignOfUsize
  let mask ← subUsize alignment 1
  let rounded ← okOr (checkedAdd capacity mask)
    (.invalidInput s!"Capacity {capacity} overflows when rounding to alignment {alignment}")
  let alignedCapacity := max (rounded &&& complement usizeBits mask) alignment
  let layout ← okOr (Layout.fromSizeAlign alignedCapacity alignment)
    (.invalidInput (s!"Invalid layout: capacity={alignedCapacity}, alignment={alignment}, " ++
      s!"error={layoutErrorText}"))
  let block ← allocator.allocAligned alignedCapacity alignment
  return ⟨block, 0, alignedCapacity, alignment, layout, now, now⟩

/-- Get immutable slice to buffer data. -/
def asSlice (buffer : AlignedBuffer) : List UInt8 := buffer.block.take buffer.len

/-- Reserve additional capacity. -/
def reserve (additional : ℕ) : BufferM Unit := do
  let self ← get
  let newCapacity ← ofExcept <|
    okOr (checkedAdd self.len additional) (.invalidInput "Capacity overflow")
  if newCapacity ≤ self.capacity then
    return
  let mask ← ofExcept (subUsize self.alignment 1)
  let rounded ← ofExcept <| okOr (checkedAdd newCapacity mask) <|
    .invalidInput s!"Capacity {newCapacity} overflows when rounding to alignment {self.alignment}"
  let alignedCapacity := rounded &&& complement usizeBits mask
  if alignedCapacity = 0 ∨ alignedCapacity > isizeMax then
    throw (.error (.invalidInput
      s!"Aligned capacity {alignedCapacity} is invalid (zero or exceeds isize::MAX)"))
  let newLayout ← ofExcept <| okOr (Layout.fromSizeAlign alignedCapacity self.alignment) <|
    .invalidInput s!"Invalid layout: {layoutErrorText}"
  let newBlock ← ofExcept <| allocator.reallocAligned self.block self.layout alignedCapacity
  set { self with
    block := newBlock, capacity := alignedCapacity, layout := newLayout, lastUsed := now }

/-- Push bytes to the buffer. -/
def extendFromSlice (data : List UInt8) : BufferM Unit := do
  let self ← get
  let requiredCapacity ← ofExcept <|
    okOr (checkedAdd self.len data.length) (.invalidInput "Length overflow")
  if requiredCapacity > self.capacity then
    reserve allocator now data.length
  let self ← get
  let block ← ofExcept (copyBytes data self.block self.len)
  let len ← ofExcept (addUsize self.len data.length)
  set { self with block, len, lastUsed := now }

/-- Clear buffer contents but keep allocated memory. -/
def clear (buffer : AlignedBuffer) : AlignedBuffer := { buffer with len := 0, lastUsed := now }

/-- A new buffer with the same alignment, capacity and data. -/
def clone (buffer : AlignedBuffer) : Except BufferFault AlignedBuffer := do
  let newBuffer ← expect (new allocator now buffer.capacity buffer.alignment)
    "Failed to clone buffer"
  let data ← readBytes buffer.block buffer.len
  let block ← copyBytes data newBuffer.block 0
  return { newBuffer with block, len := buffer.len }

end AlignedBuffer

section Usize

variable {a b : ℕ}

theorem checkedAdd_of_lt (h : a + b < 2 ^ usizeBits) : checkedAdd a b = some (a + b) := if_pos h

theorem checkedAdd_of_le (h : 2 ^ usizeBits ≤ a + b) : checkedAdd a b = none :=
  if_neg (not_lt.mpr h)

theorem addUsize_of_lt (h : a + b < 2 ^ usizeBits) : addUsize a b = .ok (a + b) := if_pos h

theorem subUsize_of_le (h : b ≤ a) : subUsize a b = .ok (a - b) := if_pos h

theorem subUsize_bind {α : Type} (h : b ≤ a) (f : ℕ → Except BufferFault α) :
    (subUsize a b >>= f) = f (a - b) := by
  rw [subUsize_of_le h]
  rfl

theorem okOr_some {α : Type} (a : α) (e : BufferError) : okOr (some a) e = .ok a := rfl

theorem okOr_some_bind {α β : Type} (a : α) (e : BufferError) (f : α → Except BufferFault β) :
    (okOr (some a) e >>= f) = f a := rfl

theorem AlignedBuffer.ok_bind {α β : Type} (a : α) (f : α → Except BufferFault β) :
    (Except.ok a >>= f) = f a := rfl

end Usize

namespace Layout

/-- The layout of a block that holds so many bytes, if there is such a block. -/
def holding? (align n : ℕ) : Option Layout := fromSizeAlign (max (roundUp align n) align) align

variable {align n : ℕ} {layout : Layout}

theorem fromSizeAlign_eq_some_iff {size : ℕ} : fromSizeAlign size align = some layout ↔
    layout.size = size ∧ layout.align = align := by
  unfold fromSizeAlign
  split_ifs with h
  · rw [Option.some.injEq]
    constructor
    · rintro rfl
      exact ⟨rfl, rfl⟩
    · obtain ⟨size', align', hpow, hfits⟩ := layout
      rintro ⟨rfl, rfl⟩
      rfl
  · refine iff_of_false (by simp) ?_
    rintro ⟨rfl, rfl⟩
    exact h ⟨layout.pow, layout.fits⟩

theorem fromSizeAlign_eq_none {size : ℕ} (h : isizeMax - (align - 1) < size) :
    fromSizeAlign size align = none := dif_neg fun hvalid => absurd hvalid.2 (not_le.mpr h)

/-- No block holds bytes whose rounding overflows. -/
theorem holding?_eq_none (halign : 0 < align) (h : isizeMax < n) : holding? align n = none := by
  apply fromSizeAlign_eq_none
  have hle := le_roundUp (n := n) halign
  omega

/-- Where a capacity cannot be rounded in a word, no block holds it. -/
theorem holding?_of_overflow (hpos : 0 < align) (hle : align ≤ 4096)
    (h : 2 ^ usizeBits ≤ n + (align - 1)) : holding? align n = none := by
  have hword : (2 : ℕ) ^ usizeBits = 2 * isizeMax + 2 := by decide
  have hlarge : 4096 ≤ isizeMax := by decide
  exact holding?_eq_none hpos (by omega)

theorem dvd_holding (h : holding? align n = some layout) : align ∣ layout.size := by
  rw [(fromSizeAlign_eq_some_iff.mp h).1]
  rcases le_total (roundUp align n) align with hle | hle
  · rw [max_eq_right hle]
  · rw [max_eq_left hle]
    exact dvd_roundUp

theorem le_holding (hpos : 0 < align) (h : holding? align n = some layout) :
    n ≤ layout.size := by
  rw [(fromSizeAlign_eq_some_iff.mp h).1]
  exact (le_roundUp hpos).trans (le_max_left _ _)

theorem align_le_holding (h : holding? align n = some layout) : align ≤ layout.size := by
  rw [(fromSizeAlign_eq_some_iff.mp h).1]
  exact le_max_right _ _

end Layout

theorem and_complement_mask {align n : ℕ} (hpow : align.isPowerOfTwo) (hle : align ≤ 4096)
    (h : n + (align - 1) < 2 ^ usizeBits) :
    (n + (align - 1)) &&& complement usizeBits (align - 1) = roundUp align n :=
  mask_eq_roundUp hpow (hle.trans (by decide)) h

/-- The size and the alignment that `new` asks for, and the block it is given. -/
def Allocator.fresh? (allocator : Allocator) (capacity alignment : ℕ) :
    Option (Layout × List UInt8) :=
  if alignment.isPowerOfTwo ∧ alignment ≤ 4096 then do
    let layout ← Layout.holding? (max alignment alignOfUsize) capacity
    let block ← allocator.alloc layout
    return (layout, block)
  else none

namespace AlignedBuffer

variable {allocator : Allocator} {now capacity alignment : ℕ}

theorem isPowerOfTwo_max (h : alignment.isPowerOfTwo) :
    (max alignment alignOfUsize).isPowerOfTwo := by
  rcases le_total alignment alignOfUsize with hle | hle
  · rw [max_eq_right hle]
    exact ⟨3, rfl⟩
  · rwa [max_eq_left hle]

theorem allocAligned_eq {size align : ℕ} {layout : Layout}
    (h : Layout.fromSizeAlign size align = some layout) :
    allocator.allocAligned size align = okOr (allocator.alloc layout)
      (.resourceExhausted s!"Failed to allocate {size} bytes with alignment {align}") := by
  have hpow : align.isPowerOfTwo := by
    rw [← (Layout.fromSizeAlign_eq_some_iff.mp h).2]
    exact layout.pow
  unfold Allocator.allocAligned
  rw [if_neg (not_not_intro hpow), h]
  rfl

/-- `new` makes an empty buffer of the block it is given, and fails with an error where it is given
none. -/
theorem new_eq (allocator : Allocator) (now capacity alignment : ℕ) :
    (∃ e, allocator.fresh? capacity alignment = none ∧
      new allocator now capacity alignment = .error (.error e)) ∨
    ∃ layout block, allocator.fresh? capacity alignment = some (layout, block) ∧
      new allocator now capacity alignment =
        .ok ⟨block, 0, layout.size, max alignment alignOfUsize, layout, now, now⟩ := by
  unfold Allocator.fresh? new
  by_cases hpow : alignment.isPowerOfTwo
  swap
  · rw [if_pos hpow, if_neg fun h => hpow h.1]
    exact .inl ⟨_, rfl, rfl⟩
  by_cases hle : alignment ≤ 4096
  swap
  · rw [if_neg (not_not_intro hpow), if_pos (not_le.mp hle), if_neg fun h => hle h.2]
    exact .inl ⟨_, rfl, rfl⟩
  rw [if_neg (not_not_intro hpow), if_neg (not_lt.mpr hle), if_pos ⟨hpow, hle⟩]
  set align := max alignment alignOfUsize
  have hpos : 0 < align := lt_max_of_lt_right (by decide)
  have hle' : align ≤ 4096 := max_le hle (by decide)
  simp only [subUsize_bind hpos]
  by_cases hword : capacity + (align - 1) < 2 ^ usizeBits
  swap
  · rw [Layout.holding?_of_overflow hpos hle' (not_lt.mp hword), checkedAdd_of_le (not_lt.mp hword)]
    exact .inl ⟨_, rfl, rfl⟩
  rw [checkedAdd_of_lt hword, okOr_some_bind,
    and_complement_mask (isPowerOfTwo_max hpow) hle' hword, Layout.holding?]
  cases hlayout : Layout.fromSizeAlign (max (roundUp align capacity) align) align with
  | none => exact .inl ⟨_, rfl, rfl⟩
  | some layout =>
    rw [okOr_some_bind, allocAligned_eq hlayout]
    cases hblock : allocator.alloc layout with
    | none => exact .inl ⟨_, by simp [hblock], rfl⟩
    | some block =>
      obtain ⟨hsize, -⟩ := Layout.fromSizeAlign_eq_some_iff.mp hlayout
      refine .inr ⟨layout, block, by simp [hblock], ?_⟩
      rw [← hsize]
      rfl

/-- What every operation keeps: the length is within the capacity, and the capacity is that of the
block and a positive multiple of the alignment. -/
structure Valid (buffer : AlignedBuffer) : Prop where
  pow : buffer.alignment.isPowerOfTwo
  alignOfUsize_le : alignOfUsize ≤ buffer.alignment
  alignment_le : buffer.alignment ≤ 4096
  layout_size : buffer.layout.size = buffer.capacity
  layout_align : buffer.layout.align = buffer.alignment
  length_block : buffer.block.length = buffer.capacity
  pos : 0 < buffer.capacity
  dvd : buffer.alignment ∣ buffer.capacity
  len_le : buffer.len ≤ buffer.capacity

variable {buffer : AlignedBuffer} {layout : Layout} {block : List UInt8}

theorem Valid.alignment_pos (h : buffer.Valid) : 0 < buffer.alignment :=
  lt_of_lt_of_le (by decide) h.alignOfUsize_le

theorem Valid.capacity_le (h : buffer.Valid) : buffer.capacity ≤ isizeMax := by
  rw [← h.layout_size]
  exact buffer.layout.fits.trans (Nat.sub_le _ _)

/-- A block that is given for a new buffer has the size that was asked for. -/
theorem fresh?_eq_some {allocator : Allocator} {capacity alignment : ℕ}
    (h : allocator.fresh? capacity alignment = some (layout, block)) :
    alignment.isPowerOfTwo ∧ alignment ≤ 4096 ∧
      Layout.holding? (max alignment alignOfUsize) capacity = some layout ∧
      allocator.alloc layout = some block := by
  unfold Allocator.fresh? at h
  split_ifs at h with halign
  simp only [Option.bind_eq_bind, Option.bind_eq_some_iff, Option.pure_def, Option.some.injEq,
    Prod.mk.injEq] at h
  obtain ⟨layout', hlayout, block', hblock, rfl, rfl⟩ := h
  exact ⟨halign.1, halign.2, hlayout, hblock⟩

theorem valid_fresh (now : ℕ)
    (h : allocator.fresh? capacity alignment = some (layout, block)) :
    Valid ⟨block, 0, layout.size, max alignment alignOfUsize, layout, now, now⟩ := by
  obtain ⟨hpow, hle, hlayout, hblock⟩ := fresh?_eq_some h
  have hpos : 0 < max alignment alignOfUsize := lt_max_of_lt_right (by decide)
  have hsize : 0 < layout.size := hpos.trans_le (Layout.align_le_holding hlayout)
  exact {
    pow := isPowerOfTwo_max hpow
    alignOfUsize_le := le_max_right _ _
    alignment_le := max_le hle (by decide)
    layout_size := rfl
    layout_align := (Layout.fromSizeAlign_eq_some_iff.mp hlayout).2
    length_block := allocator.length_alloc hsize hblock
    pos := hsize
    dvd := Layout.dvd_holding hlayout
    len_le := Nat.zero_le _ }

section Reserve

open Check

/-- The layout that `reserve` asks for where the capacity is too small, and the block it is
given. -/
def regrown? (allocator : Allocator) (buffer : AlignedBuffer) (additional : ℕ) :
    Option (Layout × List UInt8) := do
  let layout ← Layout.holding? buffer.alignment (buffer.len + additional)
  let block ← allocator.realloc buffer.block buffer.layout layout.size
  return (layout, block)

/-- The buffer in a new block. -/
def regrow (buffer : AlignedBuffer) (now : ℕ) (layout : Layout) (block : List UInt8) :
    AlignedBuffer :=
  { buffer with block, capacity := layout.size, layout, lastUsed := now }

variable {additional : ℕ}

theorem regrown?_eq_some (h : regrown? allocator buffer additional = some (layout, block)) :
    Layout.holding? buffer.alignment (buffer.len + additional) = some layout ∧
      allocator.realloc buffer.block buffer.layout layout.size = some block := by
  unfold regrown? at h
  simp only [Option.bind_eq_bind, Option.bind_eq_some_iff, Option.pure_def, Option.some.injEq,
    Prod.mk.injEq] at h
  obtain ⟨layout', hlayout, block', hblock, rfl, rfl⟩ := h
  exact ⟨hlayout, hblock⟩

theorem reserve_of_le (hv : buffer.Valid) (h : buffer.len + additional ≤ buffer.capacity) :
    exec (reserve allocator now additional) buffer = (.ok (), buffer) := by
  have hword : buffer.len + additional < 2 ^ usizeBits :=
    (h.trans hv.capacity_le).trans_lt (by decide)
  unfold reserve
  rw [exec_get_bind, exec_ofExcept_bind, checkedAdd_of_lt hword]
  simp only [okOr_some, if_pos h]
  rfl

/-- Where the capacity is too small, `reserve` moves the buffer to the block it is given, and leaves
the buffer as it is where it is given none. -/
theorem reserve_of_lt (allocator : Allocator) (now : ℕ) (hv : buffer.Valid)
    (h : buffer.capacity < buffer.len + additional) :
    (∃ e, regrown? allocator buffer additional = none ∧
      exec (reserve allocator now additional) buffer = (.error (.error e), buffer)) ∨
    ∃ layout block, regrown? allocator buffer additional = some (layout, block) ∧
      exec (reserve allocator now additional) buffer =
        (.ok (), buffer.regrow now layout block) := by
  have hpos := hv.alignment_pos
  have hrounded : buffer.alignment ≤ roundUp buffer.alignment (buffer.len + additional) := by
    refine Nat.le_of_dvd ?_ dvd_roundUp
    exact (hv.pos.trans h).trans_le (le_roundUp hpos)
  unfold regrown? reserve
  rw [exec_get_bind, exec_ofExcept_bind]
  by_cases hnew : buffer.len + additional < 2 ^ usizeBits
  swap
  · rw [Layout.holding?_of_overflow hpos hv.alignment_le (by omega),
      checkedAdd_of_le (not_lt.mp hnew)]
    exact .inl ⟨_, rfl, rfl⟩
  simp only [checkedAdd_of_lt hnew, okOr_some, if_neg (not_le.mpr h), exec_ofExcept_bind,
    subUsize_of_le hpos]
  by_cases hword : buffer.len + additional + (buffer.alignment - 1) < 2 ^ usizeBits
  swap
  · rw [Layout.holding?_of_overflow hpos hv.alignment_le (not_lt.mp hword),
      checkedAdd_of_le (not_lt.mp hword)]
    exact .inl ⟨_, rfl, rfl⟩
  simp only [checkedAdd_of_lt hword, okOr_some, and_complement_mask hv.pow hv.alignment_le hword]
  set size := roundUp buffer.alignment (buffer.len + additional)
  have hmax : max size buffer.alignment = size := max_eq_left hrounded
  rw [Layout.holding?, hmax]
  by_cases hlarge : isizeMax < size
  · rw [if_pos (.inr hlarge), Layout.fromSizeAlign_eq_none (by omega)]
    exact .inl ⟨_, rfl, rfl⟩
  rw [if_neg (by omega)]
  cases hlayout : Layout.fromSizeAlign size buffer.alignment with
  | none => exact .inl ⟨_, rfl, rfl⟩
  | some layout =>
    obtain ⟨hsize, -⟩ := Layout.fromSizeAlign_eq_some_iff.mp hlayout
    simp only [exec_ofExcept_bind, okOr_some, Allocator.reallocAligned, ← hsize]
    cases hblock : allocator.realloc buffer.block buffer.layout layout.size with
    | none => exact .inl ⟨_, by simp [hblock], rfl⟩
    | some block => exact .inr ⟨layout, block, by simp [hblock], rfl⟩

theorem lt_regrow (hv : buffer.Valid) (h : buffer.capacity < buffer.len + additional)
    (hr : regrown? allocator buffer additional = some (layout, block)) :
    buffer.capacity < layout.size := by
  obtain ⟨hlayout, -⟩ := regrown?_eq_some hr
  exact h.trans_le (Layout.le_holding hv.alignment_pos hlayout)

/-- `reserve` keeps the contract of the allocator. -/
theorem contract_regrown (hv : buffer.Valid)
    (hlayout : Layout.holding? buffer.alignment (buffer.len + additional) = some layout) :
    buffer.block.length = buffer.layout.size ∧ 0 < layout.size ∧
      layout.size ≤ isizeMax - (buffer.layout.align - 1) := by
  have halign : buffer.layout.align = layout.align :=
    hv.layout_align.trans (Layout.fromSizeAlign_eq_some_iff.mp hlayout).2.symm
  refine ⟨hv.length_block.trans hv.layout_size.symm,
    hv.alignment_pos.trans_le (Layout.align_le_holding hlayout), ?_⟩
  rw [halign]
  exact layout.fits

theorem length_regrown (hv : buffer.Valid)
    (hr : regrown? allocator buffer additional = some (layout, block)) :
    block.length = layout.size := by
  obtain ⟨hlayout, hblock⟩ := regrown?_eq_some hr
  obtain ⟨hlength, hpos, hfits⟩ := contract_regrown hv hlayout
  exact allocator.length_realloc hlength hpos hfits hblock

theorem Valid.regrow (now : ℕ) (hv : buffer.Valid)
    (h : buffer.capacity < buffer.len + additional)
    (hr : regrown? allocator buffer additional = some (layout, block)) :
    (buffer.regrow now layout block).Valid := by
  obtain ⟨hlayout, -⟩ := regrown?_eq_some hr
  have hlt := lt_regrow hv h hr
  exact { hv with
    layout_size := rfl
    layout_align := (Layout.fromSizeAlign_eq_some_iff.mp hlayout).2
    length_block := length_regrown hv hr
    pos := hv.pos.trans hlt
    dvd := Layout.dvd_holding hlayout
    len_le := hv.len_le.trans hlt.le }

end Reserve

section Extend

open Check

/-- The buffer with the bytes after its contents. -/
def append (buffer : AlignedBuffer) (now : ℕ) (data : List UInt8) : AlignedBuffer :=
  { buffer with
    block := buffer.block.take buffer.len ++ data ++ buffer.block.drop (buffer.len + data.length)
    len := buffer.len + data.length
    lastUsed := now }

variable {data : List UInt8}

theorem Valid.append (now : ℕ) (hv : buffer.Valid)
    (h : buffer.len + data.length ≤ buffer.capacity) :
    (buffer.append now data).Valid := by
  have hlength : (buffer.append now data).block.length = buffer.capacity := by
    have hblock := hv.length_block
    unfold AlignedBuffer.append
    simp only [List.length_append, List.length_take, List.length_drop]
    omega
  exact { hv with length_block := hlength, len_le := h }

theorem Valid.clear (now : ℕ) (hv : buffer.Valid) : (buffer.clear now).Valid :=
  { hv with len_le := Nat.zero_le _ }

/-- Once there is room, the bytes are copied behind the contents. -/
theorem copy_append (now : ℕ) (hv : buffer.Valid)
    (h : buffer.len + data.length ≤ buffer.capacity) :
    copyBytes data buffer.block buffer.len = .ok (buffer.append now data).block ∧
      addUsize buffer.len data.length = .ok (buffer.append now data).len := by
  constructor
  · exact if_pos (by rw [hv.length_block]; exact h)
  · exact addUsize_of_lt ((h.trans hv.capacity_le).trans_lt (by decide))

theorem extendFromSlice_of_le (hv : buffer.Valid)
    (h : buffer.len + data.length ≤ buffer.capacity) :
    exec (extendFromSlice allocator now data) buffer = (.ok (), buffer.append now data) := by
  obtain ⟨hcopy, hadd⟩ := copy_append now hv h
  have hword : buffer.len + data.length < 2 ^ usizeBits :=
    (h.trans hv.capacity_le).trans_lt (by decide)
  unfold extendFromSlice
  simp only [exec_get_bind, exec_ofExcept_bind, checkedAdd_of_lt hword, okOr_some,
    if_neg (not_lt.mpr h), gt_iff_lt, hcopy, hadd]
  rfl

theorem extendFromSlice_of_lt (allocator : Allocator) (now : ℕ) (hv : buffer.Valid)
    (h : buffer.capacity < buffer.len + data.length) :
    (∃ e, regrown? allocator buffer data.length = none ∧
      exec (extendFromSlice allocator now data) buffer = (.error (.error e), buffer)) ∨
    ∃ layout block, regrown? allocator buffer data.length = some (layout, block) ∧
      exec (extendFromSlice allocator now data) buffer =
        (.ok (), (buffer.regrow now layout block).append now data) := by
  unfold extendFromSlice
  simp only [exec_get_bind, exec_ofExcept_bind]
  by_cases hword : buffer.len + data.length < 2 ^ usizeBits
  swap
  · have hnone : regrown? allocator buffer data.length = none := by
      unfold regrown?
      rw [Layout.holding?_of_overflow hv.alignment_pos hv.alignment_le (by omega)]
      rfl
    rw [checkedAdd_of_le (not_lt.mp hword)]
    exact .inl ⟨_, hnone, rfl⟩
  simp only [checkedAdd_of_lt hword, okOr_some, gt_iff_lt, if_pos h]
  rw [exec_bind]
  rcases reserve_of_lt allocator now hv h with ⟨e, hnone, he⟩ | ⟨layout, block, hr, hok⟩
  · rw [he]
    exact .inl ⟨e, hnone, rfl⟩
  · have hroom : buffer.len + data.length ≤ (buffer.regrow now layout block).capacity :=
      Layout.le_holding hv.alignment_pos (regrown?_eq_some hr).1
    obtain ⟨hcopy, hadd⟩ := copy_append now (hv.regrow now h hr) hroom
    refine .inr ⟨layout, block, hr, ?_⟩
    rw [hok]
    simp only [exec_get_bind, exec_ofExcept_bind, hcopy, hadd]
    rfl

end Extend

section Clone

end Clone

end AlignedBuffer

end PJS
