import PJS.Lib.Lists
import PJS.Parser.AlignedBuffer

/-! Histories of aligned buffers: any operations on any buffers, in any order, the allocator
answering each call as it likes. -/
namespace PJS

open AlignedBuffer

/-- An operation. Buffers are numbered in the order of their creation. -/
inductive BufferOp where
  | new (capacity alignment : ℕ)
  | reserve (i additional : ℕ)
  | extendFromSlice (i : ℕ) (data : List UInt8)
  | clear (i : ℕ)
  | clone (i : ℕ)

/-- An operation at an instant, and what the allocator answers at that instant. -/
structure BufferCall where
  op : BufferOp
  allocator : Allocator
  now : ℕ

/-- A new buffer joins the others. -/
def addBuffer (buffers : List AlignedBuffer) :
    Except BufferFault AlignedBuffer → Except BufferFault Unit × List AlignedBuffer
  | .ok buffer => (.ok (), buffers ++ [buffer])
  | .error fault => (.error fault, buffers)

/-- Runs on the buffer with the number, if there is one. -/
def onBuffer (buffers : List AlignedBuffer) (i : ℕ) (run : BufferM Unit) :
    Except BufferFault Unit × List AlignedBuffer :=
  match buffers[i]? with
  | some buffer => ((Check.exec run buffer).1, buffers.set i (Check.exec run buffer).2)
  | none => (.ok (), buffers)

/-- The answer to a call, and the buffers after it. -/
def BufferCall.perform (call : BufferCall) (buffers : List AlignedBuffer) :
    Except BufferFault Unit × List AlignedBuffer :=
  match call.op with
  | .new capacity alignment => addBuffer buffers (new call.allocator call.now capacity alignment)
  | .reserve i additional => onBuffer buffers i (reserve call.allocator call.now additional)
  | .extendFromSlice i data => onBuffer buffers i (extendFromSlice call.allocator call.now data)
  | .clear i => onBuffer buffers i (modify (clear call.now))
  | .clone i =>
    match buffers[i]? with
    | some buffer => addBuffer buffers (clone call.allocator call.now buffer)
    | none => (.ok (), buffers)

/-- What a buffer should hold, the alignment it was created with, and every capacity that was asked
of it. -/
structure BufferSpec where
  contents : List UInt8
  alignment : ℕ
  requested : List ℕ

/-- What an operation should do when it succeeds. -/
def BufferOp.intend (op : BufferOp) (specs : List BufferSpec) : List BufferSpec :=
  match op with
  | .new capacity alignment => specs ++ [⟨[], alignment, [capacity]⟩]
  | .reserve i additional => specs.modify i fun spec =>
    { spec with requested := (spec.contents.length + additional) :: spec.requested }
  | .extendFromSlice i data => specs.modify i fun spec =>
    { spec with
      contents := spec.contents ++ data
      requested := (spec.contents.length + data.length) :: spec.requested }
  | .clear i => specs.modify i fun spec => { spec with contents := [] }
  | .clone i => specs ++ specs[i]?.toList

/-- The buffers and their specifications after a call. A call that fails should do nothing. -/
def BufferCall.step (s : List AlignedBuffer × List BufferSpec) (call : BufferCall) :
    List AlignedBuffer × List BufferSpec :=
  ((call.perform s.1).2, if (call.perform s.1).1.isOk then call.op.intend s.2 else s.2)

/-- The buffer is as its specification says. -/
structure AlignedBuffer.Meets (buffer : AlignedBuffer) (spec : BufferSpec) : Prop where
  valid : buffer.Valid
  asSlice : buffer.asSlice = spec.contents
  alignment : spec.alignment ∣ buffer.alignment
  requested : ∀ capacity ∈ spec.requested, capacity ≤ buffer.capacity

variable {buffer : AlignedBuffer} {spec : BufferSpec}

theorem AlignedBuffer.Meets.len (h : Meets buffer spec) : buffer.len = spec.contents.length := by
  rw [← h.asSlice, AlignedBuffer.asSlice, List.length_take, h.valid.length_block,
    min_eq_left h.valid.len_le]

section Calls

/-- The fault is an answer of the code, and not a slip in its arithmetic or its accesses. -/
def BufferFault.Orderly (fault : BufferFault) : Prop := fault ≠ .overflow ∧ fault ≠ .outOfBounds

variable {buffers : List AlignedBuffer} {specs : List BufferSpec}

/-- An operation succeeds and does what it should, or it fails, not by arithmetic or by an access
outside a block, and does nothing. -/
def BufferOp.Sound (op : BufferOp) (buffers : List AlignedBuffer) (specs : List BufferSpec)
    (result : Except BufferFault Unit × List AlignedBuffer) : Prop :=
  (result.1 = .ok () ∧ List.Forall₂ Meets result.2 (op.intend specs)) ∨
    ∃ fault, result = (.error fault, buffers) ∧ fault.Orderly

variable {op : BufferOp}

section Operations

variable (allocator : Allocator) (now : ℕ)

end Operations

theorem BufferOp.Sound.step {call : BufferCall}
    (h : call.op.Sound buffers specs (call.perform buffers))
    (hmeets : List.Forall₂ Meets buffers specs) :
    List.Forall₂ Meets (call.step (buffers, specs)).1 (call.step (buffers, specs)).2 := by
  unfold BufferCall.step
  rcases h with ⟨hok, hintend⟩ | ⟨fault, hfault, -⟩
  · simp only [hok]
    exact hintend
  · simp only [hfault]
    exact hmeets

end Calls

end PJS
