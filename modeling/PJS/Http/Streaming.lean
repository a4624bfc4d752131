import PJS.Domain.Frame
import PJS.Lib.Utf8

/-! Streaming of frames over HTTP: frames are gathered into batches, and each batch is written as
one payload of the response body. -/
namespace PJS

inductive StreamFormat where
  | json
  | ndJson
  | serverSentEvents
  | binary
deriving DecidableEq

inductive StreamTransportError where
  | serialization (msg : String)
  | io (msg : String)

/-- The bytes of one frame, and those of several as one value. -/
structure Serializer where
  frame : Frame → Except StreamTransportError (List UInt8)
  frames : List Frame → Except StreamTransportError (List UInt8)

namespace Serializer

/-- Each frame between the same bytes. -/
def each (serializer : Serializer) (before after : List UInt8) :
    List Frame → Except StreamTransportError (List UInt8)
  | [] => .ok []
  | frame :: rest => do
    let bytes ← serializer.frame frame
    let out ← serializer.each before after rest
    return before ++ bytes ++ after ++ out

/-- Serializes a batch of frames. -/
def formatBatchOwned (serializer : Serializer) (frames : List Frame) :
    StreamFormat → Except StreamTransportError (List UInt8)
  | .json | .ndJson => serializer.each [] (Utf8.encode ['\n']) frames
  | .serverSentEvents =>
    serializer.each (Utf8.encode "data: ".toList) (Utf8.encode ['\n', '\n']) frames
  | .binary => serializer.frames frames

end Serializer

/-- Batch frame stream for improved throughput. -/
structure BatchFrameStream where
  inner : List Frame
  format : StreamFormat
  batchSize : ℕ

namespace BatchFrameStream

section IntoStream
variable (serializer : Serializer) (format : StreamFormat) (batchSize : ℕ)

/-- The loop over the frames; a batch that cannot be written ends the stream with its error. -/
def intoStreamFrom (batch : List Frame) :
    List Frame → List (Except StreamTransportError (List UInt8))
  | [] => if batch.isEmpty then [] else [serializer.formatBatchOwned batch format]
  | frame :: rest =>
    let batch := batch ++ [frame]
    if batch.length ≥ batchSize then
      match serializer.formatBatchOwned batch format with
      | .error e => [.error e]
      | .ok bytes => .ok bytes :: intoStreamFrom [] rest
    else intoStreamFrom batch rest

end IntoStream

/-- The formatted batch payloads. The room asked for a batch is taken to be granted:
`Vec::with_capacity` panics for a size that no memory holds. -/
def intoStream (serializer : Serializer) (stream : BatchFrameStream) :
    List (Except StreamTransportError (List UInt8)) :=
  intoStreamFrom serializer stream.format stream.batchSize [] stream.inner

/-- The frames fall into batches of the given size, at least one, up to a shorter last batch. -/
def Batched (batchSize : ℕ) (batches : List (List Frame)) : Prop :=
  (∀ batch ∈ batches, batch ≠ [] ∧ batch.length ≤ max 1 batchSize) ∧
    ∀ batch ∈ batches.dropLast, batch.length = max 1 batchSize

theorem Batched.cons {batchSize : ℕ} {batch : List Frame} {batches : List (List Frame)}
    (hlen : batch.length = max 1 batchSize) (h : Batched batchSize batches) :
    Batched batchSize (batch :: batches) := by
  have hpos : 0 < batch.length := by omega
  refine ⟨List.forall_mem_cons.mpr ⟨⟨List.ne_nil_of_length_pos hpos, hlen.le⟩, h.1⟩, ?_⟩
  cases batches with
  | nil => simp
  | cons next rest => exact List.forall_mem_cons.mpr ⟨hlen, h.2⟩

/-- When every frame can be written, the payloads are those of the batches. -/
theorem intoStreamFrom_eq {serializer : Serializer} {format : StreamFormat} {batchSize : ℕ}
    {batch frames : List Frame} (hlen : batch.length < max 1 batchSize)
    (hformat : ∀ b : List Frame, (∀ frame ∈ b, frame ∈ batch ++ frames) →
      ∃ bytes, serializer.formatBatchOwned b format = .ok bytes) :
    ∃ batches payloads, batches.flatten = batch ++ frames ∧ Batched batchSize batches ∧
      intoStreamFrom serializer format batchSize batch frames = payloads.map .ok ∧
      List.Forall₂ (fun b payload => serializer.formatBatchOwned b format = .ok payload)
        batches payloads := by
  induction frames generalizing batch with
  | nil =>
    rw [intoStreamFrom]
    split_ifs with hempty
    · exact ⟨[], [], by rw [List.isEmpty_iff.mp hempty]; rfl, ⟨by simp, by simp⟩, rfl, .nil⟩
    · obtain ⟨bytes, hbytes⟩ := hformat batch fun frame hf => List.mem_append_left [] hf
      refine ⟨[batch], [bytes], by simp, ⟨?_, by simp⟩, by rw [hbytes]; rfl, .cons hbytes .nil⟩
      exact List.forall_mem_singleton.mpr ⟨by simpa using hempty, hlen.le⟩
  | cons frame rest ih =>
    have happend : batch ++ frame :: rest = (batch ++ [frame]) ++ rest := by simp
    rw [happend] at hformat ⊢
    have hlength : (batch ++ [frame]).length = batch.length + 1 := List.length_append
    rw [intoStreamFrom]
    split_ifs with hfull
    · obtain ⟨bytes, hbytes⟩ := hformat (batch ++ [frame]) fun f hf => List.mem_append_left rest hf
      obtain ⟨batches, payloads, hflatten, hbatched, hrun, hpayloads⟩ :=
        @ih [] (by simp) fun b hb => hformat b fun f hf =>
          List.mem_append_right (batch ++ [frame]) (hb f hf)
      refine ⟨(batch ++ [frame]) :: batches, bytes :: payloads, ?_, hbatched.cons (by omega), ?_,
        .cons hbytes hpayloads⟩
      · rw [List.flatten_cons, hflatten, List.nil_append]
      · simp only [hbytes, hrun, List.map_cons]
    · exact ih (by omega) hformat

end BatchFrameStream

namespace Serializer

/-- A batch of written frames, with the given bytes after each. -/
theorem each_eq {serializer : Serializer} {after : List UInt8} {text : Frame → List UInt8}
    {frames : List Frame} (h : ∀ frame ∈ frames, serializer.frame frame = .ok (text frame)) :
    serializer.each [] after frames = .ok (frames.flatMap fun frame => text frame ++ after) := by
  induction frames with
  | nil => rfl
  | cons frame rest ih =>
    rw [each, h frame (by simp), ih fun f hf => h f (by simp [hf])]
    rfl

end Serializer

end PJS
