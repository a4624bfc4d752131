import Mathlib

/-! Receivers of a broadcast channel. Each keeps its own backlog of at most `capacity` values; a
value sent to a full backlog pushes out the oldest one, and the next read reports the loss. -/
namespace PJS

variable {α : Type*}

structure Receiver (α : Type*) where
  unread : List α
  missed : ℕ
deriving DecidableEq

/-- What a read returns: a value, or the number of values lost since the last read. -/
inductive Received (α : Type*) where
  | value (v : α)
  | lagged (skipped : ℕ)
deriving DecidableEq

namespace Receiver

/-- A subscriber sees only what is sent from now on. -/
def subscribe : Receiver α := ⟨[], 0⟩

def offer (capacity : ℕ) (v : α) (r : Receiver α) : Receiver α :=
  let lost := r.unread.length + 1 - capacity
  ⟨(r.unread ++ [v]).drop lost, r.missed + lost⟩

/-- `none` while there is nothing to read. -/
def recv (r : Receiver α) : Option (Received α × Receiver α) :=
  if 0 < r.missed then some (.lagged r.missed, { r with missed := 0 })
  else match r.unread with
    | [] => none
    | v :: rest => some (.value v, { r with unread := rest })

theorem mem_unread_offer {capacity : ℕ} {v x : α} {r : Receiver α}
    (h : x ∈ (r.offer capacity v).unread) : x ∈ r.unread ∨ x = v := by
  have hx : x ∈ r.unread ++ [v] := List.mem_of_mem_drop h
  simpa using hx

/-- A read takes the value in front, or nothing. -/
theorem recv_cases {r r' : Receiver α} {got : Received α} (h : r.recv = some (got, r')) :
    (∃ v, got = .value v ∧ r.unread = v :: r'.unread) ∨
      (got = .lagged r.missed ∧ r'.unread = r.unread) := by
  unfold recv at h
  split_ifs at h with hm
  · obtain ⟨rfl, rfl⟩ : Received.lagged r.missed = got ∧ { r with missed := 0 } = r' := by
      simpa using h
    exact .inr ⟨rfl, rfl⟩
  · cases hu : r.unread with
    | nil => simp [hu] at h
    | cons v rest =>
      obtain ⟨rfl, rfl⟩ : Received.value v = got ∧ { r with unread := rest } = r' := by
        simpa [hu] using h
      exact .inl ⟨v, rfl, rfl⟩

end Receiver

end PJS
