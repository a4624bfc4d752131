import Mathlib

/-! Readers of bytes, as the standard library describes them: a read is given the length of its
buffer, and delivers bytes or fails; either way the reader may have changed. -/
namespace PJS

/-- The kinds of I/O errors that are told apart. -/
inductive IoErrorKind where
  | interrupted
  | invalidData
  | other
deriving DecidableEq

structure IoError where
  kind : IoErrorKind
  message : String
deriving DecidableEq

/-- The `read` of a reader with states `σ`. -/
abbrev ReadFn (σ : Type*) := σ → ℕ → Except IoError (List UInt8) × σ

namespace ReadFn
variable {σ : Type*} (read : ReadFn σ)

/-- One read for every buffer length. -/
def reads : List ℕ → σ → List (Except IoError (List UInt8)) × σ
  | [], s => ([], s)
  | n :: ns, s =>
    let rest := reads ns (read s n).2
    ((read s n).1 :: rest.1, rest.2)

/-- The number of bytes that a read delivered. -/
def count : Except IoError (List UInt8) → ℕ
  | .ok bytes => bytes.length
  | .error _ => 0

/-- The number of bytes that the successful reads delivered. -/
def delivered (results : List (Except IoError (List UInt8))) : ℕ := (results.map count).sum

/-- What every read preserves, with the bytes delivered so far, a run preserves. -/
theorem reads_invariant {Inv : ℕ → σ → Prop}
    (hstep : ∀ got s n, Inv got s → Inv (got + count (read s n).1) (read s n).2) (ns : List ℕ)
    {got : ℕ} {s : σ} (h : Inv got s) :
    Inv (got + delivered (reads read ns s).1) (reads read ns s).2 := by
  induction ns generalizing got s with
  | nil => exact h
  | cons n ns ih =>
    have hrest := ih (hstep got s n h)
    rw [add_assoc] at hrest
    exact hrest

/-- A state that every read fails in and stays in. -/
theorem reads_error {Stuck : σ → Prop}
    (hstep : ∀ s n, Stuck s → (∃ e, (read s n).1 = .error e) ∧ Stuck (read s n).2) (ns : List ℕ)
    {s : σ} (h : Stuck s) : ∀ r ∈ (reads read ns s).1, ∃ e, r = .error e := by
  induction ns generalizing s with
  | nil => simp [reads]
  | cons n ns ih =>
    obtain ⟨herror, hstuck⟩ := hstep s n h
    intro r hr
    rcases List.mem_cons.mp hr with rfl | hr
    · exact herror
    · exact ih hstuck r hr

/-- Read until a read delivers nothing, appending to `out`; an interrupted read is repeated. The
list has a buffer length for every read, and the result is none if there are too few. -/
def readToEnd : List ℕ → σ → List UInt8 → Option (Except IoError (List UInt8) × σ)
  | [], _, _ => none
  | n :: ns, s, out =>
    match read s n with
    | (.ok [], s) => some (.ok out, s)
    | (.ok bytes, s) => readToEnd ns s (out ++ bytes)
    | (.error e, s) =>
      if e.kind = .interrupted then readToEnd ns s out else some (.error e, s)

/-- A cursor over bytes delivers as many as the buffer takes. -/
def cursor : ReadFn (List UInt8) := fun bytes n => (.ok (bytes.take n), bytes.drop n)

end ReadFn
end PJS
