import Mathlib

/-! Checks over a state that outlives failure. A check may read and change the state (a cache, a
counter), but what it answers is the same from every state: `Yields` names the answer and `Decides`
forgets the error. One rule for each way of building a check. -/
namespace PJS

/-- A computation that may fail, and whose state changes survive the failure. -/
abbrev Check (σ ε α : Type) := ExceptT ε (StateM σ) α

namespace Check

variable {σ ε α β : Type}

/-- The answer and the state left behind. -/
def exec (v : Check σ ε α) (s : σ) : Except ε α × σ := StateT.run (ExceptT.run v) s

/-- From every state the check answers `r`. -/
def Yields (v : Check σ ε α) (r : Except ε α) : Prop := ∀ s, (exec v s).1 = r

/-- From every state the check passes if `b`, and fails if not. -/
def Decides (v : Check σ ε Unit) (b : Bool) : Prop := ∃ r, Yields v r ∧ r.isOk = b

/-- `if !c { return Err(e) }` -/
def ensure (c : Bool) (e : ε) : Check σ ε Unit := if c then pure () else throw e

/-- `if let Some(b) = bound && bad(b) { return Err(e(b)) }` -/
def rejectSome (bound : Option β) (bad : β → Bool) (e : β → ε) : Check σ ε Unit :=
  match bound with
  | some b => if bad b then throw (e b) else pure ()
  | none => pure ()

/-- `v.is_ok()` -/
def succeeds (v : Check σ ε Unit) : Check σ ε Bool :=
  tryCatch (do v; pure true) fun _ => pure false

section Yields

theorem yields_pure (a : α) : Yields (pure a : Check σ ε α) (.ok a) := fun _ => rfl

theorem yields_throw (e : ε) : Yields (throw e : Check σ ε α) (.error e) := fun _ => rfl

theorem exec_bind (v : Check σ ε α) (w : α → Check σ ε β) (s : σ) :
    exec (v >>= w) s = match exec v s with
      | (.ok a, t) => exec (w a) t
      | (.error e, t) => (.error e, t) := by
  unfold exec
  rw [ExceptT.run_bind, StateT.run_bind]
  rcases StateT.run (ExceptT.run v) s with ⟨_ | _, t⟩ <;> rfl

theorem exec_get (s : σ) : exec (get : Check σ ε σ) s = (.ok s, s) := rfl

theorem exec_modify (f : σ → σ) (s : σ) :
    exec (modify f : Check σ ε Unit) s = (.ok (), f s) := rfl

theorem exec_ofExcept_bind (r : Except ε α) (w : α → Check σ ε β) (s : σ) :
    exec (ofExcept r >>= w) s = match r with
      | .ok a => exec (w a) s
      | .error e => (.error e, s) := by
  cases r <;> rfl

theorem exec_get_bind (w : σ → Check σ ε β) (s : σ) : exec (get >>= w) s = exec (w s) s := rfl

theorem Yields.bind {v : Check σ ε α} {w : α → Check σ ε β} {a : α} {r : Except ε β}
    (hv : Yields v (.ok a)) (hw : Yields (w a) r) : Yields (v >>= w) r := by
  intro s
  have h := hv s
  rw [exec_bind]
  rcases hs : exec v s with ⟨_ | _, t⟩ <;> rw [hs] at h <;> cases h
  exact hw t

theorem Yields.bind_error {v : Check σ ε α} {w : α → Check σ ε β} {e : ε}
    (hv : Yields v (.error e)) : Yields (v >>= w) (.error e) := by
  intro s
  have h := hv s
  rw [exec_bind]
  rcases hs : exec v s with ⟨_ | _, t⟩ <;> rw [hs] at h <;> cases h
  rfl

theorem exec_succeeds (v : Check σ ε Unit) (s : σ) :
    exec (succeeds v) s = (.ok (exec v s).1.isOk, (exec v s).2) := by
  unfold succeeds exec
  simp only [ExceptT.run_tryCatch, ExceptT.run_bind, StateT.run_bind]
  rcases StateT.run (ExceptT.run v) s with ⟨_ | _, t⟩ <;> rfl

theorem yields_succeeds {v : Check σ ε Unit} {b : Bool} (h : Decides v b) :
    Yields (succeeds v) (.ok b) := by
  obtain ⟨r, hr, rfl⟩ := h
  intro s
  rw [exec_succeeds, hr s]

end Yields

section Decides

theorem decides_pure : Decides (pure () : Check σ ε Unit) true := ⟨_, yields_pure (), rfl⟩

theorem decides_throw (e : ε) : Decides (throw e : Check σ ε Unit) false :=
  ⟨_, yields_throw e, rfl⟩

theorem Decides.seq {v w : Check σ ε Unit} {b c : Bool} (hv : Decides v b) (hw : Decides w c) :
    Decides (do v; w) (b && c) := by
  obtain ⟨_ | _, hv, rfl⟩ := hv
  · exact ⟨_, hv.bind_error, rfl⟩
  · obtain ⟨s, hw, rfl⟩ := hw
    exact ⟨s, hv.bind hw, (Bool.true_and _).symm⟩

theorem Decides.after {v : Check σ ε α} {w : α → Check σ ε Unit} {a : α} {b : Bool}
    (hv : Yields v (.ok a)) (hw : Decides (w a) b) : Decides (v >>= w) b := by
  obtain ⟨s, hw, rfl⟩ := hw
  exact ⟨s, hv.bind hw, rfl⟩

theorem decides_ensure (c : Bool) (e : ε) : Decides (ensure c e : Check σ ε Unit) c := by
  cases c with
  | false => exact decides_throw e
  | true => exact decides_pure

theorem decides_rejectSome (bound : Option β) (bad : β → Bool) (e : β → ε) :
    Decides (rejectSome bound bad e : Check σ ε Unit) (!bound.any bad) := by
  cases bound with
  | none => exact decides_pure
  | some b =>
    unfold rejectSome
    cases h : bad b with
    | false => simpa [h] using decides_pure
    | true => simpa [h] using decides_throw (e b)

/-- A loop of checks stops at the first failure. -/
theorem Decides.forM {xs : List α} {f : α → Check σ ε Unit} {p : α → Bool}
    (h : ∀ x ∈ xs, Decides (f x) (p x)) : Decides (forM xs f) (xs.all p) := by
  induction xs with
  | nil => exact decides_pure
  | cons x xs ih =>
    rw [List.forM_cons, List.all_cons]
    exact (h x List.mem_cons_self).seq (ih fun y hy => h y (List.mem_cons_of_mem x hy))

theorem Decides.eq_ok_iff {v : Check σ ε Unit} {b : Bool} (h : Decides v b) (s : σ) :
    (exec v s).1 = .ok () ↔ b = true := by
  obtain ⟨r, hr, rfl⟩ := h
  rw [hr s]
  cases r <;> simp [Except.isOk, Except.toBool]

/-- The answer does not depend on the state. -/
theorem Decides.steady {v : Check σ ε Unit} {b : Bool} (h : Decides v b) (s t : σ) :
    (exec v s).1 = (exec v t).1 := by
  obtain ⟨r, hr, -⟩ := h
  rw [hr s, hr t]

end Decides

end Check

end PJS
