import PJS.Lib.Check

/-! Nested work under a limit. A counter holds the levels that are entered; a level is left again
whether or not the work in it fails. -/
namespace PJS.Check

variable {ε α β : Type} {limit : ℕ} {e : ε}

/-- Runs `body` one level deeper, or fails when none is left. -/
def within (limit : ℕ) (e : ε) (body : Check ℕ ε α) : Check ℕ ε α :=
  ExceptT.mk fun level =>
    if level ≥ limit then (.error e, level)
    else
      let (r, level) := exec body (level + 1)
      (r, level - 1)

theorem exec_within (body : Check ℕ ε α) (level : ℕ) :
    exec (within limit e body) level =
      if level ≥ limit then (.error e, level)
      else ((exec body (level + 1)).1, (exec body (level + 1)).2 - 1) :=
  rfl

section Needs

/-- The answer is `a` where `need` levels are left, and `e` where fewer are. -/
def Needs (limit : ℕ) (e : ε) (v : Check ℕ ε α) (need : ℕ) (a : α) : Prop :=
  ∀ level, exec v level = (if need ≤ limit - level then .ok a else .error e, level)

theorem needs_pure (a : α) : Needs limit e (pure a) 0 a := fun level => by
  rw [if_pos (Nat.zero_le _)]
  rfl

theorem Needs.bind {v : Check ℕ ε α} {w : α → Check ℕ ε β} {need need' : ℕ} {a : α} {b : β}
    (hv : Needs limit e v need a) (hw : Needs limit e (w a) need' b) :
    Needs limit e (v >>= w) (max need need') b := by
  intro level
  rw [exec_bind, hv level]
  by_cases h : need ≤ limit - level
  · rw [if_pos h]
    have hboth : max need need' ≤ limit - level ↔ need' ≤ limit - level := by omega
    simp only [hboth]
    exact hw level
  · rw [if_neg h, if_neg (by omega)]

/-- What follows needs no level. -/
theorem Needs.andThen {v : Check ℕ ε α} {w : α → Check ℕ ε β} {need : ℕ} {a : α} {b : β}
    (hv : Needs limit e v need a) (hw : Needs limit e (w a) 0 b) :
    Needs limit e (v >>= w) need b := by
  have h := hv.bind hw
  rwa [Nat.max_zero] at h

theorem Needs.map {v : Check ℕ ε α} {need : ℕ} {a : α} (hv : Needs limit e v need a) (f : α → β) :
    Needs limit e (f <$> v) need (f a) := by
  rw [map_eq_pure_bind]
  exact hv.andThen (needs_pure (f a))

theorem Needs.within {v : Check ℕ ε α} {need : ℕ} {a : α} (hv : Needs limit e v need a) :
    Needs limit e (within limit e v) (need + 1) a := by
  intro level
  rw [exec_within]
  by_cases h : level ≥ limit
  · rw [if_pos h, if_neg (by omega)]
  · rw [if_neg h, hv (level + 1), Nat.add_sub_cancel]
    have hroom : need ≤ limit - (level + 1) ↔ need + 1 ≤ limit - level := by omega
    simp only [hroom]

end Needs

section Keeps

/-- The counter is left as it was, and what is answered with `room` levels left has `P room`. -/
def Keeps (limit : ℕ) (v : Check ℕ ε α) (P : ℕ → α → Prop) : Prop :=
  ∀ level, (exec v level).2 = level ∧ ∀ a, (exec v level).1 = .ok a → P (limit - level) a

variable {P Q : ℕ → α → Prop}

theorem keeps_pure {a : α} (h : ∀ room, P room a) :
    Keeps limit (pure a : Check ℕ ε α) P := fun level =>
  ⟨rfl, fun b hb => by
    cases hb
    exact h _⟩

theorem keeps_throw (e : ε) : Keeps limit (throw e : Check ℕ ε α) P := fun _ =>
  ⟨rfl, fun a ha => by cases ha⟩

theorem keeps_ofExcept {r : Except ε α} (h : ∀ a, r = .ok a → ∀ room, P room a) :
    Keeps limit (ofExcept r : Check ℕ ε α) P := by
  cases r with
  | error e => exact keeps_throw e
  | ok a => exact keeps_pure (h a rfl)

theorem Keeps.mono {v : Check ℕ ε α} (hv : Keeps limit v P) (h : ∀ room a, P room a → Q room a) :
    Keeps limit v Q := fun level =>
  ⟨(hv level).1, fun a ha => h _ a ((hv level).2 a ha)⟩

theorem Keeps.bind {v : Check ℕ ε α} {w : α → Check ℕ ε β} {Q : ℕ → β → Prop}
    (hv : Keeps limit v P) (hw : ∀ a, Keeps limit (w a) fun room b => P room a → Q room b) :
    Keeps limit (v >>= w) Q := by
  intro level
  obtain ⟨hsame, hanswer⟩ := hv level
  rw [exec_bind]
  rcases hv : exec v level with ⟨_ | a, level'⟩ <;> rw [hv] at hsame hanswer <;>
    obtain rfl : level' = level := hsame
  · exact ⟨rfl, fun a ha => by cases ha⟩
  · obtain ⟨hsame', hanswer'⟩ := hw a level'
    exact ⟨hsame', fun b hb => hanswer' b hb (hanswer a rfl)⟩

theorem Keeps.map {v : Check ℕ ε α} {Q : ℕ → β → Prop} (hv : Keeps limit v P) {f : α → β}
    (h : ∀ room a, P room a → Q room (f a)) : Keeps limit (f <$> v) Q := by
  rw [map_eq_pure_bind]
  exact hv.bind fun a => keeps_pure fun room => h room a

theorem Keeps.within {v : Check ℕ ε α} (hv : Keeps limit v P)
    (h : ∀ room a, P room a → Q (room + 1) a) : Keeps limit (within limit e v) Q := by
  intro level
  rw [exec_within]
  by_cases hfull : level ≥ limit
  · rw [if_pos hfull]
    exact ⟨rfl, fun a ha => by cases ha⟩
  · obtain ⟨hsame, hanswer⟩ := hv (level + 1)
    rw [if_neg hfull, hsame]
    refine ⟨Nat.add_sub_cancel _ _, fun a ha => ?_⟩
    have hroom : limit - level = limit - (level + 1) + 1 := by omega
    rw [hroom]
    exact h _ a (hanswer a ha)

end Keeps

section Turns
variable {σ : Type}

/-- One check after another, each from the state that the one before left. -/
def inTurn (check : β → Check σ ε α) : List β → σ → List (Except ε α) × σ
  | [], s => ([], s)
  | x :: xs, s =>
    let (r, s) := exec (check x) s
    let (rs, s) := inTurn check xs s
    (r :: rs, s)

/-- Where every check leaves the state as it was, each answers as if it were the only one. -/
theorem inTurn_eq {check : β → Check σ ε α} {s : σ} (h : ∀ x, (exec (check x) s).2 = s)
    (xs : List β) : inTurn check xs s = (xs.map fun x => (exec (check x) s).1, s) := by
  induction xs with
  | nil => rfl
  | cons x xs ih =>
    rw [inTurn]
    simp only [h x, ih, List.map_cons]

end Turns

end PJS.Check
