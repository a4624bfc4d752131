import Mathlib

/-! Codes whose words can be told apart. A word that ends by itself may be followed by anything; a
word of `inner` letters ends where another letter follows. Joined words are told apart when
the separators are not `inner`. -/
namespace PJS.Codes

variable {α β χ : Type*}

/-- The text does not go on with a letter of `inner`. -/
def Follows (inner : χ → Prop) (x : List χ) : Prop := ∀ c, x.head? = some c → ¬ inner c

/-- Among all words that end where they should, the word of `a` is found, and its end. -/
def Delimited (inner : χ → Prop) (f : α → List χ) (a : α) : Prop :=
  ∀ b x y, Follows inner x → Follows inner y → f a ++ x = f b ++ y → a = b ∧ x = y

/-- The word ends by itself. -/
abbrev Closed (f : α → List χ) (a : α) : Prop := Delimited (fun _ => False) f a

variable {inner : χ → Prop} {f : α → List χ} {a : α}

theorem follows_false (x : List χ) : Follows (fun _ => False) x := fun _ _ h => h

theorem follows_cons {c : χ} (h : ¬ inner c) (x : List χ) : Follows inner (c :: x) := by
  intro d hd
  rw [List.head?_cons, Option.some.injEq] at hd
  rwa [← hd]

theorem follows_nil : Follows inner [] := nofun

theorem Closed.delimited (h : Closed f a) : Delimited inner f a :=
  fun b x y _ _ => h b x y (follows_false x) (follows_false y)

theorem Closed.unique (h : Closed f a) {b : α} {x y : List χ} (heq : f a ++ x = f b ++ y) :
    a = b ∧ x = y :=
  h b x y (follows_false x) (follows_false y) heq

/-- A reader that finds the word and its end. -/
theorem closed_of_read {read : List χ → Option (α × List χ)}
    (h : ∀ a x, read (f a ++ x) = some (a, x)) : Closed f a := by
  intro b x y _ _ heq
  have hread := congrArg read heq
  rw [h, h, Option.some.injEq, Prod.mk.injEq] at hread
  exact hread

theorem Delimited.cons (h : Delimited inner f a) (c : χ) :
    Delimited inner (fun a => c :: f a) a := by
  intro b x y hx hy heq
  rw [List.cons_append, List.cons_append, List.cons.injEq] at heq
  exact h b x y hx hy heq.2

/-- The letters up to the first that is not `inner`. -/
theorem inner_unique {u v x y : List χ} (hu : ∀ c ∈ u, inner c) (hv : ∀ c ∈ v, inner c)
    (hx : Follows inner x) (hy : Follows inner y) (heq : u ++ x = v ++ y) : u = v ∧ x = y := by
  have hrest : ∀ {w z t : List χ}, (∀ c ∈ w, inner c) → Follows inner t → t = w ++ z → w = [] := by
    intro w z t hw ht h
    cases w with
    | nil => rfl
    | cons c w => exact absurd (hw c (by simp)) (ht c (by rw [h]; rfl))
  rcases List.append_eq_append_iff.mp heq with ⟨w, hvw, hxw⟩ | ⟨w, huw, hyw⟩
  · obtain rfl := hrest (fun c hc => hv c (by rw [hvw]; simp [hc])) hx hxw
    simp_all
  · obtain rfl := hrest (fun c hc => hu c (by rw [huw]; simp [hc])) hy hyw
    simp_all

/-- Words of `inner` letters end where another letter follows. -/
theorem delimited_of_inner (hinj : Function.Injective f) (h : ∀ a, ∀ c ∈ f a, inner c) :
    Delimited inner f a := by
  intro b x y hx hy heq
  obtain ⟨hword, hrest⟩ := inner_unique (h a) (h b) hx hy heq
  exact ⟨hinj hword, hrest⟩

theorem Closed.append {g : β → List χ} {b : β} (hg : Closed g b) (hf : Delimited inner f a) :
    Delimited inner (fun p : β × α => g p.1 ++ f p.2) (b, a) := by
  rintro ⟨b', a'⟩ x y hx hy heq
  rw [List.append_assoc, List.append_assoc] at heq
  obtain ⟨rfl, hrest⟩ := hg.unique heq
  obtain ⟨rfl, hxy⟩ := hf a' x y hx hy hrest
  exact ⟨rfl, hxy⟩

/-- Closed words up to a letter with which no word starts. -/
theorem closed_terminated {close : χ} (hf : ∀ a, Closed f a)
    (hstart : ∀ a, ∃ c rest, f a = c :: rest ∧ c ≠ close) (as : List α) :
    Closed (fun as : List α => as.flatMap f ++ [close]) as := by
  intro bs x y _ _ heq
  induction as generalizing bs with
  | nil =>
    cases bs with
    | nil => exact ⟨rfl, by simpa using heq⟩
    | cons b bs =>
      obtain ⟨c, rest, hb, hne⟩ := hstart b
      simp only [List.flatMap_nil, List.flatMap_cons, hb, List.nil_append, List.cons_append,
        List.cons.injEq] at heq
      exact absurd heq.1.symm hne
  | cons a as ih =>
    cases bs with
    | nil =>
      obtain ⟨c, rest, ha, hne⟩ := hstart a
      simp only [List.flatMap_nil, List.flatMap_cons, ha, List.nil_append, List.cons_append,
        List.cons.injEq] at heq
      exact absurd heq.1 hne
    | cons b bs =>
      simp only [List.flatMap_cons, List.append_assoc] at heq ih
      obtain ⟨rfl, hrest⟩ := (hf a).unique heq
      obtain ⟨rfl, hxy⟩ := ih bs hrest
      exact ⟨rfl, hxy⟩

section Joined
variable (f) (sep close : χ)

/-- What follows the first word. -/
def tail : List α → List χ
  | [] => [close]
  | a :: as => sep :: (f a ++ tail as)

/-- Words with a separator between them and a last letter. -/
def joined : List α → List χ
  | [] => [close]
  | a :: as => f a ++ tail f sep close as

variable {sep close f}

theorem follows_tail (hsep : ¬ inner sep) (hclose : ¬ inner close) (as : List α) (x : List χ) :
    Follows inner (tail f sep close as ++ x) := by
  cases as with
  | nil => exact follows_cons hclose x
  | cons a as => exact follows_cons hsep _

theorem closed_tail (hsep : ¬ inner sep) (hclose : ¬ inner close) (hne : sep ≠ close) {as : List α}
    (h : ∀ a ∈ as, Delimited inner f a) : Closed (tail f sep close) as := by
  intro bs x y _ _ heq
  induction as generalizing bs with
  | nil =>
    cases bs with
    | nil => exact ⟨rfl, by simpa [tail] using heq⟩
    | cons b bs =>
      simp only [tail, List.cons_append, List.cons.injEq] at heq
      exact absurd heq.1.symm hne
  | cons a as ih =>
    cases bs with
    | nil =>
      simp only [tail, List.cons_append, List.cons.injEq] at heq
      exact absurd heq.1 hne
    | cons b bs =>
      rw [List.forall_mem_cons] at h
      simp only [tail, List.cons_append, List.cons.injEq, true_and, List.append_assoc] at heq
      obtain ⟨rfl, hrest⟩ := h.1 b _ _ (follows_tail hsep hclose as x)
        (follows_tail hsep hclose bs y) heq
      obtain ⟨rfl, hxy⟩ := ih h.2 bs hrest
      exact ⟨rfl, hxy⟩

/-- Joined words are told apart if no word is empty or starts with the last letter. -/
theorem closed_joined (hsep : ¬ inner sep) (hclose : ¬ inner close) (hne : sep ≠ close)
    (hstart : ∀ a, ∃ c rest, f a = c :: rest ∧ c ≠ close) {as : List α}
    (h : ∀ a ∈ as, Delimited inner f a) : Closed (joined f sep close) as := by
  intro bs x y _ _ heq
  cases as with
  | nil =>
    cases bs with
    | nil => exact ⟨rfl, by simpa [joined] using heq⟩
    | cons b bs =>
      obtain ⟨c, rest, hb, hcne⟩ := hstart b
      simp only [joined, hb, List.cons_append, List.cons.injEq] at heq
      exact absurd heq.1.symm hcne
  | cons a as =>
    cases bs with
    | nil =>
      obtain ⟨c, rest, ha, hcne⟩ := hstart a
      simp only [joined, ha, List.cons_append, List.cons.injEq] at heq
      exact absurd heq.1 hcne
    | cons b bs =>
      rw [List.forall_mem_cons] at h
      simp only [joined, List.append_assoc] at heq
      obtain ⟨rfl, hrest⟩ := h.1 b _ _ (follows_tail hsep hclose as x)
        (follows_tail hsep hclose bs y) heq
      obtain ⟨rfl, hxy⟩ := (closed_tail hsep hclose hne h.2).unique hrest
      exact ⟨rfl, hxy⟩

end Joined

section Digits

/-- A number that is short enough is known by its digits. -/
theorem eq_of_digits {b k m n : ℕ} (hm : m < b ^ k) (hn : n < b ^ k)
    (h : ∀ i < k, m / b ^ i % b = n / b ^ i % b) : m = n := by
  induction k generalizing m n with
  | zero =>
    rw [pow_zero, Nat.lt_one_iff] at hm hn
    rw [hm, hn]
  | succ k ih =>
    rw [pow_succ'] at hm hn
    have hlow : m % b = n % b := by simpa using h 0 k.succ_pos
    have hhigh : m / b = n / b := by
      refine ih (Nat.div_lt_of_lt_mul hm) (Nat.div_lt_of_lt_mul hn) fun i hi => ?_
      rw [Nat.div_div_eq_div_mul, Nat.div_div_eq_div_mul, ← pow_succ']
      exact h (i + 1) (Nat.succ_lt_succ hi)
    rw [← Nat.div_add_mod m b, ← Nat.div_add_mod n b, hhigh, hlow]

end Digits

end PJS.Codes
