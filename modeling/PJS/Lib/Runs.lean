import Mathlib

/-! Runs of a list: maximal stretches of elements with one image under `f`. A list that is cut
into segments and read back segment by segment is read back as a whole only if every segment is,
as long as no segment grows except by repeating something foreign to it. -/
namespace PJS

namespace Runs

variable {α β : Type*}

section Runs
variable [DecidableEq β] (f : α → β)

/-- The runs of `xs` after a run of `n` elements that started with `current`. -/
def runsFrom (current : α) (n : ℕ) : List α → List (α × ℕ)
  | [] => [(current, n)]
  | x :: xs =>
    if f x = f current then runsFrom current (n + 1) xs else (current, n) :: runsFrom x 1 xs

/-- The first element of every run, and the length of the run. -/
def runsBy : List α → List (α × ℕ)
  | [] => []
  | x :: xs => runsFrom f x 1 xs

theorem flatMap_runsFrom (current : α) (n : ℕ) (xs : List α) :
    (runsFrom f current n xs).flatMap (fun r => List.replicate r.2 (f r.1)) =
      List.replicate n (f current) ++ xs.map f := by
  induction xs generalizing current n with
  | nil => simp [runsFrom]
  | cons x xs ih =>
    unfold runsFrom
    split_ifs with h
    · rw [ih, List.replicate_succ', List.map_cons, h, List.append_assoc, List.singleton_append]
    · rw [List.flatMap_cons, ih]
      rfl

/-- The runs make up the list. -/
theorem flatMap_runsBy (xs : List α) :
    (runsBy f xs).flatMap (fun r => List.replicate r.2 (f r.1)) = xs.map f := by
  cases xs with
  | nil => rfl
  | cons x xs => exact flatMap_runsFrom f x 1 xs

theorem length_runsBy (xs : List α) : ((runsBy f xs).map Prod.snd).sum = xs.length := by
  have h := congrArg List.length (flatMap_runsBy f xs)
  rw [List.length_flatMap, List.length_map] at h
  simpa using h

theorem mem_runsFrom {current : α} {n : ℕ} (hn : 0 < n) {xs : List α} {r : α × ℕ}
    (h : r ∈ runsFrom f current n xs) : (r.1 = current ∨ r.1 ∈ xs) ∧ 0 < r.2 := by
  induction xs generalizing current n with
  | nil =>
    rw [runsFrom, List.mem_singleton] at h
    rw [h]
    exact ⟨Or.inl rfl, hn⟩
  | cons x xs ih =>
    unfold runsFrom at h
    split_ifs at h
    · obtain ⟨hmem, hpos⟩ := ih (Nat.succ_pos n) h
      exact ⟨hmem.imp_right (List.mem_cons_of_mem x), hpos⟩
    · rcases List.mem_cons.mp h with rfl | h
      · exact ⟨Or.inl rfl, hn⟩
      · obtain ⟨hmem, hpos⟩ := ih Nat.one_pos h
        exact ⟨Or.inr (List.mem_cons.mpr hmem), hpos⟩

/-- A run starts with an element of the list and is not empty. -/
theorem mem_runsBy {xs : List α} {r : α × ℕ} (h : r ∈ runsBy f xs) : r.1 ∈ xs ∧ 0 < r.2 := by
  cases xs with
  | nil => cases h
  | cons x xs =>
    obtain ⟨hmem, hpos⟩ := mem_runsFrom f Nat.one_pos h
    exact ⟨List.mem_cons.mpr hmem, hpos⟩

end Runs

section Alignment

/-- `b` is no longer than `a`, or repeats what `a` does not hold. -/
def Shrinks (a b : List β) : Prop :=
  b.length ≤ a.length ∨ ∃ n y, b = List.replicate n y ∧ y ∉ a

variable {a b p as bs : List β}

/-- Where the second list is read against the first, it does not run past `a`. -/
theorem Shrinks.length_le (h : Shrinks a b) (ha : a ≠ []) (heq : p ++ a ++ as = b ++ bs) :
    b.length ≤ a.length ∨ b.length < (p ++ a).length := by
  refine h.imp id ?_
  rintro ⟨n, y, rfl, hy⟩
  by_contra hlt
  have hhead : p ++ a <+: List.replicate n y :=
    List.prefix_of_prefix_length_le (heq ▸ List.prefix_append _ _) (List.prefix_append _ _)
      (not_lt.mp hlt)
  obtain ⟨x, xs, rfl⟩ := List.exists_cons_of_ne_nil ha
  have hx : x = y := List.eq_of_mem_replicate (hhead.subset (by simp))
  exact hy (hx ▸ List.mem_cons_self)

/-- The shorter of two beginnings leaves a rest. -/
theorem exists_rest {xs : List β} (heq : xs ++ as = b ++ bs) (hlt : b.length < xs.length) :
    ∃ rest, rest ≠ [] ∧ rest ++ as = bs := by
  have hhead : b <+: xs ++ as := heq.symm ▸ List.prefix_append b bs
  obtain ⟨rest, rfl⟩ :=
    List.prefix_of_prefix_length_le hhead (List.prefix_append xs as) hlt.le
  refine ⟨rest, ?_, ?_⟩
  · rintro rfl
    simp at hlt
  · rw [List.append_assoc] at heq
    exact List.append_cancel_left heq

/-- What is left over from one segment is never made up for by the next ones. -/
theorem flatten_ne_of_pending {as bs : List (List β)}
    (h : List.Forall₂ (fun a b => a ≠ [] ∧ Shrinks a b) as bs) (hp : p ≠ []) :
    p ++ as.flatten ≠ bs.flatten := by
  induction h generalizing p with
  | nil => simpa using hp
  | @cons a b as bs hab _ ih =>
    intro heq
    rw [List.flatten_cons, List.flatten_cons, ← List.append_assoc] at heq
    have hlt : b.length < (p ++ a).length := by
      have hpos := List.length_pos_of_ne_nil hp
      have hle := hab.2.length_le hab.1 heq
      rw [List.length_append] at hle ⊢
      omega
    obtain ⟨rest, hrest, hcancel⟩ := exists_rest heq hlt
    exact ih hrest hcancel

/-- Segments that are not empty and do not grow agree one by one if they agree as a whole. -/
theorem eq_of_flatten_eq {as bs : List (List β)}
    (h : List.Forall₂ (fun a b => a ≠ [] ∧ Shrinks a b) as bs) (heq : as.flatten = bs.flatten) :
    as = bs := by
  induction h with
  | nil => rfl
  | @cons a b as bs hab htail ih =>
    rw [List.flatten_cons, List.flatten_cons] at heq
    have hle : b.length ≤ a.length := by
      have hle := hab.2.length_le (p := []) hab.1 heq
      rw [List.nil_append] at hle
      omega
    by_cases hlt : b.length < a.length
    · obtain ⟨rest, hrest, hcancel⟩ := exists_rest heq hlt
      exact absurd hcancel (flatten_ne_of_pending htail hrest)
    · obtain ⟨rfl, htail⟩ := List.append_inj heq (by omega)
      rw [ih htail]

/-- The same with both lists of segments made from one list. -/
theorem eq_of_flatMap_eq {ts : List α} {a b : α → List β}
    (h : ∀ t ∈ ts, a t ≠ [] ∧ Shrinks (a t) (b t)) (heq : ts.flatMap a = ts.flatMap b) :
    ∀ t ∈ ts, a t = b t := by
  have hforall : List.Forall₂ (fun a b => a ≠ [] ∧ Shrinks a b) (ts.map a) (ts.map b) := by
    rw [List.forall₂_map_left_iff, List.forall₂_map_right_iff, List.forall₂_same]
    exact h
  have hmap : ts.map a = ts.map b := by
    refine eq_of_flatten_eq hforall ?_
    rw [← List.flatMap_def, ← List.flatMap_def]
    exact heq
  exact List.map_inj_left.mp hmap

end Alignment

end Runs

end PJS
