import PJS.Lib.Puts

/-! Locations in a document. An edit of one node leaves everything beside it as it was, and above it
the same nodes with the same places below them. -/
namespace PJS.Doc

variable {κ σ : Type}

/-- What a node is, apart from what is below it. -/
inductive Label (κ σ : Type) where
  | scalar (s : σ)
  | array (n : ℕ)
  | object (keys : List κ)

def label : Doc κ σ → Label κ σ
  | .scalar s => .scalar s
  | .array xs => .array xs.length
  | .object m => .object (m.map Prod.fst)

section Agreement
variable [DecidableEq κ]

/-- Two documents that may differ at and below `p` only. -/
structure AgreeOutside (p : List (Step κ)) (d d' : Doc κ σ) : Prop where
  beside : ∀ q, ¬ p <+: q → ¬ q <+: p → get? q d' = get? q d
  above : ∀ q, q <+: p → q ≠ p → (get? q d').map label = (get? q d).map label

theorem agreeOutside_nil (d d' : Doc κ σ) : AgreeOutside [] d d' := by
  constructor
  · intro q hq
    exact absurd List.nil_prefix hq
  · intro q hq hne
    exact absurd (List.prefix_nil.mp hq) hne

/-- A step that leads elsewhere, or on, from a node that keeps its label. -/
theorem AgreeOutside.cons {s : Step κ} {p : List (Step κ)} {d d' c c' : Doc κ σ}
    (hl : label d' = label d) (hc : get? [s] d = some c) (hc' : get? [s] d' = some c')
    (hs : ∀ t q, t ≠ s → get? (t :: q) d' = get? (t :: q) d) (h : AgreeOutside p c c') :
    AgreeOutside (s :: p) d d' := by
  have hgo : ∀ q, get? (s :: q) d' = get? q c' ∧ get? (s :: q) d = get? q c := by
    intro q
    have hq' := get?_append [s] q d'
    have hq := get?_append [s] q d
    rw [hc', Option.bind_some] at hq'
    rw [hc, Option.bind_some] at hq
    exact ⟨hq', hq⟩
  constructor
  · intro q hpq hqp
    cases q with
    | nil => exact absurd List.nil_prefix hqp
    | cons t q =>
      by_cases ht : t = s
      · subst ht
        rw [(hgo q).1, (hgo q).2]
        refine h.beside q ?_ ?_
        · intro hp
          exact hpq (List.cons_prefix_cons.mpr ⟨rfl, hp⟩)
        · intro hq
          exact hqp (List.cons_prefix_cons.mpr ⟨rfl, hq⟩)
      · exact hs t q ht
  · intro q hqp hne
    cases q with
    | nil => exact congrArg some hl
    | cons t q =>
      obtain ⟨rfl, hq⟩ := List.cons_prefix_cons.mp hqp
      rw [(hgo q).1, (hgo q).2]
      exact h.above q hq fun heq => hne (by rw [heq])

variable {f : Doc κ σ → Option (Doc κ σ)}

theorem modify?_append (p q : List (Step κ)) (d : Doc κ σ) :
    modify? (p ++ q) f d = modify? p (modify? q f) d := by
  induction p generalizing d with
  | nil => rfl
  | cons s p ih =>
    rcases s with k | i <;> rcases d with a | xs | m
    case key.object => simp only [List.cons_append, modify?, ih]
    case index.array => simp only [List.cons_append, modify?, ih]
    all_goals rfl

/-- An edit that goes through has found its node, replaced it and left the rest. -/
theorem modify?_eq_some {p : List (Step κ)} {d d' : Doc κ σ} (h : modify? p f d = some d') :
    ∃ c c', get? p d = some c ∧ f c = some c' ∧ get? p d' = some c' ∧ AgreeOutside p d d' := by
  induction p generalizing d d' with
  | nil => exact ⟨d, d', rfl, h, rfl, agreeOutside_nil d d'⟩
  | cons s p ih =>
    rcases s with k | i <;> rcases d with a | xs | m <;> try cases h
    case key.object =>
      simp only [modify?, Option.bind_eq_bind, Option.bind_eq_some_iff, Option.some.injEq] at h
      obtain ⟨e, he, e', he', rfl⟩ := h
      obtain ⟨c, c', hc, hf, hc', hag⟩ := ih he'
      have hk : (Assoc.replace k e' m).lookup k = some e' := by
        rw [Assoc.lookup_replace, if_pos rfl, he, Option.map_some]
      refine ⟨c, c', ?_, hf, ?_, ?_⟩
      · rw [get?, he, Option.bind_some, hc]
      · rw [get?, hk, Option.bind_some, hc']
      · have hold : get? [.key k] (.object m : Doc κ σ) = some e := by
          rw [get?, he]
          rfl
        have hnew : get? [.key k] (.object (Assoc.replace k e' m) : Doc κ σ) = some e' := by
          rw [get?, hk]
          rfl
        refine .cons ?_ hold hnew ?_ hag
        · exact congrArg Label.object (Assoc.keys_replace k e' m)
        · intro t q ht
          rcases t with j | j
          · have hj : j ≠ k := fun heq => ht (by rw [heq])
            rw [get?, get?, Assoc.lookup_replace, if_neg hj]
          · rfl
    case index.array =>
      simp only [modify?, Option.bind_eq_bind, Option.bind_eq_some_iff, Option.some.injEq] at h
      obtain ⟨e, he, e', he', rfl⟩ := h
      obtain ⟨c, c', hc, hf, hc', hag⟩ := ih he'
      have hi := (List.getElem?_eq_some_iff.mp he).1
      refine ⟨c, c', ?_, hf, ?_, ?_⟩
      · rw [get?, he, Option.bind_some, hc]
      · rw [get?, List.getElem?_set_self hi, Option.bind_some, hc']
      · have hold : get? [.index i] (.array xs : Doc κ σ) = some e := by
          rw [get?, he]
          rfl
        have hnew : get? [.index i] (.array (xs.set i e') : Doc κ σ) = some e' := by
          rw [get?, List.getElem?_set_self hi]
          rfl
        refine .cons ?_ hold hnew ?_ hag
        · exact congrArg Label.array List.length_set
        · intro t q ht
          rcases t with j | j
          · rfl
          · have hj : i ≠ j := fun heq => ht (by rw [heq])
            rw [get?, get?, List.getElem?_set_ne hj]

theorem modify?_of_get? {p : List (Step κ)} {d c c' : Doc κ σ} (hc : get? p d = some c)
    (hf : f c = some c') : ∃ d', modify? p f d = some d' := by
  induction p generalizing d with
  | nil =>
    cases hc
    exact ⟨c', hf⟩
  | cons s p ih =>
    rcases s with k | i <;> rcases d with a | xs | m <;> try cases hc
    case key.object =>
      obtain ⟨e, he, hget⟩ := Option.bind_eq_some_iff.mp hc
      obtain ⟨e', he'⟩ := ih hget
      exact ⟨_, by rw [modify?, he, Option.bind_eq_bind, Option.bind_some, he']; rfl⟩
    case index.array =>
      obtain ⟨e, he, hget⟩ := Option.bind_eq_some_iff.mp hc
      obtain ⟨e', he'⟩ := ih hget
      exact ⟨_, by rw [modify?, he, Option.bind_eq_bind, Option.bind_some, he']; rfl⟩

/-- An edit depends on what it does to its node. -/
theorem modify?_congr {g : Doc κ σ → Option (Doc κ σ)} {p : List (Step κ)} {d c : Doc κ σ}
    (hc : get? p d = some c) (h : f c = g c) : modify? p f d = modify? p g d := by
  induction p generalizing d with
  | nil =>
    cases hc
    exact h
  | cons s p ih =>
    rcases s with k | i <;> rcases d with a | xs | m <;> try cases hc
    case key.object =>
      obtain ⟨e, he, hget⟩ := Option.bind_eq_some_iff.mp hc
      simp only [modify?, he, Option.bind_eq_bind, Option.bind_some, ih hget]
    case index.array =>
      obtain ⟨e, he, hget⟩ := Option.bind_eq_some_iff.mp hc
      simp only [modify?, he, Option.bind_eq_bind, Option.bind_some, ih hget]

/-- What is left of a node when the place that a step leads to is removed: an object loses the
entry, an array the element, and its later elements move up. -/
def eraseStep : Step κ → Doc κ σ → Option (Doc κ σ)
  | .key k, .object m =>
    if k ∈ m.map Prod.fst then some (.object (m.filter fun e => e.1 ≠ k)) else none
  | .index i, .array xs => if i < xs.length then some (.array (xs.eraseIdx i)) else none
  | _, _ => none

/-- Of two documents the second is the first without the location `p`. -/
def Removed (p : List (Step κ)) (d d' : Doc κ σ) : Prop :=
  ∃ q s c c', p = q ++ [s] ∧ get? q d = some c ∧ eraseStep s c = some c' ∧ get? q d' = some c' ∧
    AgreeOutside q d d'

end Agreement

/-- All elements from the one index to the other are equal. -/
def Level {α : Type} (xs : List α) (i j : ℕ) : Prop :=
  ∀ k, min i j ≤ k → k < max i j → xs[k + 1]? = xs[k]?

/-- Removing either of two elements comes to the same just where the list is level between them. -/
theorem eraseIdx_eq_iff {α : Type} {xs : List α} {i j : ℕ} :
    xs.eraseIdx i = xs.eraseIdx j ↔ Level xs i j := by
  constructor
  · intro h k hmin hmax
    have hk : (xs.eraseIdx i)[k]? = (xs.eraseIdx j)[k]? := by rw [h]
    rw [List.getElem?_eraseIdx, List.getElem?_eraseIdx] at hk
    rcases le_total i j with hij | hij
    · rw [min_eq_left hij] at hmin
      rw [max_eq_right hij] at hmax
      rwa [if_neg (by omega), if_pos hmax] at hk
    · rw [min_eq_right hij] at hmin
      rw [max_eq_left hij] at hmax
      rw [if_pos hmax, if_neg (by omega)] at hk
      exact hk.symm
  · intro h
    apply List.ext_getElem?
    intro k
    rw [List.getElem?_eraseIdx, List.getElem?_eraseIdx]
    split_ifs with hi hj hj
    · rfl
    · exact (h k (by omega) (by omega)).symm
    · exact h k (by omega) (by omega)
    · rfl

end PJS.Doc
