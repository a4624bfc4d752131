import Mathlib

/-! Labelled transition systems given by a guard and a total effect. A trace is a sequence of
labels each of whose guards held when its turn came. -/
namespace PJS

variable {σ ε : Type*}

/-- From the first state the labels, in order, lead to the last. -/
inductive Trace (allowed : σ → ε → Prop) (post : σ → ε → σ) (s : σ) : List ε → σ → Prop
  | nil : Trace allowed post s [] s
  | snoc {es : List ε} {t : σ} {e : ε} (h : Trace allowed post s es t) (he : allowed t e) :
    Trace allowed post s (es ++ [e]) (post t e)

namespace Trace

variable {allowed : σ → ε → Prop} {post : σ → ε → σ} {s t u : σ} {es fs : List ε} {e : ε}

theorem single (he : allowed s e) : Trace allowed post s [e] (post s e) := nil.snoc he

theorem append (h : Trace allowed post s es t) (h' : Trace allowed post t fs u) :
    Trace allowed post s (es ++ fs) u := by
  induction h' with
  | nil => rwa [List.append_nil]
  | snoc _ he ih =>
    rw [← List.append_assoc]
    exact ih.snoc he

theorem cons (he : allowed s e) (h : Trace allowed post (post s e) es t) :
    Trace allowed post s (e :: es) t :=
  (single he).append h

/-- What every label preserves, every trace preserves. -/
theorem invariant {P : σ → Prop} (hstep : ∀ t e, e ∈ es → allowed t e → P t → P (post t e))
    (h : Trace allowed post s es t) (hs : P s) : P t := by
  induction h with
  | nil => exact hs
  | snoc _ he ih =>
    refine hstep _ _ (by simp) he (ih fun t e hmem => ?_)
    exact hstep t e (by simp [hmem])

/-- The guards of the labels hold in turn. -/
def Guarded (allowed : σ → ε → Prop) (post : σ → ε → σ) : σ → List ε → Prop
  | _, [] => True
  | s, e :: es => allowed s e ∧ Guarded allowed post (post s e) es

instance Guarded.decidable [∀ s e, Decidable (allowed s e)] :
    ∀ (s : σ) (es : List ε), Decidable (Guarded allowed post s es)
  | _, [] => isTrue trivial
  | s, e :: es =>
    haveI := Guarded.decidable (post s e) es
    inferInstanceAs (Decidable (allowed s e ∧ Guarded allowed post (post s e) es))

theorem of_guarded (h : Guarded allowed post s es) :
    Trace allowed post s es (es.foldl post s) := by
  induction es generalizing s with
  | nil => exact nil
  | cons e es ih => exact cons h.1 (ih h.2)

/-- Where the guard of a label says exactly whether the label keeps a property, the guards hold in
turn if and only if the property holds in every state on the way. -/
theorem guarded_iff {I P : σ → Prop} (hI : ∀ s e, I s → I (post s e))
    (hstep : ∀ s e, I s → P s → (P (post s e) ↔ allowed s e)) (hs : I s) (hP : P s) :
    Guarded allowed post s es ↔ ∀ pre, pre <+: es → P (pre.foldl post s) := by
  induction es generalizing s with
  | nil =>
    refine iff_of_true trivial fun pre hpre => ?_
    rw [List.prefix_nil.mp hpre]
    exact hP
  | cons e es ih =>
    constructor
    · rintro ⟨he, hrest⟩ pre hpre
      have hpost : P (post s e) := (hstep s e hs hP).mpr he
      rcases List.prefix_cons_iff.mp hpre with rfl | ⟨t, rfl, ht⟩
      · exact hP
      · exact (ih (hI s e hs) hpost).mp hrest t ht
    · intro h
      have hpost : P (post s e) := h [e] (List.prefix_append [e] es)
      refine ⟨(hstep s e hs hP).mp hpost, (ih (hI s e hs) hpost).mpr fun pre hpre => ?_⟩
      exact h (e :: pre) (List.cons_prefix_cons.mpr ⟨rfl, hpre⟩)

end Trace

end PJS
