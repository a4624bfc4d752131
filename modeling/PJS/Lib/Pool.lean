import Mathlib

/-! Calls that run at the same time on a shared state. A step of the pool is a step of one call,
in any order; a call that has ended stays in the pool and takes no further step. -/
namespace PJS

open Relation

structure Pool (σ τ : Type*) where
  shared : σ
  calls : List τ

namespace Pool

variable {σ τ : Type*}

/-- A new call begins, or a call that is under way takes its next step. -/
inductive Step (start : τ → Prop) (step : σ → τ → σ → τ → Prop) : Pool σ τ → Pool σ τ → Prop
  | start {s : σ} {calls : List τ} {t : τ} (h : start t) :
    Step start step ⟨s, calls⟩ ⟨s, calls ++ [t]⟩
  | step {s s' : σ} {l r : List τ} {t t' : τ} (h : step s t s' t') :
    Step start step ⟨s, l ++ t :: r⟩ ⟨s', l ++ t' :: r⟩

variable {start : τ → Prop} {step : σ → τ → σ → τ → Prop} {G : σ → Prop} {L : σ → τ → Prop}
  {R : τ → τ → Prop}

theorem Step.mono {start' : τ → Prop} {step' : σ → τ → σ → τ → Prop} {p q : Pool σ τ}
    (hstart : ∀ t, start t → start' t) (hstep : ∀ {s t s' t'}, step s t s' t' → step' s t s' t')
    (h : Step start step p q) : Step start' step' p q := by
  cases h with
  | start h => exact .start (hstart _ h)
  | step h => exact .step (hstep h)

/-- The shared state, every call and every two calls are as they should be. -/
structure Holds (G : σ → Prop) (L : σ → τ → Prop) (R : τ → τ → Prop) (p : Pool σ τ) : Prop where
  shared : G p.shared
  calls : ∀ t ∈ p.calls, L p.shared t
  apart : p.calls.Pairwise R

theorem holds_nil {s : σ} (h : G s) : Holds G L R ⟨s, []⟩ := ⟨h, by simp, List.Pairwise.nil⟩

theorem Holds.concat {s : σ} {calls : List τ} {t : τ} (hp : Holds G L R ⟨s, calls⟩) (hL : L s t)
    (hR : ∀ u ∈ calls, R u t) : Holds G L R ⟨s, calls ++ [t]⟩ := by
  refine ⟨hp.shared, fun u hu => ?_, ?_⟩
  · rcases List.mem_append.mp hu with hu | hu
    · exact hp.calls u hu
    · rw [List.mem_singleton.mp hu]
      exact hL
  · rw [List.pairwise_append]
    refine ⟨hp.apart, List.pairwise_singleton R _, fun u hu v hv => ?_⟩
    rw [List.mem_singleton.mp hv]
    exact hR u hu

theorem Holds.splice {s s' : σ} {l r : List τ} {t t' : τ} (symm : ∀ {t u}, R t u → R u t)
    (hp : Holds G L R ⟨s, l ++ t :: r⟩) (hG : G s') (hL : L s' t')
    (hother : ∀ u ∈ l ++ r, L s u → R t u → L s' u ∧ R t' u) :
    Holds G L R ⟨s', l ++ t' :: r⟩ := by
  have hpair := hp.apart
  rw [List.pairwise_middle symm, List.pairwise_cons] at hpair
  have hkept : ∀ u ∈ l ++ r, L s' u ∧ R t' u := fun u hu => by
    have hmem : u ∈ l ++ t :: r := List.mem_append.mpr
      ((List.mem_append.mp hu).imp_right (List.mem_cons_of_mem t))
    exact hother u hu (hp.calls u hmem) (hpair.1 u hu)
  refine ⟨hG, fun u hu => ?_, ?_⟩
  · rcases List.mem_append.mp hu with hu | hu
    · exact (hkept u (List.mem_append_left r hu)).1
    · rcases List.mem_cons.mp hu with rfl | hu
      · exact hL
      · exact (hkept u (List.mem_append_right l hu)).1
  · rw [List.pairwise_middle symm, List.pairwise_cons]
    exact ⟨fun u hu => (hkept u hu).2, hpair.2⟩

/-- A call keeps what concerns itself, and its steps do not interfere with the other calls. -/
structure Outline (start : τ → Prop) (step : σ → τ → σ → τ → Prop) (G : σ → Prop)
    (L : σ → τ → Prop) (R : τ → τ → Prop) : Prop where
  symm : ∀ {t u}, R t u → R u t
  begins : ∀ {s t}, G s → start t → L s t
  begins_apart : ∀ {s t u}, start t → L s u → R u t
  own : ∀ {s t s' t'}, G s → L s t → step s t s' t' → G s' ∧ L s' t'
  other : ∀ {s t s' t' u}, G s → L s t → L s u → R t u → step s t s' t' → L s' u ∧ R t' u

namespace Outline

variable (o : Outline start step G L R)
include o

theorem step_holds {p q : Pool σ τ} (hp : Holds G L R p) (h : Step start step p q) :
    Holds G L R q := by
  cases h with
  | start h => exact hp.concat (o.begins hp.shared h) fun u hu => o.begins_apart h (hp.calls u hu)
  | @step s s' l r t t' h =>
    have hmiddle : L s t := hp.calls t (by simp)
    obtain ⟨hshared, hown⟩ := o.own hp.shared hmiddle h
    exact hp.splice o.symm hshared hown fun u _ hu hR => o.other hp.shared hmiddle hu hR h

theorem reachable {p q : Pool σ τ} (hp : Holds G L R p)
    (h : ReflTransGen (Step start step) p q) : Holds G L R q := by
  induction h with
  | refl => exact hp
  | tail _ hstep ih => exact o.step_holds ih hstep

/-- A pool each of whose steps is a step of another one, or changes nothing there, keeps what the
other keeps, and may rely on it for what it keeps beside. -/
theorem refine {σ' τ' : Type*} {start' : τ' → Prop} {step' : σ' → τ' → σ' → τ' → Prop}
    {G' : σ' → Prop} {L' : σ' → τ' → Prop} (g : σ' → σ) (f : τ' → τ)
    (hstart : ∀ t, start' t → start (f t))
    (hstep : ∀ s t s' t', step' s t s' t' →
      step (g s) (f t) (g s') (f t') ∨ g s' = g s ∧ f t' = f t)
    (hbegins : ∀ s t, start' t → L' s t)
    (hown : ∀ s t s' t', G (g s) → L (g s) (f t) → G' s → L' s t → step' s t s' t' →
      G' s' ∧ L' s' t')
    (hother : ∀ s t s' t' u, G (g s) → L (g s) (f t) → G' s → L' s t → L' s u → step' s t s' t' →
      L' s' u) :
    Outline start' step' (fun s => G (g s) ∧ G' s) (fun s t => L (g s) (f t) ∧ L' s t)
      (fun t u => R (f t) (f u)) where
  symm := o.symm
  begins := fun hs ht => ⟨o.begins hs.1 (hstart _ ht), hbegins _ _ ht⟩
  begins_apart := fun ht hu => o.begins_apart (hstart _ ht) hu.1
  own := fun {s t s' t'} hs ht h => by
    obtain ⟨hG', hL'⟩ := hown s t s' t' hs.1 ht.1 hs.2 ht.2 h
    rcases hstep s t s' t' h with h | ⟨hg, hf⟩
    · obtain ⟨hG, hL⟩ := o.own hs.1 ht.1 h
      exact ⟨⟨hG, hG'⟩, hL, hL'⟩
    · exact ⟨⟨hg ▸ hs.1, hG'⟩, hg ▸ hf ▸ ht.1, hL'⟩
  other := fun {s t s' t' u} hs ht hu hR h => by
    have hkept := hother s t s' t' u hs.1 ht.1 hs.2 ht.2 hu.2 h
    rcases hstep s t s' t' h with h | ⟨hg, hf⟩
    · obtain ⟨hL, hapart⟩ := o.other hs.1 ht.1 hu.1 hR h
      exact ⟨⟨hL, hkept⟩, hapart⟩
    · exact ⟨⟨hg ▸ hu.1, hkept⟩, hf ▸ hR⟩

end Outline

/-- As `Step`, but a call takes its step only where every other call lets it. -/
inductive Guarded (start : τ → Prop) (step : σ → τ → σ → τ → Prop) (clear : σ → τ → τ → Prop) :
    Pool σ τ → Pool σ τ → Prop
  | start {s : σ} {calls : List τ} {t : τ} (h : start t) :
    Guarded start step clear ⟨s, calls⟩ ⟨s, calls ++ [t]⟩
  | step {s s' : σ} {l r : List τ} {t t' : τ} (h : step s t s' t')
    (hclear : ∀ u ∈ l ++ r, clear s t u) :
    Guarded start step clear ⟨s, l ++ t :: r⟩ ⟨s', l ++ t' :: r⟩

theorem Guarded.unguarded {clear : σ → τ → τ → Prop} {p q : Pool σ τ}
    (h : Guarded start step clear p q) : Step start step p q := by
  cases h with
  | start h => exact .start h
  | step h => exact .step h

/-- As `Outline`, where the other calls may rely on having let the step be taken. -/
structure GuardedOutline (start : τ → Prop) (step : σ → τ → σ → τ → Prop)
    (clear : σ → τ → τ → Prop) (G : σ → Prop) (L : σ → τ → Prop) (R : τ → τ → Prop) : Prop where
  symm : ∀ {t u}, R t u → R u t
  begins : ∀ {s t}, G s → start t → L s t
  begins_apart : ∀ {s t u}, start t → L s u → R u t
  own : ∀ {s t s' t'}, G s → L s t → step s t s' t' → G s' ∧ L s' t'
  other : ∀ {s t s' t' u}, G s → L s t → L s u → R t u → clear s t u → step s t s' t' →
    L s' u ∧ R t' u

namespace GuardedOutline

variable {clear : σ → τ → τ → Prop} (o : GuardedOutline start step clear G L R)
include o

theorem step_holds {p q : Pool σ τ} (hp : Holds G L R p) (h : Guarded start step clear p q) :
    Holds G L R q := by
  cases h with
  | start h => exact hp.concat (o.begins hp.shared h) fun u hu => o.begins_apart h (hp.calls u hu)
  | @step s s' l r t t' h hclear =>
    have hmiddle : L s t := hp.calls t (by simp)
    obtain ⟨hshared, hown⟩ := o.own hp.shared hmiddle h
    exact hp.splice o.symm hshared hown fun u hmem hu hR =>
      o.other hp.shared hmiddle hu hR (hclear u hmem) h

theorem reachable {p q : Pool σ τ} (hp : Holds G L R p)
    (h : ReflTransGen (Guarded start step clear) p q) : Holds G L R q := by
  induction h with
  | refl => exact hp
  | tail _ hstep ih => exact o.step_holds ih hstep

end GuardedOutline

theorem sum_map_middle {M : Type*} [AddCommMonoid M] (share : τ → M) (l r : List τ) (t : τ) :
    ((l ++ t :: r).map share).sum = share t + ((l ++ r).map share).sum := by
  rw [List.map_append, List.sum_append, List.map_cons, List.sum_cons, add_left_comm,
    ← List.sum_append, ← List.map_append]

/-- What a step does to the share of its call and to the shared state decides what holds of the
shares of all calls together. -/
theorem sum_step {M : Type*} [AddCommMonoid M] (share : τ → M) (P : σ → M → Prop)
    (hstart : ∀ t, start t → share t = 0)
    (hstep : ∀ s t s' t' (rest : M), G s → L s t → step s t s' t' → P s (share t + rest) →
      P s' (share t' + rest))
    {p q : Pool σ τ} (hp : Holds G L R p) (h : Step start step p q)
    (hP : P p.shared (p.calls.map share).sum) : P q.shared (q.calls.map share).sum := by
  cases h with
  | start h =>
    rw [List.map_append, List.sum_append, List.map_singleton, List.sum_singleton, hstart _ h,
      add_zero]
    exact hP
  | @step s s' l r t t' h =>
    rw [sum_map_middle] at hP ⊢
    exact hstep _ _ _ _ _ hp.shared (hp.calls t (by simp)) h hP

/-- What the calls have obtained is what the log holds, when a step that obtains something appends
it. -/
theorem logged_perm {γ : Type*} (obtained : τ → Option γ) (log : σ → List γ)
    (hstart : ∀ t, start t → obtained t = none)
    (hstep : ∀ s t s' t', step s t s' t' → (obtained t' = obtained t ∧ log s' = log s) ∨
      obtained t = none ∧ ∃ x, obtained t' = some x ∧ log s' = log s ++ [x])
    {p q : Pool σ τ} (h : ReflTransGen (Step start step) p q)
    (hp : (p.calls.filterMap obtained).Perm (log p.shared)) :
    (q.calls.filterMap obtained).Perm (log q.shared) := by
  induction h with
  | refl => exact hp
  | tail _ hlast ih =>
    cases hlast with
    | @start s calls t ht =>
      rw [List.filterMap_append, List.filterMap_cons_none (hstart t ht), List.filterMap_nil,
        List.append_nil]
      exact ih
    | @step s s' l r t t' ht =>
      rw [List.filterMap_append] at ih ⊢
      rcases hstep s t s' t' ht with ⟨hsame, hlog⟩ | ⟨hnone, x, hsome, hlog⟩
      · have htail : (t' :: r).filterMap obtained = (t :: r).filterMap obtained := by
          rw [List.filterMap_cons, List.filterMap_cons, hsame]
        rw [htail, hlog]
        exact ih
      · rw [List.filterMap_cons_none hnone] at ih
        rw [List.filterMap_cons_some hsome, hlog]
        calc (l.filterMap obtained ++ x :: r.filterMap obtained).Perm
              (x :: (l.filterMap obtained ++ r.filterMap obtained)) := List.perm_middle
          _ |>.Perm (x :: log s) := ih.cons x
          _ |>.Perm (log s ++ [x]) := (List.perm_append_singleton x (log s)).symm

section Maps
variable {τ' : Type*} {start' : τ' → Prop} {step' : σ → τ' → σ → τ' → Prop}

/-- Calls of another kind may run beside, if they leave the shared state as it is: without them
the run is one of the others. -/
theorem filterMap_reachable (pick : τ' → Option τ)
    (hstart : ∀ t u, start' t → pick t = some u → start u)
    (hstep : ∀ s t s' t', step' s t s' t' →
      (∃ u u', pick t = some u ∧ pick t' = some u' ∧ step s u s' u') ∨ s' = s ∧ pick t' = pick t)
    {p q : Pool σ τ'} (h : ReflTransGen (Step start' step') p q) :
    ReflTransGen (Step start step) ⟨p.shared, p.calls.filterMap pick⟩
      ⟨q.shared, q.calls.filterMap pick⟩ := by
  induction h with
  | refl => exact .refl
  | tail _ hlast ih =>
    cases hlast with
    | @start s calls t ht =>
      cases hpick : pick t with
      | none =>
        rw [List.filterMap_append, List.filterMap_cons_none hpick, List.filterMap_nil,
          List.append_nil]
        exact ih
      | some u =>
        rw [List.filterMap_append, List.filterMap_cons_some hpick, List.filterMap_nil]
        exact ih.tail (.start (hstart t u ht hpick))
    | @step s s' l r t t' ht =>
      rcases hstep s t s' t' ht with ⟨u, u', hu, hu', hmoved⟩ | ⟨rfl, hsame⟩
      · rw [List.filterMap_append, List.filterMap_cons_some hu] at ih
        rw [List.filterMap_append, List.filterMap_cons_some hu']
        exact ih.tail (.step hmoved)
      · have hcalls : (t' :: r).filterMap pick = (t :: r).filterMap pick := by
          rw [List.filterMap_cons, List.filterMap_cons, hsame]
        rw [List.filterMap_append] at ih ⊢
        rw [hcalls]
        exact ih

theorem map_reachable (f : τ → τ') (hstart : ∀ t, start t → start' (f t))
    (hstep : ∀ s t s' t', step s t s' t' → step' s (f t) s' (f t')) {p q : Pool σ τ}
    (h : ReflTransGen (Step start step) p q) :
    ReflTransGen (Step start' step') ⟨p.shared, p.calls.map f⟩ ⟨q.shared, q.calls.map f⟩ := by
  induction h with
  | refl => exact .refl
  | tail _ hlast ih =>
    refine ih.tail ?_
    cases hlast with
    | start ht =>
      rw [List.map_append]
      exact .start (hstart _ ht)
    | step ht =>
      rw [List.map_append, List.map_append]
      exact .step (hstep _ _ _ _ ht)

end Maps

end Pool

end PJS
