import Mathlib

/-! Sliding windows over instants. If every instant, at its arrival, has fewer than `n` others that
have not left its window, then no window anywhere holds more than `n` of them. -/
namespace PJS.Window

variable {α : Type*} [LinearOrder α] [Add α] {w t t' u : α} {l : List α}

/-- The instants in the window of width `w` that ends at `t`. -/
def inWindow (w t : α) (l : List α) : List α := l.filter fun u => u ≤ t ∧ t < u + w

/-- The instants that have not left the window at `t`. -/
def recent (w t : α) (l : List α) : List α := l.filter fun u => t < u + w

theorem mem_recent : u ∈ recent w t l ↔ u ∈ l ∧ t < u + w := by
  rw [recent, List.mem_filter, decide_eq_true_eq]

/-- What has left the window does not come back to it. -/
theorem recent_recent (h : t ≤ t') : recent w t' (recent w t l) = recent w t' l := by
  unfold recent
  rw [List.filter_filter]
  refine List.filter_congr fun u _ => ?_
  have himp : t' < u + w → t < u + w := h.trans_lt
  simpa using himp

theorem recent_congr {l' : List α} (h : t ≤ t') (hl : recent w t l = recent w t l') :
    recent w t' l = recent w t' l' := by
  rw [← recent_recent h, hl, recent_recent h]

theorem recent_eq_self (h : ∀ u ∈ l, t < u + w) : recent w t l = l :=
  List.filter_eq_self.mpr fun u hu => decide_eq_true (h u hu)

theorem length_recent_lt (hu : u ∈ l) (h : ¬ t < u + w) : (recent w t l).length < l.length :=
  List.length_filter_lt_length_iff_exists.mpr ⟨u, hu, by simpa using h⟩

theorem recent_append (l l' : List α) : recent w t (l ++ l') = recent w t l ++ recent w t l' :=
  List.filter_append _ _

theorem length_inWindow_concat_le {n : ℕ} (hrecent : (recent w u l).length < n)
    (hwindow : (inWindow w t l).length ≤ n) : (inWindow w t (l ++ [u])).length ≤ n := by
  have happend : inWindow w t (l ++ [u]) = inWindow w t l ++ inWindow w t [u] :=
    List.filter_append _ _
  rw [happend, List.length_append]
  by_cases hu : u ≤ t ∧ t < u + w
  · -- a window that holds `u` holds no more of the others than the window that ends at `u`
    have hsub : (inWindow w t l).length ≤ (recent w u l).length := by
      refine (List.monotone_filter_right l fun x hx => ?_).length_le
      rw [decide_eq_true_eq] at hx ⊢
      exact hu.1.trans_lt hx.2
    have hone : (inWindow w t [u]).length ≤ 1 := List.length_filter_le _ _
    omega
  · have hnone : inWindow w t [u] = [] := by
      rw [inWindow, List.filter_cons_of_neg (by rwa [decide_eq_true_eq]), List.filter_nil]
    rw [hnone]
    exact hwindow

end PJS.Window
