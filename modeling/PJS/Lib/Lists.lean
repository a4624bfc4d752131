import Mathlib

/-! Chunking and stable sorting of lists. A stable sort is used through two facts only:
the result is an ordered permutation, and a sublist that is already in order survives as it is. -/
namespace PJS.Lists

theorem map_eq_self_iff {α : Type*} {f : α → α} {l : List α} :
    l.map f = l ↔ ∀ a ∈ l, f a = a := by
  conv_lhs => rhs; rw [← List.map_id l]
  exact List.map_inj_left

/-- A change of one element that a function does not see. -/
theorem map_modify_eq {α β : Type*} {g : α → β} {f : α → α} (h : ∀ a, g (f a) = g a)
    (l : List α) (i : ℕ) : (l.modify i f).map g = l.map g := by
  induction l generalizing i with
  | nil => rw [List.modify_nil]
  | cons a l ih =>
    cases i with
    | zero => rw [List.modify_zero_cons, List.map_cons, List.map_cons, h]
    | succ i => rw [List.modify_succ_cons, List.map_cons, List.map_cons, ih]

/-- Increasing numbers that fill their range are all the numbers of the range. -/
theorem eq_range'_of_pairwise {l : List ℕ} {a : ℕ} (h : l.Pairwise (· < ·))
    (hl : ∀ x ∈ l, a ≤ x ∧ x < a + l.length) : l = List.range' a l.length := by
  have hsubset : l ⊆ List.range' a l.length := fun x hx => List.mem_range'_1.mpr (hl x hx)
  have hnodup : l.Nodup := h.imp fun hlt => hlt.ne
  have hperm : l.Perm (List.range' a l.length) :=
    (List.subperm_of_subset hnodup hsubset).perm_of_length_le (by rw [List.length_range'])
  exact hperm.eq_of_pairwise (fun x y _ _ hxy hyx => absurd hyx hxy.asymm) h
    List.pairwise_lt_range'

section Pairs
variable {α β : Type*} {R : α → β → Prop} {P : α → Prop} {Q : β → Prop} {l : List α} {l' : List β}

/-- What means the same for related elements holds throughout both lists or neither. -/
theorem forall_mem_iff_of_forall₂ (h : List.Forall₂ R l l')
    (hR : ∀ a ∈ l, ∀ b, R a b → (P a ↔ Q b)) : (∀ a ∈ l, P a) ↔ ∀ b ∈ l', Q b := by
  induction h with
  | nil => simp
  | @cons a b l l' hab _ ih =>
    rw [List.forall_mem_cons, List.forall_mem_cons, hR a List.mem_cons_self b hab,
      ih fun a' ha' => hR a' (List.mem_cons_of_mem a ha')]

theorem exists_of_mem_right (h : List.Forall₂ R l l') {b : β} (hb : b ∈ l') : ∃ a ∈ l, R a b := by
  induction h with
  | nil => cases hb
  | @cons a b' l l' hab _ ih =>
    rcases List.mem_cons.mp hb with rfl | hb
    · exact ⟨a, List.mem_cons_self, hab⟩
    · obtain ⟨a', ha', hR⟩ := ih hb
      exact ⟨a', List.mem_cons_of_mem a ha', hR⟩

end Pairs

section Chunks
variable {α : Type*}

private theorem toChunks_go_flatten (n : ℕ) (xs : List α) (acc : Array α) (done : Array (List α)) :
    (List.toChunks.go n xs acc done).flatten = done.toList.flatten ++ (acc.toList ++ xs) := by
  induction xs generalizing acc done with
  | nil => simp [List.toChunks.go]
  | cons x xs ih =>
    rw [List.toChunks.go]
    split <;> simp [ih]

/-- Chunking loses nothing and keeps the order. -/
@[simp] theorem flatten_toChunks (n : ℕ) (l : List α) : (l.toChunks n).flatten = l := by
  cases l with
  | nil => cases n <;> rfl
  | cons x xs =>
    cases n with
    | zero => simp [List.toChunks]
    | succ n => simp [List.toChunks, toChunks_go_flatten]

private theorem toChunks_go_ne_nil (n : ℕ) (xs : List α) (acc : Array α) (done : Array (List α))
    (ha : acc.toList ≠ []) (hd : ∀ c ∈ done.toList, c ≠ []) :
    ∀ c ∈ List.toChunks.go n xs acc done, c ≠ [] := by
  induction xs generalizing acc done with
  | nil =>
    intro c hc
    rw [List.toChunks.go, Array.toList_push, List.mem_append, List.mem_singleton] at hc
    rcases hc with hc | rfl
    · exact hd c hc
    · exact ha
  | cons x xs ih =>
    rw [List.toChunks.go]
    split
    · refine ih _ _ (by simp) fun c hc => ?_
      rw [Array.toList_push, List.mem_append, List.mem_singleton] at hc
      rcases hc with hc | rfl
      · exact hd c hc
      · exact ha
    · exact ih _ _ (by simp) hd

theorem ne_nil_of_mem_toChunks {n : ℕ} {l c : List α} (hc : c ∈ l.toChunks n) : c ≠ [] := by
  cases l with
  | nil => cases n <;> simp [List.toChunks] at hc
  | cons x xs =>
    cases n with
    | zero =>
      have he : c = x :: xs := by simpa [List.toChunks] using hc
      simp [he]
    | succ n => exact toChunks_go_ne_nil _ xs #[x] #[] (by simp) (by simp) c hc

private theorem length_toChunks_go {n : ℕ} (hn : 0 < n) (xs : List α) (acc : Array α)
    (done : Array (List α)) (hpos : 0 < acc.size) (hle : acc.size ≤ n) :
    (List.toChunks.go n xs acc done).length = done.size + (acc.size + xs.length + n - 1) / n := by
  induction xs generalizing acc done with
  | nil =>
    have hdiv : (acc.size + 0 + n - 1) / n = 1 := by
      rw [Nat.div_eq_iff hn]
      omega
    rw [List.toChunks.go, List.length_nil, hdiv]
    simp
  | cons x xs ih =>
    rw [List.toChunks.go]
    split
    · rename_i hfull
      have hfull : acc.size = n := by simpa using hfull
      have hdiv : (acc.size + (xs.length + 1) + n - 1) / n = (1 + xs.length + n - 1) / n + 1 := by
        rw [← Nat.add_div_right _ hn]
        congr 1
        omega
      have hone : ((Array.mkEmpty n).push x).size = 1 := by simp
      rw [ih _ _ (by omega) (by omega), hone, Array.size_push, List.length_cons, hdiv]
      omega
    · rename_i hroom
      have hroom : acc.size ≠ n := by simpa using hroom
      rw [ih _ _ (by simp) (by rw [Array.size_push]; omega), Array.size_push, List.length_cons]
      congr 3
      omega

theorem length_toChunks {n : ℕ} (hn : 0 < n) (l : List α) :
    (l.toChunks n).length = (l.length + n - 1) / n := by
  cases l with
  | nil =>
    have hdiv : (([] : List α).length + n - 1) / n = 0 :=
      Nat.div_eq_of_lt (by rw [List.length_nil]; omega)
    rw [hdiv]
    cases n <;> rfl
  | cons x xs =>
    cases n with
    | zero => omega
    | succ n =>
      rw [List.toChunks, length_toChunks_go hn xs #[x] #[] (by simp) (by simp)]
      · simp only [List.size_toArray, List.length_nil, List.length_cons, Nat.zero_add]
        congr 2
        omega
      · exact Nat.succ_ne_zero n

end Chunks

section StableSort
variable {α β : Type*} [LinearOrder β]

/-- Stable sort by descending key. -/
def sortDesc (key : α → β) (l : List α) : List α :=
  l.insertionSort fun a b => key b ≤ key a

private instance totalDesc (key : α → β) : Std.Total fun a b => key b ≤ key a :=
  ⟨fun a b => le_total (key b) (key a)⟩

private instance transDesc (key : α → β) : IsTrans α fun a b => key b ≤ key a :=
  ⟨fun _ _ _ hab hbc => hbc.trans hab⟩

theorem sortDesc_perm (key : α → β) (l : List α) : (sortDesc key l).Perm l :=
  List.perm_insertionSort _ l

/-- A change that keeps the keys commutes with the sort. -/
theorem map_sortDesc {γ : Type*} {key : α → β} {key' : γ → β} {f : α → γ}
    (h : ∀ a, key' (f a) = key a) (l : List α) :
    (sortDesc key l).map f = sortDesc key' (l.map f) :=
  List.map_insertionSort _ _ f l fun a _ b _ => by rw [h, h]

@[simp] theorem mem_sortDesc {key : α → β} {l : List α} {a : α} : a ∈ sortDesc key l ↔ a ∈ l :=
  (sortDesc_perm key l).mem_iff

theorem pairwise_sortDesc (key : α → β) (l : List α) :
    (sortDesc key l).Pairwise fun a b => key b ≤ key a :=
  List.pairwise_insertionSort _ l

/-- Stability: the elements picked by `p` keep their relative order when they are already
in descending order among themselves. -/
theorem filter_sortDesc {key : α → β} {l : List α} {p : α → Bool}
    (h : (l.filter p).Pairwise fun a b => key b ≤ key a) :
    (sortDesc key l).filter p = l.filter p := by
  have hs : (l.filter p).Sublist (sortDesc key l) :=
    List.sublist_insertionSort h List.filter_sublist
  have hf : (l.filter p).Sublist ((sortDesc key l).filter p) := by
    simpa using hs.filter p
  have hl : ((sortDesc key l).filter p).length = (l.filter p).length :=
    ((sortDesc_perm key l).filter p).length_eq
  exact (hf.eq_of_length hl.symm).symm

/-- The list `l'` is `l` with the larger keys first and equal keys in the order they had. -/
structure StableSortDesc (key : α → β) (l l' : List α) : Prop where
  perm : l'.Perm l
  sorted : l'.Pairwise fun a b => key b ≤ key a
  stable : ∀ k, l'.filter (fun a => key a = k) = l.filter fun a => key a = k

theorem stableSortDesc_sortDesc (key : α → β) (l : List α) :
    StableSortDesc key l (sortDesc key l) := by
  refine ⟨sortDesc_perm key l, pairwise_sortDesc key l, fun k => filter_sortDesc ?_⟩
  refine List.pairwise_of_forall_mem_list fun x hx y hy => ?_
  simp only [List.mem_filter, decide_eq_true_eq] at hx hy
  rw [hx.2, hy.2]

/-- A relation that holds in order survives the sort, if a pair it rules out never has to swap. -/
theorem pairwise_sortDesc_of_pairwise {key : α → β} {l : List α} {R : α → α → Prop}
    (h : l.Pairwise R) (hkey : ∀ a ∈ l, ∀ b ∈ l, ¬ R b a → key b ≤ key a) :
    (sortDesc key l).Pairwise R := by
  rw [List.pairwise_iff_forall_sublist]
  intro a b hab
  by_contra hR
  have ha : a ∈ l := mem_sortDesc.mp (hab.subset (by simp))
  have hb : b ∈ l := mem_sortDesc.mp (hab.subset (by simp))
  have hba : key b ≤ key a := List.pairwise_iff_forall_sublist.mp (pairwise_sortDesc key l) hab
  have heq : key b = key a := hba.antisymm (hkey b hb a ha hR)
  -- elements of one key keep their order
  have hconst : (l.filter fun x => key x = key a).Pairwise fun x y => key y ≤ key x := by
    refine List.pairwise_of_forall_mem_list fun x hx y hy => ?_
    simp only [List.mem_filter, decide_eq_true_eq] at hx hy
    rw [hx.2, hy.2]
  have hsub : [a, b].Sublist (l.filter fun x => key x = key a) := by
    rw [← filter_sortDesc hconst]
    simpa [heq] using hab.filter fun x => decide (key x = key a)
  exact hR (List.pairwise_iff_forall_sublist.mp h (hsub.trans List.filter_sublist))

end StableSort

theorem nodup_map_concat {α β : Type*} {f : α → β} {l : List α} {a : α} (h : (l.map f).Nodup)
    (hne : ∀ b ∈ l, f b ≠ f a) : ((l ++ [a]).map f).Nodup := by
  rw [List.map_append, List.map_singleton, List.nodup_append_comm, List.singleton_append,
    List.nodup_cons]
  refine ⟨fun hmem => ?_, h⟩
  obtain ⟨b, hb, hkey⟩ := List.mem_map.mp hmem
  exact hne b hb hkey

section Pieces
variable {ι τ : Type*} {f g : ι → List τ} {ks : List ι}

theorem length_flatMap_congr (h : ∀ k ∈ ks, (f k).length = (g k).length) :
    (ks.flatMap f).length = (ks.flatMap g).length := by
  rw [List.length_flatMap, List.length_flatMap, List.map_congr_left h]

/-- Concatenations of pieces of the same lengths are equal piece by piece. -/
theorem flatMap_eq_flatMap_iff (h : ∀ k ∈ ks, (f k).length = (g k).length) :
    ks.flatMap f = ks.flatMap g ↔ ∀ k ∈ ks, f k = g k := by
  induction ks with
  | nil => simp
  | cons k ks ih =>
    rw [List.flatMap_cons, List.flatMap_cons, List.forall_mem_cons,
      ← ih fun j hj => h j (List.mem_cons_of_mem k hj)]
    have hk : (f k).length = (g k).length := h k List.mem_cons_self
    exact ⟨fun he => List.append_inj he hk, fun he => by rw [he.1, he.2]⟩

end Pieces

end PJS.Lists
