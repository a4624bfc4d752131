import Mathlib

/-! Finite maps as association lists with distinct keys. The raw lists come first, since a
recursive value type can only nest through them; `AssocMap` then carries the distinctness. -/
namespace PJS.Assoc

variable {κ ν μ : Type*} [DecidableEq κ]

/-- Overwrite the value of a present key in place; an absent key leaves the list alone. -/
def replace (k : κ) (v : ν) : List (κ × ν) → List (κ × ν)
  | [] => []
  | (k', v') :: rest => if k = k' then (k', v) :: rest else (k', v') :: replace k v rest

/-- Insertion of a hash map: overwrite in place, or add an entry. -/
def insert (k : κ) (v : ν) (m : List (κ × ν)) : List (κ × ν) :=
  if k ∈ m.map Prod.fst then replace k v m else m ++ [(k, v)]

/-- Insertion of an ordered map: overwrite in place, or add an entry at its ordered position. -/
def insertSorted [LinearOrder κ] (k : κ) (v : ν) (m : List (κ × ν)) : List (κ × ν) :=
  if k ∈ m.map Prod.fst then replace k v m
  else m.orderedInsert (fun a b => a.1 ≤ b.1) (k, v)

theorem lookup_cons_ne {k k' : κ} (h : k ≠ k') (v : ν) (m : List (κ × ν)) :
    ((k', v) :: m).lookup k = m.lookup k := by
  rw [List.lookup_cons, beq_false_of_ne h]

theorem lookup_eq_none_iff_notMem {k : κ} {m : List (κ × ν)} :
    m.lookup k = none ↔ k ∉ m.map Prod.fst := by
  rw [List.lookup_eq_none_iff]
  simp only [List.mem_map, not_exists, not_and]
  constructor
  · intro h e he hk
    have := h e he
    simp [hk] at this
  · intro h e he
    have := h e he
    simpa using fun hk : k = e.1 => this hk.symm

theorem exists_lookup {k : κ} {m : List (κ × ν)} (h : k ∈ m.map Prod.fst) :
    ∃ v, m.lookup k = some v :=
  Option.ne_none_iff_exists'.mp fun hn => lookup_eq_none_iff_notMem.mp hn h

theorem mem_of_lookup {k : κ} {v : ν} {m : List (κ × ν)} (h : m.lookup k = some v) :
    (k, v) ∈ m := by
  obtain ⟨l₁, l₂, rfl, -⟩ := List.lookup_eq_some_iff.mp h
  simp

theorem lookup_of_mem {k : κ} {v : ν} {m : List (κ × ν)} (hn : (m.map Prod.fst).Nodup)
    (h : (k, v) ∈ m) : m.lookup k = some v := by
  induction m with
  | nil => simp at h
  | cons e m ih =>
    obtain ⟨k', v'⟩ := e
    rw [List.map_cons, List.nodup_cons] at hn
    rcases List.mem_cons.mp h with heq | hmem
    · cases heq
      simp
    · have hne : k ≠ k' := by
        rintro rfl
        have hk := List.mem_map_of_mem (f := Prod.fst) hmem
        exact hn.1 hk
      rw [lookup_cons_ne hne]
      exact ih hn.2 hmem

/-- A present key splits the list, and overwriting changes the middle entry only. -/
theorem exists_split {k : κ} {v : ν} {m : List (κ × ν)} (h : m.lookup k = some v) :
    ∃ l₁ l₂, m = l₁ ++ (k, v) :: l₂ ∧ ∀ v', replace k v' m = l₁ ++ (k, v') :: l₂ := by
  induction m with
  | nil => simp at h
  | cons e m ih =>
    obtain ⟨k', w⟩ := e
    by_cases hk : k = k'
    · subst hk
      have hv : w = v := by simpa using h
      subst hv
      exact ⟨[], m, rfl, fun v' => by simp [replace]⟩
    · rw [lookup_cons_ne hk] at h
      obtain ⟨l₁, l₂, he, hr⟩ := ih h
      refine ⟨(k', w) :: l₁, l₂, by rw [he, List.cons_append], fun v' => ?_⟩
      simp only [replace, if_neg hk, hr v', List.cons_append]

@[simp] theorem keys_replace (k : κ) (v : ν) (m : List (κ × ν)) :
    (replace k v m).map Prod.fst = m.map Prod.fst := by
  induction m with
  | nil => rfl
  | cons e m ih =>
    obtain ⟨k', w⟩ := e
    by_cases hk : k = k' <;> simp [replace, hk, ih]

/-- Writing back what was read changes nothing. -/
theorem replace_of_lookup {k : κ} {v : ν} {m : List (κ × ν)} (h : m.lookup k = some v) :
    replace k v m = m := by
  obtain ⟨l₁, l₂, he, hr⟩ := exists_split h
  rw [hr, he]

theorem lookup_replace (k j : κ) (v : ν) (m : List (κ × ν)) :
    (replace k v m).lookup j = if j = k then (m.lookup k).map fun _ => v else m.lookup j := by
  induction m with
  | nil => simp [replace]
  | cons e m ih =>
    obtain ⟨k', w⟩ := e
    by_cases hk : k = k'
    · subst hk
      by_cases hj : j = k
      · simp [replace, hj]
      · simp [replace, lookup_cons_ne hj, hj]
    · by_cases hj : j = k'
      · subst hj
        simp [replace, hk, Ne.symm hk]
      · simp only [replace, if_neg hk, lookup_cons_ne hj, lookup_cons_ne hk, ih]

theorem lookup_insert (k j : κ) (v : ν) (m : List (κ × ν)) :
    (insert k v m).lookup j = if j = k then some v else m.lookup j := by
  unfold insert
  split_ifs with hm hj hj
  · obtain ⟨w, hw⟩ := exists_lookup hm
    rw [lookup_replace, if_pos hj, hw, Option.map_some]
  · rw [lookup_replace, if_neg hj]
  · subst hj
    rw [List.lookup_append, lookup_eq_none_iff_notMem.mpr hm]
    simp
  · rw [List.lookup_append, lookup_cons_ne hj]
    simp

theorem mem_replace {k j : κ} {v w : ν} {m : List (κ × ν)} (h : (j, w) ∈ replace k v m) :
    (j, w) = (k, v) ∨ (j, w) ∈ m := by
  induction m with
  | nil => cases h
  | cons e m ih =>
    rw [replace] at h
    split_ifs at h with hk
    · rcases List.mem_cons.mp h with heq | h
      · exact Or.inl (by rw [heq, hk])
      · exact Or.inr (List.mem_cons_of_mem e h)
    · rcases List.mem_cons.mp h with heq | h
      · exact Or.inr (heq ▸ List.mem_cons_self)
      · exact (ih h).imp_right (List.mem_cons_of_mem e)

theorem mem_insert {k j : κ} {v w : ν} {m : List (κ × ν)} (h : (j, w) ∈ insert k v m) :
    (j, w) = (k, v) ∨ (j, w) ∈ m := by
  unfold insert at h
  split_ifs at h
  · exact mem_replace h
  · rcases List.mem_append.mp h with h | h
    · exact Or.inr h
    · exact Or.inl (List.mem_singleton.mp h)

theorem map_replace (f : ν → μ) (k : κ) (v : ν) (m : List (κ × ν)) :
    (replace k v m).map (fun e => (e.1, f e.2)) = replace k (f v) (m.map fun e => (e.1, f e.2)) := by
  induction m with
  | nil => rfl
  | cons e m ih =>
    obtain ⟨k', w⟩ := e
    by_cases he : k = k' <;> simp [replace, he, ih]

theorem lookup_map (f : κ → ν → μ) (k : κ) (m : List (κ × ν)) :
    (m.map fun e => (e.1, f e.1 e.2)).lookup k = (m.lookup k).map (f k) := by
  induction m with
  | nil => rfl
  | cons e m ih =>
    obtain ⟨k', w⟩ := e
    by_cases hk : k = k'
    · subst hk
      simp
    · simp only [List.map_cons, lookup_cons_ne hk, ih]

omit [DecidableEq κ] in
/-- A list whose values depend on the keys only is determined by its keys. -/
theorem map_of_keys_eq {m m' : List (κ × ν)} (r : κ → μ) (h : m.map Prod.fst = m'.map Prod.fst) :
    (m.map fun e => (e.1, r e.1)) = m'.map fun e => (e.1, r e.1) := by
  have hm : ∀ l : List (κ × ν), (l.map fun e => (e.1, r e.1)) = (l.map Prod.fst).map fun k => (k, r k) :=
    fun l => by simp [Function.comp_def]
  rw [hm m, hm m', h]

/-- Reading every key of a map gives back the map. -/
theorem map_lookup_getD {m : List (κ × ν)} (hn : (m.map Prod.fst).Nodup) {d : ν} :
    (m.map fun e => (e.1, (m.lookup e.1).getD d)) = m := by
  conv_rhs => rw [← List.map_id m]
  refine List.map_congr_left fun e he => ?_
  rw [lookup_of_mem hn he]
  rfl

/-- Two maps that list the same distinct keys and agree on them are the same list. -/
theorem eq_of_lookup_eq {m m' : List (κ × ν)} (hk : m.map Prod.fst = m'.map Prod.fst)
    (hn : (m.map Prod.fst).Nodup) (h : ∀ k ∈ m.map Prod.fst, m.lookup k = m'.lookup k) :
    m = m' := by
  induction m generalizing m' with
  | nil => simpa using hk.symm
  | cons e m ih =>
    obtain ⟨k, v⟩ := e
    cases m' with
    | nil => simp at hk
    | cons e' m' =>
      obtain ⟨k', v'⟩ := e'
      obtain ⟨rfl, ht⟩ : k = k' ∧ m.map Prod.fst = m'.map Prod.fst := by simpa using hk
      rw [List.map_cons, List.nodup_cons] at hn
      have hv : v = v' := by simpa using h k (by simp)
      subst hv
      congr 1
      refine ih ht hn.2 fun j hj => ?_
      have hne : j ≠ k := fun he => hn.1 (he ▸ hj)
      simpa only [lookup_cons_ne hne] using h j (List.mem_cons_of_mem _ hj)

theorem nodup_insert {k : κ} {v : ν} {m : List (κ × ν)} (hn : (m.map Prod.fst).Nodup) :
    ((insert k v m).map Prod.fst).Nodup := by
  unfold insert
  split_ifs with hm
  · rwa [keys_replace]
  · rw [List.map_append, List.nodup_append']
    refine ⟨hn, by simp, ?_⟩
    simpa [List.disjoint_left] using hm

/-- Collecting distinct keys into a hash map lists them in the order they came. -/
theorem foldl_insert_eq {m acc : List (κ × ν)} (hn : ((acc ++ m).map Prod.fst).Nodup) :
    m.foldl (fun a e => insert e.1 e.2 a) acc = acc ++ m := by
  induction m generalizing acc with
  | nil => simp
  | cons e m ih =>
    have hne : e.1 ∉ acc.map Prod.fst := by
      intro he
      rw [List.map_append, List.nodup_append'] at hn
      exact List.disjoint_left.mp hn.2.2 he (by simp)
    rw [List.foldl_cons, insert, if_neg hne, ih (by simpa using hn)]
    simp

/-- Collecting increasing keys into an ordered map lists them in the order they came. -/
theorem foldl_insertSorted_eq [LinearOrder κ] {m acc : List (κ × ν)}
    (hs : ((acc ++ m).map Prod.fst).Pairwise (· < ·)) :
    m.foldl (fun a e => insertSorted e.1 e.2 a) acc = acc ++ m := by
  induction m generalizing acc with
  | nil => simp
  | cons e m ih =>
    have hlt : ∀ a ∈ acc, a.1 < e.1 := by
      intro a ha
      rw [List.map_append, List.pairwise_append] at hs
      exact hs.2.2 a.1 (List.mem_map_of_mem ha) e.1 (by simp)
    have hne : e.1 ∉ acc.map Prod.fst := by
      intro he
      obtain ⟨a, ha, hae⟩ := List.mem_map.mp he
      exact (hlt a ha).ne hae
    have hins : acc.orderedInsert (fun a b => a.1 ≤ b.1) (e.1, e.2) = acc ++ [e] := by
      clear ih hs hne
      induction acc with
      | nil => rfl
      | cons a acc ih =>
        have ha : ¬ e.1 ≤ a.1 := not_le.mpr (hlt a (by simp))
        rw [List.orderedInsert_cons, if_neg ha, ih fun b hb => hlt b (by simp [hb])]
        rfl
    rw [List.foldl_cons, insertSorted, if_neg hne, hins, ih (by simpa using hs)]
    simp

/-- Reordering a map with distinct keys changes no lookup. -/
theorem lookup_perm {m m' : List (κ × ν)} (hp : m.Perm m') (hn : (m.map Prod.fst).Nodup) (k : κ) :
    m.lookup k = m'.lookup k := by
  have hn' : (m'.map Prod.fst).Nodup := (hp.map Prod.fst).nodup_iff.mp hn
  cases h : m'.lookup k with
  | none =>
    rw [lookup_eq_none_iff_notMem] at h ⊢
    exact fun hk => h ((hp.map Prod.fst).mem_iff.mp hk)
  | some v => exact lookup_of_mem hn (hp.mem_iff.mpr (mem_of_lookup h))

section Sorted
variable [LinearOrder κ]

/-- The entries in the order of their keys. -/
def sortByKey (m : List (κ × ν)) : List (κ × ν) := m.insertionSort fun a b => a.1 ≤ b.1

omit [DecidableEq κ] in
theorem keys_sortByKey (m : List (κ × ν)) :
    (sortByKey m).map Prod.fst = (m.map Prod.fst).insertionSort (· ≤ ·) :=
  List.map_insertionSort _ _ Prod.fst m fun _ _ _ _ => Iff.rfl

omit [DecidableEq κ] in
theorem sortByKey_perm (m : List (κ × ν)) : (sortByKey m).Perm m :=
  List.perm_insertionSort _ m

/-- Sorting enumerates the sorted keys and looks each one up. -/
theorem sortByKey_eq {m : List (κ × ν)} (hn : (m.map Prod.fst).Nodup) (d : ν) :
    sortByKey m =
      ((m.map Prod.fst).insertionSort (· ≤ ·)).map fun k => (k, (m.lookup k).getD d) := by
  have hp := sortByKey_perm m
  have hs : ((sortByKey m).map Prod.fst).Nodup := (hp.map Prod.fst).nodup_iff.mpr hn
  calc sortByKey m
      = (sortByKey m).map fun e => (e.1, ((sortByKey m).lookup e.1).getD d) :=
        (map_lookup_getD hs).symm
    _ = ((sortByKey m).map Prod.fst).map fun k => (k, ((sortByKey m).lookup k).getD d) := by
        rw [List.map_map]
        rfl
    _ = _ := by
        rw [keys_sortByKey]
        exact List.map_congr_left fun k _ => by rw [lookup_perm hp hs]

omit [DecidableEq κ] in
/-- Maps with the same keys list them in the same order once sorted. -/
theorem sorted_keys_eq {m n : List (κ × ν)} (hp : (m.map Prod.fst).Perm (n.map Prod.fst)) :
    (m.map Prod.fst).insertionSort (· ≤ ·) = (n.map Prod.fst).insertionSort (· ≤ ·) :=
  List.Perm.eq_of_pairwise' (List.pairwise_insertionSort _ _) (List.pairwise_insertionSort _ _)
    (((List.perm_insertionSort _ _).trans hp).trans (List.perm_insertionSort _ _).symm)

end Sorted

end PJS.Assoc

namespace PJS

/-- A finite map: entries with distinct keys, in an unspecified but fixed order. -/
structure AssocMap (κ ν : Type*) where
  entries : List (κ × ν)
  nodup : (entries.map Prod.fst).Nodup

namespace AssocMap

variable {κ ν μ : Type*}

@[ext] theorem ext {m m' : AssocMap κ ν} (h : m.entries = m'.entries) : m = m' := by
  cases m
  cases m'
  cases h
  rfl

instance [DecidableEq κ] [DecidableEq ν] : DecidableEq (AssocMap κ ν) := fun m m' =>
  decidable_of_iff (m.entries = m'.entries) ⟨ext, congrArg entries⟩

def empty : AssocMap κ ν := ⟨[], List.nodup_nil⟩

def size (m : AssocMap κ ν) : ℕ := m.entries.length

def values (m : AssocMap κ ν) : List ν := m.entries.map Prod.snd

def keys (m : AssocMap κ ν) : List κ := m.entries.map Prod.fst

def mapVal (f : ν → μ) (m : AssocMap κ ν) : AssocMap κ μ :=
  ⟨m.entries.map fun e => (e.1, f e.2), by simpa [Function.comp_def] using m.nodup⟩

@[simp] theorem keys_mapVal (f : ν → μ) (m : AssocMap κ ν) : (m.mapVal f).keys = m.keys := by
  simp [keys, mapVal, Function.comp_def]

theorem length_values (m : AssocMap κ ν) : m.values.length = m.size := by
  simp [values, size]

/-- The sum of a quantity over the values. -/
def total (g : ν → ℕ) (m : AssocMap κ ν) : ℕ := (m.values.map g).sum

theorem size_eq_total (m : AssocMap κ ν) : m.size = m.total fun _ => 1 := by
  simp [total, ← length_values]

/-- Summing an indicator counts. -/
theorem total_ite (p : ν → Bool) (m : AssocMap κ ν) :
    (m.total fun v => if p v then 1 else 0) = m.values.countP p := by
  unfold total
  induction m.values with
  | nil => rfl
  | cons v l ih => rw [List.map_cons, List.sum_cons, List.countP_cons, ih, Nat.add_comm]

theorem total_mapVal (g : μ → ℕ) (f : ν → μ) (m : AssocMap κ ν) :
    (m.mapVal f).total g = m.total fun v => g (f v) := by
  simp [total, values, mapVal, Function.comp_def]

theorem total_le_total {m : AssocMap κ ν} {g g' : ν → ℕ} (h : ∀ v, g v ≤ g' v) :
    m.total g ≤ m.total g' :=
  List.sum_le_sum fun v _ => h v

variable [DecidableEq κ]

def get? (m : AssocMap κ ν) (k : κ) : Option ν := m.entries.lookup k

def insert (k : κ) (v : ν) (m : AssocMap κ ν) : AssocMap κ ν :=
  ⟨Assoc.insert k v m.entries, Assoc.nodup_insert m.nodup⟩

theorem get?_insert (k j : κ) (v : ν) (m : AssocMap κ ν) :
    (m.insert k v).get? j = if j = k then some v else m.get? j :=
  Assoc.lookup_insert k j v m.entries

@[simp] theorem get?_insert_self (k : κ) (v : ν) (m : AssocMap κ ν) :
    (m.insert k v).get? k = some v := by
  rw [get?_insert, if_pos rfl]

theorem get?_mapVal (f : ν → μ) (m : AssocMap κ ν) (k : κ) :
    (m.mapVal f).get? k = (m.get? k).map f :=
  Assoc.lookup_map (fun _ => f) k m.entries

/-- Maps with equal images find values with equal images. -/
theorem exists_get?_of_mapVal_eq {f : ν → μ} {m m' : AssocMap κ ν} (h : m'.mapVal f = m.mapVal f)
    {k : κ} {v : ν} (hv : m.get? k = some v) : ∃ v', m'.get? k = some v' ∧ f v' = f v := by
  have hk := congrArg (fun n => AssocMap.get? n k) h
  simp only [get?_mapVal, hv, Option.map_some] at hk
  exact Option.map_eq_some_iff.mp hk

theorem get?_eq_none_of_mapVal_eq {f : ν → μ} {m m' : AssocMap κ ν}
    (h : m'.mapVal f = m.mapVal f) {k : κ} (hk : m.get? k = none) : m'.get? k = none := by
  have hmap := congrArg (fun n => AssocMap.get? n k) h
  simp only [get?_mapVal, hk, Option.map_none] at hmap
  exact Option.map_eq_none_iff.mp hmap

theorem mem_values_of_get? {m : AssocMap κ ν} {k : κ} {v : ν} (h : m.get? k = some v) :
    v ∈ m.values :=
  List.mem_map_of_mem (f := Prod.snd) (Assoc.mem_of_lookup h)

theorem exists_get?_of_mem_values {m : AssocMap κ ν} {v : ν} (h : v ∈ m.values) :
    ∃ k, m.get? k = some v := by
  obtain ⟨⟨k, w⟩, he, rfl⟩ := List.mem_map.mp h
  exact ⟨k, Assoc.lookup_of_mem m.nodup he⟩

/-- Writing back what was read changes nothing. -/
theorem insert_of_get? {m : AssocMap κ ν} {k : κ} {v : ν} (h : m.get? k = some v) :
    m.insert k v = m := by
  apply ext
  have hm : k ∈ m.entries.map Prod.fst := List.mem_map_of_mem (f := Prod.fst) (Assoc.mem_of_lookup h)
  change Assoc.insert k v m.entries = m.entries
  rw [Assoc.insert, if_pos hm, Assoc.replace_of_lookup h]

theorem mapVal_insert (f : ν → μ) (m : AssocMap κ ν) (k : κ) (v : ν) :
    (m.insert k v).mapVal f = (m.mapVal f).insert k (f v) := by
  apply ext
  change (Assoc.insert k v m.entries).map _ = Assoc.insert k (f v) (m.entries.map _)
  have hk : (m.entries.map fun e => (e.1, f e.2)).map Prod.fst = m.entries.map Prod.fst := by
    simp [Function.comp_def]
  unfold Assoc.insert
  rw [hk]
  split_ifs
  · exact Assoc.map_replace f k v m.entries
  · simp

/-- Overwriting moves one value and leaves the multiset of the others. -/
theorem values_insert_of_get? {m : AssocMap κ ν} {k : κ} {v : ν} (h : m.get? k = some v) :
    ∃ l₁ l₂, m.values = l₁ ++ v :: l₂ ∧ ∀ v', (m.insert k v').values = l₁ ++ v' :: l₂ := by
  obtain ⟨l₁, l₂, he, hr⟩ := Assoc.exists_split h
  have hm : k ∈ m.entries.map Prod.fst := List.mem_map_of_mem (f := Prod.fst) (Assoc.mem_of_lookup h)
  refine ⟨l₁.map Prod.snd, l₂.map Prod.snd, by simp [values, he], fun v' => ?_⟩
  simp [values, insert, Assoc.insert, hm, hr v']

theorem entries_insert_of_notMem {m : AssocMap κ ν} {k : κ} (h : k ∉ m.keys) (v : ν) :
    (m.insert k v).entries = m.entries ++ [(k, v)] :=
  if_neg h

theorem values_insert_of_none {m : AssocMap κ ν} {k : κ} (h : m.get? k = none) (v : ν) :
    (m.insert k v).values = m.values ++ [v] := by
  have hm : k ∉ m.entries.map Prod.fst := Assoc.lookup_eq_none_iff_notMem.mp h
  simp [values, insert, Assoc.insert, hm]

theorem mapVal_eq_self {m : AssocMap κ ν} {f : ν → ν} (h : ∀ k v, m.get? k = some v → f v = v) :
    m.mapVal f = m := by
  apply ext
  change m.entries.map _ = m.entries
  conv_rhs => rw [← List.map_id m.entries]
  refine List.map_congr_left fun e he => ?_
  rw [h e.1 e.2 (Assoc.lookup_of_mem m.nodup he)]
  rfl

theorem mem_keys_iff {m : AssocMap κ ν} {k : κ} : k ∈ m.keys ↔ ∃ v, m.get? k = some v := by
  rw [← Option.isSome_iff_exists, Option.isSome_iff_ne_none]
  exact (not_congr Assoc.lookup_eq_none_iff_notMem).trans not_not |>.symm

/-- Two maps that list the same keys and agree on them are the same. -/
theorem ext_get? {m m' : AssocMap κ ν} (hk : m.keys = m'.keys) (h : ∀ k, m.get? k = m'.get? k) :
    m = m' :=
  ext (Assoc.eq_of_lookup_eq hk m.nodup fun k _ => h k)

theorem keys_insert_of_get? {m : AssocMap κ ν} {k : κ} {v : ν} (h : m.get? k = some v) (v' : ν) :
    (m.insert k v').keys = m.keys := by
  have hm : k ∈ m.entries.map Prod.fst := mem_keys_iff.mpr ⟨v, h⟩
  change (Assoc.insert k v' m.entries).map Prod.fst = _
  rw [Assoc.insert, if_pos hm, Assoc.keys_replace]
  rfl

/-- The later of two writes stays. -/
theorem insert_insert (m : AssocMap κ ν) (k : κ) (v v' : ν) :
    (m.insert k v).insert k v' = m.insert k v' := by
  refine ext_get? ?_ fun j => ?_
  · rw [keys_insert_of_get? (get?_insert_self k v m)]
    cases h : m.get? k with
    | some w => rw [keys_insert_of_get? h, keys_insert_of_get? h]
    | none =>
      have hm : k ∉ m.entries.map Prod.fst := Assoc.lookup_eq_none_iff_notMem.mp h
      simp [keys, insert, Assoc.insert, hm]
  · simp only [get?_insert]
    split_ifs <;> rfl

/-- Apply `f` to the value of `k`, if there is one. -/
def modify (k : κ) (f : ν → ν) (m : AssocMap κ ν) : AssocMap κ ν :=
  match m.get? k with
  | some v => m.insert k (f v)
  | none => m

theorem modify_of_get? {m : AssocMap κ ν} {k : κ} {v : ν} (h : m.get? k = some v) (f : ν → ν) :
    m.modify k f = m.insert k (f v) := by
  rw [modify, h]

theorem get?_modify (k j : κ) (f : ν → ν) (m : AssocMap κ ν) :
    (m.modify k f).get? j = if j = k then (m.get? j).map f else m.get? j := by
  unfold modify
  split
  · rename_i v hv
    rw [get?_insert]
    split_ifs with hj
    · rw [hj, hv, Option.map_some]
    · rfl
  · rename_i hnone
    split_ifs with hj
    · rw [hj, hnone, Option.map_none]
    · rfl

/-- The map without the key. -/
def erase (k : κ) (m : AssocMap κ ν) : AssocMap κ ν :=
  ⟨m.entries.filter fun e => e.1 ≠ k, m.nodup.sublist (List.filter_sublist.map Prod.fst)⟩

theorem get?_erase (k j : κ) (m : AssocMap κ ν) :
    (m.erase k).get? j = if j = k then none else m.get? j := by
  change (m.entries.filter _).lookup j = if j = k then none else m.entries.lookup j
  induction m.entries with
  | nil => simp
  | cons e l ih =>
    obtain ⟨i, v⟩ := e
    by_cases hi : i = k
    · subst hi
      rw [List.filter_cons_of_neg (by simp), ih]
      split_ifs with hj
      · rfl
      · rw [Assoc.lookup_cons_ne hj]
    · rw [List.filter_cons_of_pos (by simpa using hi)]
      by_cases hj : j = i
      · subst hj
        simp [hi]
      · rw [Assoc.lookup_cons_ne hj, Assoc.lookup_cons_ne hj, ih]

theorem keys_erase (k : κ) (m : AssocMap κ ν) : (m.erase k).keys = m.keys.filter (· ≠ k) := by
  rw [keys, keys, List.filter_map]
  rfl

theorem get?_eq_some_iff {m : AssocMap κ ν} {k : κ} {v : ν} :
    m.get? k = some v ↔ (k, v) ∈ m.entries :=
  ⟨Assoc.mem_of_lookup, Assoc.lookup_of_mem m.nodup⟩

/-- The entries of a map can be listed with any of its keys first, in any order. -/
theorem exists_perm_entries (m : AssocMap κ ν) {ks : List κ} (hn : ks.Nodup)
    (hs : ∀ k ∈ ks, k ∈ m.keys) : ∃ l : List (κ × ν), l.Perm m.entries ∧
      ∃ rest, l.map Prod.fst = ks ++ rest ∧ ∀ k ∈ rest, k ∉ ks := by
  have hkeys : (ks ++ m.keys.filter (· ∉ ks)).Perm m.keys := by
    have hnodup : m.keys.Nodup := m.nodup
    refine (List.perm_ext_iff_of_nodup ?_ hnodup).mpr fun k => ?_
    · rw [List.nodup_append]
      refine ⟨hn, hnodup.filter _, fun a ha b hb hab => ?_⟩
      subst hab
      simpa [ha] using (List.mem_filter.mp hb).2
    · rw [List.mem_append, List.mem_filter, decide_eq_true_eq]
      constructor
      · rintro (hk | hk)
        · exact hs k hk
        · exact hk.1
      · intro hk
        by_cases hin : k ∈ ks
        · exact Or.inl hin
        · exact Or.inr ⟨hk, hin⟩
  have hpair : ∀ l : List κ, (∀ k ∈ l, k ∈ m.keys) →
      ∃ l' : List (κ × ν), l'.map Prod.fst = l ∧ ∀ e ∈ l', e ∈ m.entries := by
    intro l
    induction l with
    | nil => exact fun _ => ⟨[], rfl, by simp⟩
    | cons k l ih =>
      intro hl
      obtain ⟨l', hmap, hmem⟩ := ih fun j hj => hl j (by simp [hj])
      obtain ⟨e, he, rfl⟩ := List.mem_map.mp (hl k (by simp))
      refine ⟨e :: l', by rw [List.map_cons, hmap], fun e' he' => ?_⟩
      rcases List.mem_cons.mp he' with rfl | he'
      · exact he
      · exact hmem e' he'
  obtain ⟨l, hmap, hmem⟩ := hpair _ fun k hk => hkeys.mem_iff.mp hk
  have hl : (l.map Prod.fst).Nodup := hmap ▸ hkeys.nodup_iff.mpr m.nodup
  refine ⟨l, ?_, m.keys.filter (· ∉ ks), hmap, fun k hk => ?_⟩
  · have hlen : l.length = m.entries.length := by
      rw [← List.length_map (f := Prod.fst), hmap, hkeys.length_eq, keys, List.length_map]
    exact ((List.Nodup.of_map _ hl).subperm hmem).perm_of_length_le hlen.ge
  · simpa using (List.mem_filter.mp hk).2
/-- The entries that pass the test. -/
def retain (p : κ → ν → Bool) (m : AssocMap κ ν) : AssocMap κ ν :=
  ⟨m.entries.filter fun e => p e.1 e.2, m.nodup.sublist (List.filter_sublist.map Prod.fst)⟩

theorem get?_retain (p : κ → ν → Bool) (m : AssocMap κ ν) (k : κ) :
    (m.retain p).get? k = (m.get? k).filter (p k) := by
  ext v
  rw [get?_eq_some_iff, Option.filter_eq_some_iff, get?_eq_some_iff]
  exact List.mem_filter

section Totals

theorem total_insert_of_none {m : AssocMap κ ν} {k : κ} (h : m.get? k = none) (v : ν) (g : ν → ℕ) :
    (m.insert k v).total g = m.total g + g v := by
  simp [total, values_insert_of_none h]

theorem total_insert_of_get? {m : AssocMap κ ν} {k : κ} {v : ν} (h : m.get? k = some v) (v' : ν)
    (g : ν → ℕ) : (m.insert k v').total g + g v = m.total g + g v' := by
  obtain ⟨l₁, l₂, hv, hi⟩ := values_insert_of_get? h
  simp only [total, hv, hi, List.map_append, List.map_cons, List.sum_append, List.sum_cons]
  omega

theorem total_modify {m : AssocMap κ ν} {k : κ} {v : ν} (h : m.get? k = some v) (f : ν → ν)
    (g : ν → ℕ) : (m.modify k f).total g + g v = m.total g + g (f v) := by
  rw [modify_of_get? h]
  exact total_insert_of_get? h (f v) g

omit [DecidableEq κ] in
theorem total_retain_le (p : κ → ν → Bool) (m : AssocMap κ ν) (g : ν → ℕ) :
    (m.retain p).total g ≤ m.total g :=
  ((List.filter_sublist.map Prod.snd).map g).sum_le_sum fun _ _ => Nat.zero_le _

theorem total_eq_zero_iff {m : AssocMap κ ν} {g : ν → ℕ} :
    m.total g = 0 ↔ ∀ k v, m.get? k = some v → g v = 0 := by
  rw [total, List.sum_eq_zero_iff]
  constructor
  · intro h k v hv
    exact h _ (List.mem_map_of_mem (mem_values_of_get? hv))
  · intro h n hn
    obtain ⟨v, hv, rfl⟩ := List.mem_map.mp hn
    obtain ⟨k, hk⟩ := exists_get?_of_mem_values hv
    exact h k v hk

end Totals

end AssocMap

end PJS
