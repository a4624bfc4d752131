import PJS.Lib.Schedule

/-! Skeletons and leaves. A skeleton keeps the objects of a document, empties its arrays and puts
a placeholder for every scalar. A leaf is a scalar or array that a path of addressable keys
reaches. Setting the leaves in a skeleton, in any order, restores what they address. -/
namespace PJS.Doc

variable {κ σ : Type}

section BlankOut
variable (ph : σ → σ)

mutual

def blankOut : Doc κ σ → Doc κ σ
  | .scalar s => .scalar (ph s)
  | .array _ => .array []
  | .object m => .object (blankFields m)

def blankFields : List (κ × Doc κ σ) → List (κ × Doc κ σ)
  | [] => []
  | (k, v) :: rest => (k, blankOut v) :: blankFields rest

end

theorem blankFields_eq_map (m : List (κ × Doc κ σ)) :
    blankFields ph m = m.map fun e => (e.1, blankOut ph e.2) := by
  induction m with
  | nil => rfl
  | cons e m ih => rw [blankFields, ih, List.map_cons]

theorem keys_blankFields (m : List (κ × Doc κ σ)) :
    (blankFields ph m).map Prod.fst = m.map Prod.fst := by
  simp [blankFields_eq_map, Function.comp_def]

/-- Only blank scalars, empty arrays and objects of such. -/
inductive Blank (blank : σ → Prop) : Doc κ σ → Prop
  | scalar {s : σ} (h : blank s) : Blank blank (.scalar s)
  | array : Blank blank (.array [])
  | object {m : List (κ × Doc κ σ)} (h : ∀ k v, (k, v) ∈ m → Blank blank v) :
    Blank blank (.object m)

variable {ph}

theorem blankOut_eq_self_iff {blank : σ → Prop} (hb : ∀ s, ph s = s ↔ blank s) {d : Doc κ σ} :
    d.blankOut ph = d ↔ d.Blank blank := by
  induction d using Doc.induction with
  | scalar s =>
    rw [blankOut, Doc.scalar.injEq, hb]
    exact ⟨.scalar, fun h => by cases h; assumption⟩
  | array xs =>
    constructor
    · intro h
      cases h
      exact .array
    · intro h
      cases h
      rfl
  | object m ih =>
    rw [blankOut, Doc.object.injEq, blankFields_eq_map, Lists.map_eq_self_iff]
    constructor
    · intro h
      exact .object fun k v hkv => (ih k v hkv).mp (congrArg Prod.snd (h (k, v) hkv))
    · intro h e he
      cases h with
      | object h => rw [(ih e.1 e.2 he).mpr (h e.1 e.2 he)]

variable [DecidableEq κ]

theorem lookup_blankFields (m : List (κ × Doc κ σ)) (k : κ) :
    (blankFields ph m).lookup k = (m.lookup k).map (blankOut ph) := by
  rw [blankFields_eq_map]
  exact Assoc.lookup_map (fun _ => blankOut ph) k m

theorem shape_blankOut (d : Doc κ σ) : Shape d (d.blankOut ph) := by
  induction d using Doc.induction with
  | scalar s => exact .scalar s _
  | array xs => exact .array xs _
  | object m ih =>
    refine .object (keys_blankFields ph m) fun k v w hv hw => ?_
    rw [lookup_blankFields, hv, Option.map_some, Option.some.injEq] at hw
    rw [← hw]
    exact ih k v (Assoc.mem_of_lookup hv)

end BlankOut

section Leaves
variable (ok : κ → Prop)

/-- Outside arrays, every value under a key that no path can address is blank. -/
inductive BlankBelow (blank : σ → Prop) : Doc κ σ → Prop
  | scalar (s : σ) : BlankBelow blank (.scalar s)
  | array (xs : List (Doc κ σ)) : BlankBelow blank (.array xs)
  | object {m : List (κ × Doc κ σ)}
      (h : ∀ k v, (k, v) ∈ m → ok k → BlankBelow blank v)
      (hb : ∀ k v, (k, v) ∈ m → ¬ ok k → Blank blank v) : BlankBelow blank (.object m)

/-- Outside arrays, every key can be addressed. -/
inductive Addressable : Doc κ σ → Prop
  | scalar (s : σ) : Addressable (.scalar s)
  | array (xs : List (Doc κ σ)) : Addressable (.array xs)
  | object {m : List (κ × Doc κ σ)} (hk : ∀ k ∈ m.map Prod.fst, ok k)
      (h : ∀ k v, (k, v) ∈ m → Addressable v) : Addressable (.object m)

variable {ok} in
theorem Addressable.blankBelow {d : Doc κ σ} (h : Addressable ok d) (blank : σ → Prop) :
    BlankBelow ok blank d := by
  induction h with
  | scalar s => exact .scalar s
  | array xs => exact .array xs
  | object hk _ ih =>
    refine .object (fun k v hkv _ => ih k v hkv) fun k v hkv hok => ?_
    exact absurd (hk k (List.mem_map_of_mem (f := Prod.fst) hkv)) hok

variable [DecidablePred ok] (ph : σ → σ)

mutual

/-- The leaves of a document, as settings of their values. -/
def leaves : Doc κ σ → List (Patch κ σ)
  | .scalar s => [⟨[], .set (.scalar s)⟩]
  | .array xs => [⟨[], .set (.array xs)⟩]
  | .object m => fieldLeaves m

def fieldLeaves : List (κ × Doc κ σ) → List (Patch κ σ)
  | [] => []
  | (k, v) :: rest => (if ok k then (leaves v).map (Patch.below k) else []) ++ fieldLeaves rest

end

mutual

/-- The document with everything below a key that no path can address blanked out. -/
def filled : Doc κ σ → Doc κ σ
  | .scalar s => .scalar s
  | .array xs => .array xs
  | .object m => .object (filledFields m)

def filledFields : List (κ × Doc κ σ) → List (κ × Doc κ σ)
  | [] => []
  | (k, v) :: rest => (k, if ok k then filled v else blankOut ph v) :: filledFields rest

end

theorem filledFields_eq_map (m : List (κ × Doc κ σ)) :
    filledFields ok ph m =
      m.map fun e => (e.1, if ok e.1 then filled ok ph e.2 else blankOut ph e.2) := by
  induction m with
  | nil => rfl
  | cons e m ih => rw [filledFields, ih, List.map_cons]

variable {ok ph}

theorem filled_eq_self_iff {blank : σ → Prop} (hb : ∀ s, ph s = s ↔ blank s) {d : Doc κ σ} :
    filled ok ph d = d ↔ BlankBelow ok blank d := by
  induction d using Doc.induction with
  | scalar s => exact ⟨fun _ => .scalar s, fun _ => rfl⟩
  | array xs => exact ⟨fun _ => .array xs, fun _ => rfl⟩
  | object m ih =>
    rw [filled, Doc.object.injEq, filledFields_eq_map, Lists.map_eq_self_iff]
    constructor
    · intro h
      refine .object (fun k v hkv hok => (ih k v hkv).mp ?_) fun k v hkv hok => ?_
      · simpa [hok] using h (k, v) hkv
      · exact (blankOut_eq_self_iff hb).mp (by simpa [hok] using h (k, v) hkv)
    · intro h e he
      cases h with
      | object h hblank =>
        by_cases hok : ok e.1
        · rw [if_pos hok, (ih e.1 e.2 he).mpr (h e.1 e.2 he hok)]
        · rw [if_neg hok, (blankOut_eq_self_iff hb).mpr (hblank e.1 e.2 he hok)]

theorem mem_fieldLeaves {m : List (κ × Doc κ σ)} {p : Patch κ σ} :
    p ∈ fieldLeaves ok m ↔
      ∃ k v, (k, v) ∈ m ∧ ok k ∧ ∃ q ∈ leaves ok v, p = q.below k := by
  induction m with
  | nil => simp [fieldLeaves]
  | cons e m ih =>
    obtain ⟨k, v⟩ := e
    rw [fieldLeaves, List.mem_append, ih]
    constructor
    · rintro (hp | ⟨j, w, hj, hp⟩)
      · split_ifs at hp with hk
        · obtain ⟨q, hq, rfl⟩ := List.mem_map.mp hp
          exact ⟨k, v, by simp, hk, q, hq, rfl⟩
        · simp at hp
      · exact ⟨j, w, by simp [hj], hp⟩
    · rintro ⟨j, w, hj, hk, q, hq, rfl⟩
      rcases List.mem_cons.mp hj with heq | hj
      · cases heq
        left
        rw [if_pos hk]
        exact List.mem_map_of_mem hq
      · exact Or.inr ⟨j, w, hj, hk, q, hq, rfl⟩

/-- No leaf lies below another, so none can overwrite another. -/
theorem leaves_pairwise {d : Doc κ σ} (hd : Keyed (· ≠ ·) d) :
    (leaves ok d).Pairwise fun a b => ¬ a.path <+: b.path ∧ ¬ b.path <+: a.path := by
  induction d using Doc.induction with
  | scalar s => exact List.pairwise_singleton _ _
  | array xs => exact List.pairwise_singleton _ _
  | object m ih =>
    obtain ⟨hn, hfields⟩ := keyed_object_iff.mp hd
    rw [leaves]
    clear hd
    induction m with
    | nil => exact List.Pairwise.nil
    | cons e m ihm =>
      obtain ⟨k, v⟩ := e
      rw [List.map_cons, List.pairwise_cons] at hn
      have hrest := ihm (fun j w hj => ih j w (by simp [hj])) hn.2
        fun j w hj => hfields j w (by simp [hj])
      rw [fieldLeaves, List.pairwise_append]
      refine ⟨?_, hrest, fun a ha b hb => ?_⟩
      · split_ifs
        · refine List.Pairwise.map _ (fun a b hab => ?_) (ih k v (by simp) (hfields k v (by simp)))
          exact ⟨fun h => hab.1 ((List.prefix_cons_inj _).mp h),
            fun h => hab.2 ((List.prefix_cons_inj _).mp h)⟩
        · exact List.Pairwise.nil
      · split_ifs at ha
        · obtain ⟨p, -, rfl⟩ := List.mem_map.mp ha
          obtain ⟨j, w, hj, -, q, -, rfl⟩ := mem_fieldLeaves.mp hb
          have hne : k ≠ j := hn.1 j (List.mem_map_of_mem (f := Prod.fst) hj)
          constructor
          · intro h
            exact hne (Step.key.inj (List.cons_prefix_cons.mp h).1)
          · intro h
            exact hne (Step.key.inj (List.cons_prefix_cons.mp h).1).symm
        · simp at ha

variable [DecidableEq κ]

/-- What the leaves of an object say about one of its fields. -/
theorem fieldLeaves_under {m : List (κ × Doc κ σ)} (hn : (m.map Prod.fst).Nodup) {k : κ}
    {v : Doc κ σ} (hk : m.lookup k = some v) :
    (fieldLeaves ok m).filterMap (Patch.under k) = if ok k then leaves ok v else [] := by
  have habs : ∀ n : List (κ × Doc κ σ), k ∉ n.map Prod.fst →
      (fieldLeaves ok n).filterMap (Patch.under k) = [] := by
    intro n hkn
    rw [List.filterMap_eq_nil_iff]
    intro p hp
    obtain ⟨j, w, hj, -, q, -, rfl⟩ := mem_fieldLeaves.mp hp
    have hne : k ≠ j := fun he => hkn (he ▸ List.mem_map_of_mem (f := Prod.fst) hj)
    exact Patch.under_key_ne hne _ _
  induction m with
  | nil => simp at hk
  | cons e m ih =>
    obtain ⟨j, w⟩ := e
    rw [List.map_cons, List.nodup_cons] at hn
    rw [fieldLeaves, List.filterMap_append]
    by_cases hj : k = j
    · subst hj
      have hw : w = v := by simpa using hk
      subst hw
      rw [habs m hn.1, List.append_nil]
      split_ifs
      · exact filterMap_under_below k _
      · rfl
    · rw [Assoc.lookup_cons_ne hj] at hk
      rw [ih hn.2 hk]
      split_ifs <;> simp [filterMap_under_below_ne hj]

/-- Setting the leaves in the skeleton, in any order, restores everything they address. -/
theorem runAll_leaves {d : Doc κ σ} (hd : Keyed (· ≠ ·) d) {ps : List (Patch κ σ)} {s : Doc κ σ}
    (hps : ps.Perm (leaves ok d)) (hs : ∀ m, d = .object m → s = d.blankOut ph) :
    runAll ps s = some (filled ok ph d) := by
  induction d using Doc.induction generalizing ps s with
  | scalar a =>
    rw [List.perm_singleton.mp hps]
    rfl
  | array xs =>
    rw [List.perm_singleton.mp hps]
    rfl
  | object m ih =>
    obtain ⟨hn, hfields⟩ := keyed_object_iff.mp hd
    have hkeys := keys_blankFields ph m
    rw [hs m rfl, blankOut]
    have hkeep : ∀ p ∈ ps, p.KeepsKeys ((blankFields ph m).map Prod.fst) := by
      intro p hp
      obtain ⟨k, v, hkv, -, q, -, rfl⟩ := mem_fieldLeaves.mp (hps.mem_iff.mp hp)
      rw [hkeys]
      exact List.mem_map_of_mem (f := Prod.fst) hkv
    let r (k : κ) : Doc κ σ :=
      ((m.lookup k).map fun v => if ok k then filled ok ph v else blankOut ph v).getD (.array [])
    have hfield : ∀ k w, (blankFields ph m).lookup k = some w →
        runAll (ps.filterMap (Patch.under k)) w = some (r k) := by
      intro k w hw
      rw [lookup_blankFields, Option.map_eq_some_iff] at hw
      obtain ⟨v, hv, rfl⟩ := hw
      have hperm := hps.filterMap (Patch.under k)
      rw [leaves, fieldLeaves_under hn hv] at hperm
      have hmem := Assoc.mem_of_lookup hv
      by_cases hok : ok k
      · rw [if_pos hok] at hperm
        have hr : r k = filled ok ph v := by simp [r, hv, hok]
        rw [hr]
        exact ih k v hmem (hfields k v hmem) hperm fun _ _ => rfl
      · rw [if_neg hok] at hperm
        rw [hperm.eq_nil, runAll_nil]
        simp [r, hv, hok]
    rw [runAll_object (hkeys ▸ hn) hkeep hfield, Assoc.map_of_keys_eq r hkeys, filled,
      filledFields_eq_map]
    congr 2
    refine List.map_congr_left fun e he => ?_
    simp only [r, Assoc.lookup_of_mem hn he, Option.map_some, Option.getD_some]

end Leaves

end PJS.Doc
