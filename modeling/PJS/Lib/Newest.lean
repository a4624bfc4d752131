import PJS.Lib.Lists

/-! A set that keeps the greatest elements of another: what it lacks has at least `n` elements
above it. Dropping such an element keeps the property, and the `n` greatest elements, in
descending order, can be read off the smaller set. -/
namespace PJS.Newest

variable {α β : Type*} [LinearOrder α]

/-- The elements of `s` above `a`. -/
def above (s : Finset α) (a : α) : Finset α := s.filter (a < ·)

theorem mem_above {s : Finset α} {a b : α} : b ∈ above s a ↔ b ∈ s ∧ a < b := Finset.mem_filter

theorem above_mono {s t : Finset α} (h : s ⊆ t) (a : α) : above s a ⊆ above t a :=
  Finset.filter_subset_filter _ h

structure Keeps (n : ℕ) (all kept : Finset α) : Prop where
  subset : kept ⊆ all
  missing : ∀ a ∈ all, a ∉ kept → n ≤ (above all a).card

section Keeps
variable {n : ℕ} {all kept : Finset α}

theorem keeps_refl (n : ℕ) (s : Finset α) : Keeps n s s := ⟨subset_rfl, fun _ ha hn => absurd ha hn⟩

/-- An element with `n` elements above it has as many above it among those that are kept. -/
theorem Keeps.le_card_above (h : Keeps n all kept) {a : α} (ha : n ≤ (above all a).card) :
    n ≤ (above kept a).card := by
  by_cases hsub : above all a ⊆ kept
  · refine ha.trans (Finset.card_le_card fun b hb => ?_)
    exact mem_above.mpr ⟨hsub hb, (mem_above.mp hb).2⟩
  · -- the greatest missing element above `a` has only kept elements above it
    have hne : (above all a \ kept).Nonempty := by
      rwa [Finset.nonempty_iff_ne_empty, ne_eq, Finset.sdiff_eq_empty_iff_subset]
    set b := (above all a \ kept).max' hne with hb
    obtain ⟨hmem, hmissing⟩ := Finset.mem_sdiff.mp ((above all a \ kept).max'_mem hne)
    obtain ⟨hball, hab⟩ := mem_above.mp hmem
    refine (h.missing b hball hmissing).trans (Finset.card_le_card fun c hc => ?_)
    obtain ⟨hcall, hbc⟩ := mem_above.mp hc
    have hac : a < c := hab.trans hbc
    refine mem_above.mpr ⟨?_, hac⟩
    by_contra hckept
    have hle := (above all a \ kept).le_max' c
      (Finset.mem_sdiff.mpr ⟨mem_above.mpr ⟨hcall, hac⟩, hckept⟩)
    exact absurd hbc (not_lt.mpr hle)

theorem Keeps.le_card (h : Keeps n all kept) (hn : n ≤ all.card) : n ≤ kept.card := by
  by_cases hsub : all ⊆ kept
  · exact hn.trans (Finset.card_le_card hsub)
  · obtain ⟨a, ha, hmissing⟩ := Finset.not_subset.mp hsub
    exact (h.le_card_above (h.missing a ha hmissing)).trans
      (Finset.card_le_card (Finset.filter_subset _ _))

theorem Keeps.insert (h : Keeps n all kept) (a : α) :
    Keeps n (insert a all) (insert a kept) := by
  refine ⟨Finset.insert_subset_insert a h.subset, fun b hb hmissing => ?_⟩
  rw [Finset.mem_insert, not_or] at hmissing
  have hball := (Finset.mem_insert.mp hb).resolve_left hmissing.1
  exact (h.missing b hball hmissing.2).trans
    (Finset.card_le_card (above_mono (Finset.subset_insert a all) b))

theorem Keeps.erase (h : Keeps n all kept) {a : α} (ha : n ≤ (above all a).card) :
    Keeps n all (kept.erase a) := by
  refine ⟨(Finset.erase_subset a kept).trans h.subset, fun b hb hmissing => ?_⟩
  rw [Finset.mem_erase, not_and] at hmissing
  by_cases hba : b = a
  · rwa [hba]
  · exact h.missing b hb (hmissing hba)

end Keeps

section Sorted
variable {key : β → α} {n : ℕ}

/-- In an ascending list, what comes before the last `n` has `n` elements above it. -/
theorem le_card_above_of_mem_take {l : List β} (hl : l.Pairwise fun x y => key x < key y) {x : β}
    (hx : x ∈ l.take (l.length - n)) : n ≤ (above (l.map key).toFinset (key x)).card := by
  have hsplit := hl
  rw [← List.take_append_drop (l.length - n) l, List.pairwise_append] at hsplit
  obtain ⟨-, hlast, habove⟩ := hsplit
  have hlen : (l.drop (l.length - n)).length = n := by
    have hpos := List.length_pos_of_mem hx
    rw [List.length_take] at hpos
    rw [List.length_drop]
    omega
  have hnodup : ((l.drop (l.length - n)).map key).Nodup :=
    List.pairwise_map.mpr (hlast.imp fun hlt => hlt.ne)
  calc n = ((l.drop (l.length - n)).map key).toFinset.card := by
        rw [List.toFinset_card_of_nodup hnodup, List.length_map, hlen]
    _ ≤ _ := by
        refine Finset.card_le_card fun a ha => ?_
        obtain ⟨y, hy, rfl⟩ := List.mem_map.mp (List.mem_toFinset.mp ha)
        rw [mem_above, List.mem_toFinset]
        exact ⟨List.mem_map_of_mem (List.mem_of_mem_drop hy), habove x hx y hy⟩

/-- In a descending list, the first `n` have fewer than `n` elements above them. -/
theorem card_above_lt_of_mem_take {l : List β} (hl : l.Pairwise fun x y => key y < key x) {x : β}
    (hx : x ∈ l.take n) : (above (l.map key).toFinset (key x)).card < n := by
  have hsplit := hl
  rw [← List.take_append_drop n l, List.pairwise_append] at hsplit
  obtain ⟨-, -, hbelow⟩ := hsplit
  have hmem : key x ∈ ((l.take n).map key).toFinset :=
    List.mem_toFinset.mpr (List.mem_map_of_mem hx)
  have hsub : above (l.map key).toFinset (key x) ⊆
      ((l.take n).map key).toFinset.erase (key x) := by
    intro a ha
    obtain ⟨hmem, hlt⟩ := mem_above.mp ha
    obtain ⟨y, hy, rfl⟩ := List.mem_map.mp (List.mem_toFinset.mp hmem)
    refine Finset.mem_erase.mpr ⟨hlt.ne', List.mem_toFinset.mpr (List.mem_map_of_mem ?_)⟩
    rw [← List.take_append_drop n l] at hy
    refine (List.mem_append.mp hy).resolve_right fun hy => ?_
    exact absurd hlt (not_lt.mpr (hbelow x hx y hy).le)
  have hcard : ((l.take n).map key).toFinset.card ≤ n :=
    (List.toFinset_card_le _).trans (by rw [List.length_map, List.length_take]; omega)
  have hpos := Finset.card_pos.mpr ⟨key x, hmem⟩
  have hle := Finset.card_le_card hsub
  rw [Finset.card_erase_of_mem hmem] at hle
  omega

theorem pairwise_sortDesc_lt {l : List β} (hn : (l.map key).Nodup) :
    (Lists.sortDesc key l).Pairwise fun x y => key y < key x := by
  have hne : (Lists.sortDesc key l).Pairwise fun x y => key x ≠ key y := by
    rw [← List.pairwise_map (f := key) (R := (· ≠ ·))]
    exact ((Lists.sortDesc_perm key l).map key).nodup_iff.mpr hn
  exact (Lists.pairwise_sortDesc key l).imp₂ (fun _ _ hle hne => lt_of_le_of_ne hle hne.symm) hne

/-- The `n` greatest elements of a list can be read off a part that keeps them. -/
theorem take_sortDesc_eq [DecidableEq β] {l l' : List β} (hn' : (l'.map key).Nodup) (hn : l.Nodup)
    (hsub : ∀ x ∈ l, x ∈ l') (h : Keeps n (l'.map key).toFinset (l.map key).toFinset) {k : ℕ}
    (hk : k ≤ n) : (Lists.sortDesc key l).take k = (Lists.sortDesc key l').take k := by
  set s := Lists.sortDesc key l' with hs
  have hstrict : s.Pairwise fun x y => key y < key x := pairwise_sortDesc_lt hn'
  have hmem : ∀ x, x ∈ s ↔ x ∈ l' := fun x => Lists.mem_sortDesc
  have hkeys : (s.map key).toFinset = (l'.map key).toFinset :=
    List.toFinset_eq_of_perm _ _ ((Lists.sortDesc_perm key l').map key)
  -- the part, in order, is the whole list filtered
  have hpart : Lists.sortDesc key l = s.filter (· ∈ l) := by
    have hnodup : s.Nodup := hstrict.imp fun {x y} hlt he => by subst he; exact lt_irrefl _ hlt
    have hperm : (Lists.sortDesc key l).Perm (s.filter (· ∈ l)) := by
      refine (Lists.sortDesc_perm key l).trans
        ((List.perm_ext_iff_of_nodup hn (hnodup.filter _)).mpr fun x => ?_)
      rw [List.mem_filter, hmem, decide_eq_true_eq]
      exact ⟨fun hx => ⟨hsub x hx, hx⟩, fun hx => hx.2⟩
    have hnl : (l.map key).Nodup := by
      refine List.Nodup.map_on (fun x hx y hy hxy => ?_) hn
      exact List.inj_on_of_nodup_map hn' (hsub x hx) (hsub y hy) hxy
    refine hperm.eq_of_pairwise (fun x y _ _ hxy hyx => absurd hxy (not_lt.mpr hyx.le))
      (pairwise_sortDesc_lt hnl) (hstrict.filter _)
  have hkept : (s.take n).filter (· ∈ l) = s.take n := by
    refine List.filter_eq_self.mpr fun x hx => decide_eq_true ?_
    by_contra hmissing
    have hx' : x ∈ l' := (hmem x).mp (List.mem_of_mem_take hx)
    have hkey : key x ∉ (l.map key).toFinset := by
      intro hin
      obtain ⟨y, hy, hxy⟩ := List.mem_map.mp (List.mem_toFinset.mp hin)
      exact hmissing (List.inj_on_of_nodup_map hn' (hsub y hy) hx' hxy ▸ hy)
    have hle := h.missing (key x) (List.mem_toFinset.mpr (List.mem_map_of_mem hx')) hkey
    have hlt := card_above_lt_of_mem_take hstrict hx
    rw [hkeys] at hlt
    omega
  have hfilter : s.filter (· ∈ l) = s.take n ++ (s.drop n).filter (· ∈ l) := by
    conv_lhs => rw [← List.take_append_drop n s]
    rw [List.filter_append, hkept]
  rw [hpart, hfilter]
  rcases Nat.lt_or_ge s.length n with hshort | hlong
  · rw [List.drop_eq_nil_of_le hshort.le, List.filter_nil, List.append_nil,
      List.take_of_length_le (l := s) hshort.le]
  · rw [List.take_append_of_le_length (by rw [List.length_take]; omega), List.take_take,
      Nat.min_eq_left hk]

end Sorted

end PJS.Newest
