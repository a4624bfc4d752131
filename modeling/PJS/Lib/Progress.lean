import PJS.Lib.Reveal

/-! A schedule under way. After any beginning of a schedule the state is the document with the parts
that came: a field is blank until its copy comes, an array is as long as the chunks that came. So the
states of a run only grow, and each is part of the document. -/
namespace PJS.Doc

variable {κ σ : Type} [DecidableEq κ]

section Assembled
variable (ok : κ → Prop) [DecidablePred ok] (ph : σ → σ)

mutual

/-- The document as far as patches of a schedule have assembled it. -/
def assembled (ps : List (Patch κ σ)) : Doc κ σ → Doc κ σ
  | .scalar s => .scalar (if ps.isEmpty then ph s else s)
  | .array _ => .array (appended [] ps).flatten
  | .object m => .object (assembledFields ps m)

def assembledFields (ps : List (Patch κ σ)) : List (κ × Doc κ σ) → List (κ × Doc κ σ)
  | [] => []
  | (k, v) :: rest =>
    (k, if ok k then assembled (ps.filterMap (Patch.under k)) v
      else if (ps.filterMap (Patch.under k)).isEmpty then blankOut ph v else v) ::
        assembledFields ps rest

end

/-- What has been assembled of one field. -/
def assembledField (ps : List (Patch κ σ)) (k : κ) (v : Doc κ σ) : Doc κ σ :=
  if ok k then assembled ok ph (ps.filterMap (Patch.under k)) v
  else if (ps.filterMap (Patch.under k)).isEmpty then blankOut ph v else v

theorem assembledFields_eq_map (ps : List (Patch κ σ)) (m : List (κ × Doc κ σ)) :
    assembledFields ok ph ps m = m.map fun e => (e.1, assembledField ok ph ps e.1 e.2) := by
  induction m with
  | nil => rfl
  | cons e m ih => rw [assembledFields, ih, List.map_cons, assembledField]

theorem keys_assembledFields (ps : List (Patch κ σ)) (m : List (κ × Doc κ σ)) :
    (assembledFields ok ph ps m).map Prod.fst = m.map Prod.fst := by
  simp [assembledFields_eq_map, Function.comp_def]

theorem lookup_assembledFields (ps : List (Patch κ σ)) (m : List (κ × Doc κ σ)) (k : κ) :
    (assembledFields ok ph ps m).lookup k =
      (m.lookup k).map (assembledField ok ph ps k) := by
  rw [assembledFields_eq_map]
  exact Assoc.lookup_map (assembledField ok ph ps) k m

end Assembled

section Below
variable {blank : σ → σ → Prop}

theorem below_refl (d : Doc κ σ) : Below blank d d := by
  induction d using Doc.induction with
  | scalar s => exact .scalar s
  | array xs => exact .array List.prefix_rfl
  | object m ih =>
    refine .object rfl fun k v w hv hw => ?_
    obtain rfl : v = w := Option.some.inj (hv.symm.trans hw)
    exact ih k v (Assoc.mem_of_lookup hv)

theorem blankOut_below {ph : σ → σ} (hb : ∀ s, blank (ph s) s) (d : Doc κ σ) :
    Below blank (d.blankOut ph) d := by
  rw [← reveal_none]
  exact reveal_below hb _ d

end Below

section Runs
variable {ok : κ → Prop} [DecidablePred ok] {chunk : List (Doc κ σ) → List (List (Doc κ σ))}
  {ph : σ → σ} {blank : σ → σ → Prop} {v : Doc κ σ} {ps qs ps' : List (Patch κ σ)}

omit [DecidablePred ok] in
theorem appended_append (path : List (Step κ)) (ps qs : List (Patch κ σ)) :
    appended path (ps ++ qs) = appended path ps ++ appended path qs :=
  List.filterMap_append

/-- Any beginning of a schedule runs on the skeleton. -/
theorem Schedule.runAll_prefix (hv : Keyed (· ≠ ·) v) (h : Schedule ok chunk v qs)
    (hps : ps <+: qs) : runAll ps (v.blankOut ph) = some (assembled ok ph ps v) := by
  induction v using Doc.induction generalizing ps qs with
  | scalar s =>
    by_cases hnil : ps = []
    · rw [hnil]
      rfl
    · have hall : ∀ p ∈ ps, p = ⟨[], .set (.scalar s)⟩ := fun p hp => by
        simpa [parts, emptyArrays] using h.sound p (hps.subset hp)
      rw [runAll_set hnil hall, assembled, if_neg (by simpa using hnil)]
  | array xs =>
    have hsound : ∀ p ∈ ps, p = ⟨[], .set (.array [])⟩ ∨ ∃ c, p = ⟨[], .append c⟩ := by
      intro p hp
      rcases h.sound p (hps.subset hp) with rfl | hp
      · exact Or.inl rfl
      · obtain ⟨c, -, rfl⟩ := List.mem_map.mp hp
        exact Or.inr ⟨c, rfl⟩
    by_cases hset : ⟨[], .set (.array [])⟩ ∈ ps
    · exact runAll_array hsound hset (h.no_wipe.sublist hps.sublist)
    · have happend : ∀ p ∈ ps, ∃ c, p = ⟨[], .append c⟩ := fun p hp =>
        (hsound p hp).resolve_left fun he => hset (he ▸ hp)
      rw [blankOut, assembled, runAll_append_only [] happend, List.nil_append]
  | object m ih =>
    obtain ⟨hn, hfields⟩ := keyed_object_iff.mp hv
    have hkeys := keys_blankFields ph m
    have hkeep : ∀ p ∈ ps, p.KeepsKeys ((blankFields ph m).map Prod.fst) := fun p hp => by
      rw [hkeys]
      exact h.keepsKeys p (hps.subset hp)
    let r (k : κ) : Doc κ σ := ((m.lookup k).map (assembledField ok ph ps k)).getD (.array [])
    have hfield : ∀ k w, (blankFields ph m).lookup k = some w →
        runAll (ps.filterMap (Patch.under k)) w = some (r k) := by
      intro k w hw
      rw [lookup_blankFields, Option.map_eq_some_iff] at hw
      obtain ⟨x, hx, rfl⟩ := hw
      have hmem := Assoc.mem_of_lookup hx
      have hbegin := hps.filterMap (Patch.under k)
      have hr : r k = assembledField ok ph ps k x := by simp [r, hx]
      rw [hr, assembledField]
      by_cases hok : ok k
      · rw [if_pos hok]
        exact ih k x hmem (hfields k x hmem) (h.under hn hx hok) hbegin
      · rw [if_neg hok]
        split_ifs with hnil
        · rw [List.isEmpty_iff.mp hnil, runAll_nil]
        · refine runAll_set (by simpa using hnil) fun p hp => ?_
          exact h.under_of_not_ok hx hok p (hbegin.subset hp)
    rw [blankOut, runAll_object (hkeys ▸ hn) hkeep hfield, Assoc.map_of_keys_eq r hkeys, assembled,
      assembledFields_eq_map]
    congr 2
    refine List.map_congr_left fun e he => ?_
    simp only [r, Assoc.lookup_of_mem hn he, Option.map_some, Option.getD_some]

/-- What has been assembled is part of the document. -/
theorem Schedule.assembled_below (hb : ∀ s, blank (ph s) s) (hc : ∀ xs, (chunk xs).flatten = xs)
    (hv : Keyed (· ≠ ·) v) (h : Schedule ok chunk v qs) (hps : ps <+: qs) :
    Below blank (assembled ok ph ps v) v := by
  induction v using Doc.induction generalizing ps qs with
  | scalar s =>
    rw [assembled]
    split_ifs
    · exact .blank (hb s)
    · exact .scalar s
  | array xs =>
    obtain ⟨rest, rfl⟩ := hps
    have hall := h.chunks []
    rw [appended_append, appended_parts_array] at hall
    rw [assembled]
    refine .array ⟨(appended [] rest).flatten, ?_⟩
    rw [← List.flatten_append, hall, hc]
  | object m ih =>
    obtain ⟨hn, hfields⟩ := keyed_object_iff.mp hv
    rw [assembled]
    refine .object (keys_assembledFields ok ph ps m) fun k a w ha hw => ?_
    rw [lookup_assembledFields, hw, Option.map_some, Option.some.injEq] at ha
    have hmem := Assoc.mem_of_lookup hw
    rw [← ha, assembledField]
    by_cases hok : ok k
    · rw [if_pos hok]
      exact ih k w hmem (hfields k w hmem) (h.under hn hw hok) (hps.filterMap _)
    · rw [if_neg hok]
      split_ifs
      · exact blankOut_below hb w
      · exact below_refl w

/-- More patches assemble more. -/
theorem assembled_mono (hb : ∀ s, blank (ph s) s) (h : ps <+: ps') (v : Doc κ σ) :
    Below blank (assembled ok ph ps v) (assembled ok ph ps' v) := by
  have hempty : ∀ {l l' : List (Patch κ σ)}, l <+: l' → l'.isEmpty → l.isEmpty := by
    intro l l' hl hl'
    rw [List.isEmpty_iff] at hl' ⊢
    rw [hl'] at hl
    exact List.prefix_nil.mp hl
  induction v using Doc.induction generalizing ps ps' with
  | scalar s =>
    rw [assembled, assembled]
    by_cases hnil' : ps'.isEmpty
    · rw [if_pos hnil', if_pos (hempty h hnil')]
      exact .scalar _
    · rw [if_neg hnil']
      split_ifs
      · exact .blank (hb s)
      · exact .scalar s
  | array xs =>
    obtain ⟨rest, rfl⟩ := h
    rw [assembled, assembled, appended_append, List.flatten_append]
    exact .array (List.prefix_append _ _)
  | object m ih =>
    rw [assembled, assembled]
    refine .object ?_ fun k a w ha hw => ?_
    · rw [keys_assembledFields, keys_assembledFields]
    · rw [lookup_assembledFields, Option.map_eq_some_iff] at ha hw
      obtain ⟨x, hx, rfl⟩ := ha
      obtain ⟨x', hx', rfl⟩ := hw
      obtain rfl : x = x' := Option.some.inj (hx.symm.trans hx')
      have hbegin := h.filterMap (Patch.under k)
      rw [assembledField, assembledField]
      by_cases hok : ok k
      · rw [if_pos hok, if_pos hok]
        exact ih k x (Assoc.mem_of_lookup hx) hbegin
      · rw [if_neg hok, if_neg hok]
        by_cases hnil' : (ps'.filterMap (Patch.under k)).isEmpty
        · rw [if_pos hnil', if_pos (hempty hbegin hnil')]
          exact below_refl _
        · rw [if_neg hnil']
          split_ifs
          · exact blankOut_below hb x
          · exact below_refl x

end Runs

end PJS.Doc
