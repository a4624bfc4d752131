import PJS.Lib.Document
import PJS.Lib.Lists

/-! Rebuilding a document from overlapping edits. A document is cut into parts: for every
addressable field a copy with its arrays emptied, and for every addressable array its elements in
chunks. A copy may arrive any number of times and in any order; what matters is that no copy
arrives after elements it would wipe, and that the chunks of one array keep their order. -/
namespace PJS.Doc

variable {κ σ : Type}

/-- A patch of a field, as a patch of the object that has the field. -/
def Patch.below (k : κ) (p : Patch κ σ) : Patch κ σ := ⟨.key k :: p.path, p.edit⟩

/-- A patch of the node at `path`, as a patch of the root. -/
def Patch.rebase (path : List (Step κ)) (p : Patch κ σ) : Patch κ σ := ⟨path ++ p.path, p.edit⟩

theorem Patch.rebase_below (path : List (Step κ)) (k : κ) (p : Patch κ σ) :
    (p.below k).rebase path = p.rebase (path ++ [.key k]) := by
  simp [Patch.rebase, Patch.below]

theorem Patch.map_rebase_nil (ps : List (Patch κ σ)) : ps.map (Patch.rebase []) = ps :=
  List.map_id _

section Parts
variable (ok : κ → Prop) [DecidablePred ok]

mutual

/-- Empty every array that a path of addressable keys reaches. -/
def emptyArrays : Doc κ σ → Doc κ σ
  | .scalar s => .scalar s
  | .array _ => .array []
  | .object m => .object (emptyFields m)

def emptyFields : List (κ × Doc κ σ) → List (κ × Doc κ σ)
  | [] => []
  | (k, v) :: rest => (k, if ok k then emptyArrays v else v) :: emptyFields rest

end

variable (chunk : List (Doc κ σ) → List (List (Doc κ σ)))

mutual

/-- The parts of a document below its root. -/
def parts : Doc κ σ → List (Patch κ σ)
  | .scalar _ => []
  | .array xs => (chunk xs).map fun c => ⟨[], .append c⟩
  | .object m => fieldParts m

def fieldParts : List (κ × Doc κ σ) → List (Patch κ σ)
  | [] => []
  | (k, v) :: rest =>
    (if ok k then ⟨[.key k], .set (emptyArrays ok v)⟩ :: (parts v).map (Patch.below k) else []) ++
      fieldParts rest

end

end Parts

theorem emptyFields_eq_map (ok : κ → Prop) [DecidablePred ok] (m : List (κ × Doc κ σ)) :
    emptyFields ok m = m.map fun e => (e.1, if ok e.1 then emptyArrays ok e.2 else e.2) := by
  induction m with
  | nil => rfl
  | cons e m ih => rw [emptyFields, ih, List.map_cons]

theorem keys_emptyFields (ok : κ → Prop) [DecidablePred ok] (m : List (κ × Doc κ σ)) :
    (emptyFields ok m).map Prod.fst = m.map Prod.fst := by
  simp [emptyFields_eq_map, Function.comp_def]

variable [DecidableEq κ]

theorem lookup_emptyFields (ok : κ → Prop) [DecidablePred ok] (m : List (κ × Doc κ σ)) (k : κ) :
    (emptyFields ok m).lookup k =
      (m.lookup k).map fun v => if ok k then emptyArrays ok v else v := by
  rw [emptyFields_eq_map]
  exact Assoc.lookup_map (fun k v => if ok k then emptyArrays ok v else v) k m

section Under

@[simp] theorem Patch.under_below (k : κ) (p : Patch κ σ) : (p.below k).under k = some p := by
  simp [Patch.below]

/-- A patch touches a field by replacing the whole object or by working below the field. -/
theorem Patch.under_eq_some {k : κ} {p q : Patch κ σ} (h : p.under k = some q) :
    (∃ w v, p = ⟨[], .set (.object w)⟩ ∧ w.lookup k = some v ∧ q = ⟨[], .set v⟩) ∨
      p = q.below k := by
  match p, h with
  | ⟨[], .set (.object w)⟩, h =>
    simp only [Patch.under, Option.map_eq_some_iff] at h
    obtain ⟨v, hv, rfl⟩ := h
    exact Or.inl ⟨w, v, rfl, hv, rfl⟩
  | ⟨.key j :: path, e⟩, h =>
    simp only [Patch.under] at h
    split_ifs at h with hj
    cases h
    rw [hj]
    exact Or.inr rfl

theorem filterMap_under_below (k : κ) (ps : List (Patch κ σ)) :
    (ps.map (Patch.below k)).filterMap (Patch.under k) = ps := by
  induction ps with
  | nil => rfl
  | cons p ps ih => rw [List.map_cons, List.filterMap_cons_some (Patch.under_below k p), ih]

theorem filterMap_under_below_ne {k j : κ} (h : k ≠ j) (ps : List (Patch κ σ)) :
    (ps.map (Patch.below j)).filterMap (Patch.under k) = [] := by
  rw [List.filterMap_map, List.filterMap_eq_nil_iff]
  intro p _
  exact Patch.under_key_ne h p.path p.edit

/-- The chunks that a list of patches appends at a path, in order. -/
def appended (path : List (Step κ)) (ps : List (Patch κ σ)) : List (List (Doc κ σ)) :=
  ps.filterMap fun
    | ⟨q, .append c⟩ => if q = path then some c else none
    | ⟨_, .set _⟩ => none

theorem appended_under (k : κ) (path : List (Step κ)) (ps : List (Patch κ σ)) :
    appended path (ps.filterMap (Patch.under k)) = appended (.key k :: path) ps := by
  unfold appended
  rw [List.filterMap_filterMap]
  refine List.filterMap_congr fun p _ => ?_
  match p with
  | ⟨[], .set (.object w)⟩ => cases hw : w.lookup k <;> simp [Patch.under, hw]
  | ⟨[], .set (.scalar _)⟩ => rfl
  | ⟨[], .set (.array _)⟩ => rfl
  | ⟨[], .append _⟩ => simp [Patch.under]
  | ⟨.index _ :: _, .set _⟩ => rfl
  | ⟨.index _ :: _, .append _⟩ => simp [Patch.under]
  | ⟨.key j :: q, .set _⟩ => by_cases h : k = j <;> simp [Patch.under, h]
  | ⟨.key j :: q, .append _⟩ =>
    by_cases h : k = j
    · simp [Patch.under, h]
    · simp [Patch.under, h, Ne.symm h]

end Under

section Runs

/-- A copy that arrives at least once, alone, is what remains. -/
theorem runAll_set {ps : List (Patch κ σ)} {v s : Doc κ σ} (hne : ps ≠ [])
    (h : ∀ p ∈ ps, p = ⟨[], .set v⟩) : runAll ps s = some v := by
  induction ps generalizing s with
  | nil => exact absurd rfl hne
  | cons p ps ih =>
    rw [h p (by simp), runAll_cons]
    change runAll ps v = some v
    cases ps with
    | nil => rfl
    | cons q qs => exact ih (by simp) fun p hp => h p (by simp [hp])

/-- Chunks extend the array that is there. -/
theorem runAll_append_only {ps : List (Patch κ σ)} (xs : List (Doc κ σ))
    (h : ∀ p ∈ ps, ∃ c, p = ⟨[], .append c⟩) :
    runAll ps (.array xs) = some (.array (xs ++ (appended [] ps).flatten)) := by
  induction ps generalizing xs with
  | nil => simp [appended]
  | cons p ps ih =>
    obtain ⟨c, rfl⟩ := h p (by simp)
    rw [runAll_cons]
    change runAll ps (.array (xs ++ c)) = _
    rw [ih _ fun p hp => h p (by simp [hp])]
    simp [appended]

/-- `a` is an append and `b` a copy that would wipe what `a` appended. -/
def Patch.WipedBy (a b : Patch κ σ) : Prop :=
  (∃ c, a.edit = .append c) ∧ (∃ v, b.edit = .set v) ∧ b.path <+: a.path

/-- An empty copy of an array followed by its chunks ends in the whole array. -/
theorem runAll_array {ps : List (Patch κ σ)} {s : Doc κ σ}
    (h : ∀ p ∈ ps, p = ⟨[], .set (.array [])⟩ ∨ ∃ c, p = ⟨[], .append c⟩)
    (hset : ⟨[], .set (.array [])⟩ ∈ ps) (hw : ps.Pairwise fun a b => ¬ a.WipedBy b) :
    runAll ps s = some (.array (appended [] ps).flatten) := by
  induction ps generalizing s with
  | nil => simp at hset
  | cons p ps ih =>
    rw [List.pairwise_cons] at hw
    have hps : ∀ q ∈ ps, q = ⟨[], .set (.array [])⟩ ∨ ∃ c, q = ⟨[], .append c⟩ :=
      fun q hq => h q (by simp [hq])
    rcases h p (by simp) with rfl | ⟨c, rfl⟩
    · rw [runAll_cons]
      change runAll ps (.array []) = some (.array (appended [] ps).flatten)
      by_cases hs : ⟨[], .set (.array [])⟩ ∈ ps
      · exact ih hps hs hw.2
      · have happ : ∀ q ∈ ps, ∃ c, q = ⟨[], .append c⟩ := fun q hq =>
          (hps q hq).resolve_left fun he => hs (he ▸ hq)
        simpa using runAll_append_only [] happ
    · -- a copy after this append would wipe it
      have hmem : ⟨[], .set (.array [])⟩ ∈ ps := by simpa using hset
      exact absurd ⟨⟨c, rfl⟩, ⟨_, rfl⟩, List.prefix_rfl⟩ (hw.1 _ hmem)

end Runs

/-- A state in which the objects of a document already have their keys. -/
inductive Shape : Doc κ σ → Doc κ σ → Prop
  | scalar (s : σ) (d : Doc κ σ) : Shape (.scalar s) d
  | array (xs : List (Doc κ σ)) (d : Doc κ σ) : Shape (.array xs) d
  | object {m n : List (κ × Doc κ σ)} (hk : n.map Prod.fst = m.map Prod.fst)
      (h : ∀ k v w, m.lookup k = some v → n.lookup k = some w → Shape v w) :
      Shape (.object m) (.object n)

/-- An arrival order for the parts of `v`, with any number of copies of `v` itself. -/
structure Schedule (ok : κ → Prop) [DecidablePred ok]
    (chunk : List (Doc κ σ) → List (List (Doc κ σ))) (v : Doc κ σ)
    (ps : List (Patch κ σ)) : Prop where
  sound : ∀ p ∈ ps, p = ⟨[], .set (emptyArrays ok v)⟩ ∨ p ∈ parts ok chunk v
  chunks : ∀ path, appended path ps = appended path (parts ok chunk v)
  no_wipe : ps.Pairwise fun a b => ¬ a.WipedBy b

section Schedule
variable {ok : κ → Prop} [DecidablePred ok] {chunk : List (Doc κ σ) → List (List (Doc κ σ))}

theorem appended_parts_array (xs : List (Doc κ σ)) :
    appended [] (parts ok chunk (.array xs)) = chunk xs := by
  simp [parts, appended, List.filterMap_map]

omit [DecidableEq κ] in
theorem mem_fieldParts {m : List (κ × Doc κ σ)} {p : Patch κ σ} :
    p ∈ fieldParts ok chunk m ↔ ∃ k v, (k, v) ∈ m ∧ ok k ∧
      (p = ⟨[.key k], .set (emptyArrays ok v)⟩ ∨ ∃ q ∈ parts ok chunk v, p = q.below k) := by
  induction m with
  | nil => simp [fieldParts]
  | cons e m ih =>
    obtain ⟨k, v⟩ := e
    rw [fieldParts, List.mem_append, ih]
    constructor
    · rintro (hp | ⟨j, w, hj, hp⟩)
      · split_ifs at hp with hk
        · refine ⟨k, v, by simp, hk, ?_⟩
          rcases List.mem_cons.mp hp with rfl | hp
          · exact Or.inl rfl
          · obtain ⟨q, hq, rfl⟩ := List.mem_map.mp hp
            exact Or.inr ⟨q, hq, rfl⟩
        · simp at hp
      · exact ⟨j, w, by simp [hj], hp⟩
    · rintro ⟨j, w, hj, hk, hp⟩
      rcases List.mem_cons.mp hj with heq | hj
      · cases heq
        left
        rw [if_pos hk]
        rcases hp with rfl | ⟨q, hq, rfl⟩
        · simp
        · exact List.mem_cons_of_mem _ (List.mem_map_of_mem hq)
      · exact Or.inr ⟨j, w, hj, hk, hp⟩

/-- What the parts of an object say about one of its fields. -/
theorem fieldParts_under {m : List (κ × Doc κ σ)} (hn : (m.map Prod.fst).Nodup) {k : κ}
    {v : Doc κ σ} (hk : m.lookup k = some v) (hok : ok k) :
    (fieldParts ok chunk m).filterMap (Patch.under k) =
      ⟨[], .set (emptyArrays ok v)⟩ :: parts ok chunk v := by
  have habs : ∀ n : List (κ × Doc κ σ), k ∉ n.map Prod.fst →
      (fieldParts ok chunk n).filterMap (Patch.under k) = [] := by
    intro n hkn
    rw [List.filterMap_eq_nil_iff]
    intro p hp
    obtain ⟨j, w, hj, -, hp⟩ := mem_fieldParts.mp hp
    have hne : k ≠ j := fun he => hkn (he ▸ List.mem_map_of_mem (f := Prod.fst) hj)
    rcases hp with rfl | ⟨q, -, rfl⟩
    · exact Patch.under_key_ne hne _ _
    · exact Patch.under_key_ne hne _ _
  induction m with
  | nil => simp at hk
  | cons e m ih =>
    obtain ⟨j, w⟩ := e
    rw [List.map_cons, List.nodup_cons] at hn
    rw [fieldParts, List.filterMap_append]
    by_cases hj : k = j
    · subst hj
      have hw : w = v := by simpa using hk
      subst hw
      rw [if_pos hok, List.filterMap_cons_some (Patch.under_key_self k [] _),
        filterMap_under_below, habs m hn.1, List.append_nil]
    · rw [Assoc.lookup_cons_ne hj] at hk
      rw [ih hn.2 hk]
      split_ifs
      · rw [List.filterMap_cons_none (Patch.under_key_ne hj [] _), filterMap_under_below_ne hj]
        rfl
      · rfl

omit [DecidableEq κ] in
theorem Patch.not_wipedBy_of_key_ne {k j : κ} (h : k ≠ j) {a b : Patch κ σ} {p q : List (Step κ)}
    (ha : a.path = .key k :: p) (hb : b.path = .key j :: q) : ¬ a.WipedBy b := by
  rintro ⟨-, -, hpre⟩
  rw [ha, hb, List.cons_prefix_cons] at hpre
  exact h (Step.key.inj hpre.1).symm

omit [DecidableEq κ] in
/-- The order in which the parts are cut wipes nothing. -/
theorem parts_no_wipe {v : Doc κ σ} (hv : Keyed (· ≠ ·) v) :
    (parts ok chunk v).Pairwise fun a b => ¬ a.WipedBy b := by
  induction v using Doc.induction with
  | scalar a => exact List.Pairwise.nil
  | array xs =>
    refine List.pairwise_of_forall_mem_list fun a _ b hb => ?_
    obtain ⟨c, -, rfl⟩ := List.mem_map.mp hb
    rintro ⟨-, ⟨w, hw⟩, -⟩
    cases hw
  | object m ih =>
    obtain ⟨hn, hfields⟩ := keyed_object_iff.mp hv
    rw [parts]
    induction m with
    | nil => exact List.Pairwise.nil
    | cons e m ihm =>
      obtain ⟨k, v⟩ := e
      rw [List.map_cons, List.pairwise_cons] at hn
      have hrest := ihm (fun j w hj => ih j w (by simp [hj]))
        (.object hn.2 fun j w hj => hfields j w (by simp [hj])) hn.2
        (fun j w hj => hfields j w (by simp [hj]))
      rw [fieldParts, List.pairwise_append]
      refine ⟨?_, hrest, fun a ha b hb => ?_⟩
      · split_ifs
        · rw [List.pairwise_cons]
          refine ⟨?_, ?_⟩
          · rintro b - ⟨⟨c, hc⟩, -⟩
            cases hc
          · refine List.Pairwise.map _ (fun a b hab => ?_) (ih k v (by simp) (hfields k v (by simp)))
            rintro ⟨ha, hb, hpre⟩
            exact hab ⟨ha, hb, (List.prefix_cons_inj _).mp hpre⟩
        · exact List.Pairwise.nil
      · obtain ⟨p, hp⟩ : ∃ p, a.path = .key k :: p := by
          split_ifs at ha
          · rcases List.mem_cons.mp ha with rfl | ha
            · exact ⟨[], rfl⟩
            · obtain ⟨q, -, rfl⟩ := List.mem_map.mp ha
              exact ⟨q.path, rfl⟩
          · simp at ha
        obtain ⟨j, w, hj, -, hb⟩ := mem_fieldParts.mp hb
        obtain ⟨q, hq⟩ : ∃ q, b.path = .key j :: q := by
          rcases hb with rfl | ⟨q, -, rfl⟩
          · exact ⟨[], rfl⟩
          · exact ⟨q.path, rfl⟩
        exact Patch.not_wipedBy_of_key_ne (hn.1 j (List.mem_map_of_mem (f := Prod.fst) hj)) hp hq

/-- A schedule of an object is a schedule of each addressable field. -/
theorem Schedule.under {m : List (κ × Doc κ σ)} {ps : List (Patch κ σ)}
    (h : Schedule ok chunk (.object m) ps) (hn : (m.map Prod.fst).Nodup) {k : κ} {v : Doc κ σ}
    (hk : m.lookup k = some v) (hok : ok k) :
    Schedule ok chunk v (ps.filterMap (Patch.under k)) := by
  refine ⟨fun p hp => ?_, fun path => ?_, ?_⟩
  · obtain ⟨q, hq, hqp⟩ := List.mem_filterMap.mp hp
    rcases h.sound q hq with rfl | hq
    · have he : (emptyFields ok m).lookup k = some (emptyArrays ok v) := by
        rw [lookup_emptyFields, hk, Option.map_some, if_pos hok]
      rw [emptyArrays, Patch.under_set he, Option.some.injEq] at hqp
      exact Or.inl hqp.symm
    · have hmem := List.mem_filterMap.mpr ⟨q, hq, hqp⟩
      rw [parts, fieldParts_under hn hk hok] at hmem
      exact List.mem_cons.mp hmem
  · rw [appended_under, h.chunks, parts, ← appended_under, fieldParts_under hn hk hok]
    rfl
  · refine List.Pairwise.filterMap _ (fun a b hab a' ha b' hb => ?_) h.no_wipe
    rintro ⟨⟨c, hc⟩, ⟨w, hw⟩, hpre⟩
    apply hab
    rcases Patch.under_eq_some ha with ⟨_, _, -, -, rfl⟩ | rfl
    · cases hc
    · refine ⟨⟨c, hc⟩, ?_⟩
      rcases Patch.under_eq_some hb with ⟨n, _, rfl, -, -⟩ | rfl
      · exact ⟨⟨_, rfl⟩, List.nil_prefix⟩
      · exact ⟨⟨w, hw⟩, (List.prefix_cons_inj _).mpr hpre⟩

/-- Below a key no path can address there are only copies of what the field holds. -/
theorem Schedule.under_of_not_ok {m : List (κ × Doc κ σ)} {ps : List (Patch κ σ)}
    (h : Schedule ok chunk (.object m) ps) {k : κ} {v : Doc κ σ} (hk : m.lookup k = some v)
    (hok : ¬ ok k) : ∀ p ∈ ps.filterMap (Patch.under k), p = ⟨[], .set v⟩ := by
  intro p hp
  obtain ⟨q, hq, hqp⟩ := List.mem_filterMap.mp hp
  rcases h.sound q hq with rfl | hq
  · have he : (emptyFields ok m).lookup k = some v := by
      rw [lookup_emptyFields, hk, Option.map_some, if_neg hok]
    rw [emptyArrays, Patch.under_set he, Option.some.injEq] at hqp
    exact hqp.symm
  · obtain ⟨j, w, -, hj, hq⟩ := mem_fieldParts.mp hq
    have hne : k ≠ j := fun he => hok (he ▸ hj)
    rcases hq with rfl | ⟨q, -, rfl⟩
    · rw [Patch.under_key_ne hne] at hqp
      cases hqp
    · rw [Patch.below, Patch.under_key_ne hne] at hqp
      cases hqp

theorem Schedule.keepsKeys {m : List (κ × Doc κ σ)} {ps : List (Patch κ σ)}
    (h : Schedule ok chunk (.object m) ps) : ∀ p ∈ ps, p.KeepsKeys (m.map Prod.fst) := by
  intro p hp
  rcases h.sound p hp with rfl | hp
  · exact keys_emptyFields ok m
  · obtain ⟨k, v, hk, -, hp⟩ := mem_fieldParts.mp hp
    have hmem := List.mem_map_of_mem (f := Prod.fst) hk
    rcases hp with rfl | ⟨q, -, rfl⟩
    · exact hmem
    · exact hmem

/-- Any schedule with at least one copy of the document rebuilds it. -/
theorem Schedule.runAll_eq (hc : ∀ xs, (chunk xs).flatten = xs) {v : Doc κ σ}
    (hv : Keyed (· ≠ ·) v) {ps : List (Patch κ σ)} {s : Doc κ σ} (h : Schedule ok chunk v ps)
    (hset : ⟨[], .set (emptyArrays ok v)⟩ ∈ ps) (hs : Shape v s) : runAll ps s = some v := by
  induction v using Doc.induction generalizing ps s with
  | scalar a =>
    refine runAll_set (List.ne_nil_of_mem hset) fun p hp => ?_
    simpa [parts, emptyArrays] using h.sound p hp
  | array xs =>
    have hsound : ∀ p ∈ ps, p = ⟨[], .set (.array [])⟩ ∨ ∃ c, p = ⟨[], .append c⟩ := by
      intro p hp
      rcases h.sound p hp with rfl | hp
      · exact Or.inl rfl
      · obtain ⟨c, -, rfl⟩ := List.mem_map.mp hp
        exact Or.inr ⟨c, rfl⟩
    rw [runAll_array hsound hset h.no_wipe, h.chunks, appended_parts_array, hc]
  | object m ih =>
    cases hs with
    | @object _ n hkeys hshape =>
    obtain ⟨hn, hfields⟩ := keyed_object_iff.mp hv
    -- each field is rebuilt on its own, by a copy of it or by the induction hypothesis
    have hfield : ∀ k w, n.lookup k = some w → runAll (ps.filterMap (Patch.under k)) w =
        some ((m.lookup k).getD (.array [])) := by
      intro k w hw
      have hk : k ∈ m.map Prod.fst :=
        hkeys ▸ List.mem_map_of_mem (f := Prod.fst) (Assoc.mem_of_lookup hw)
      obtain ⟨v, hv⟩ := Assoc.exists_lookup hk
      have hmem := Assoc.mem_of_lookup hv
      have hcopy : ⟨[], .set (if ok k then emptyArrays ok v else v)⟩ ∈
          ps.filterMap (Patch.under k) := by
        refine List.mem_filterMap.mpr ⟨_, hset, Patch.under_set ?_⟩
        rw [lookup_emptyFields, hv, Option.map_some]
      rw [hv, Option.getD_some]
      by_cases hok : ok k
      · rw [if_pos hok] at hcopy
        exact ih k v hmem (hfields k v hmem) (h.under hn hv hok) hcopy (hshape k v w hv hw)
      · exact runAll_set (List.ne_nil_of_mem hcopy) (h.under_of_not_ok hv hok)
    have hrun := runAll_object (hkeys ▸ hn) (hkeys ▸ h.keepsKeys) hfield
    rw [hrun, Assoc.map_of_keys_eq (fun k => (m.lookup k).getD (.array [])) hkeys,
      Assoc.map_lookup_getD hn]

/-- The parts of an object alone rebuild every field a path can address; the others stay as the
state had them. -/
theorem Schedule.runAll_fields (hc : ∀ xs, (chunk xs).flatten = xs) {m n : List (κ × Doc κ σ)}
    (hv : Keyed (· ≠ ·) (.object m)) {ps : List (Patch κ σ)}
    (h : Schedule ok chunk (.object m) ps) (hsub : ∀ p ∈ ps, p ∈ fieldParts ok chunk m)
    (hall : ∀ p ∈ fieldParts ok chunk m, p ∈ ps) (hs : Shape (.object m) (.object n)) :
    runAll ps (.object n) = some (.object (m.map fun e =>
      (e.1, if ok e.1 then e.2 else (n.lookup e.1).getD (.array [])))) := by
  cases hs with
  | object hkeys hshape =>
  obtain ⟨hn, hfields⟩ := keyed_object_iff.mp hv
  let r (k : κ) : Doc κ σ :=
    if ok k then (m.lookup k).getD (.array []) else (n.lookup k).getD (.array [])
  have hfield : ∀ k w, n.lookup k = some w →
      runAll (ps.filterMap (Patch.under k)) w = some (r k) := by
    intro k w hw
    have hk : k ∈ m.map Prod.fst :=
      hkeys ▸ List.mem_map_of_mem (f := Prod.fst) (Assoc.mem_of_lookup hw)
    obtain ⟨v, hv⟩ := Assoc.exists_lookup hk
    have hmem := Assoc.mem_of_lookup hv
    by_cases hok : ok k
    · have hr : r k = v := by simp [r, hok, hv]
      have hcopy : ⟨[], .set (emptyArrays ok v)⟩ ∈ ps.filterMap (Patch.under k) :=
        List.mem_filterMap.mpr
          ⟨_, hall _ (mem_fieldParts.mpr ⟨k, v, hmem, hok, Or.inl rfl⟩), Patch.under_key_self k [] _⟩
      rw [hr]
      exact (h.under hn hv hok).runAll_eq hc (hfields k v hmem) hcopy (hshape k v w hv hw)
    · have hnil : ps.filterMap (Patch.under k) = [] := by
        rw [List.filterMap_eq_nil_iff]
        intro p hp
        obtain ⟨j, x, -, hj, hp⟩ := mem_fieldParts.mp (hsub p hp)
        have hne : k ≠ j := fun he => hok (he ▸ hj)
        rcases hp with rfl | ⟨q, -, rfl⟩
        · exact Patch.under_key_ne hne _ _
        · exact Patch.under_key_ne hne _ _
      rw [hnil, runAll_nil]
      simp [r, hok, hw]
  rw [runAll_object (hkeys ▸ hn) (hkeys ▸ h.keepsKeys) hfield, Assoc.map_of_keys_eq r hkeys]
  congr 2
  refine List.map_congr_left fun e he => ?_
  simp only [r, Assoc.lookup_of_mem hn he, Option.getD_some]

end Schedule

end PJS.Doc
