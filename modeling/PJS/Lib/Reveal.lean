import PJS.Lib.Skeleton

/-! Partly delivered documents. Settings of leaves may be lost, repeated and reordered on the way to
a receiver. What it has then depends only on which leaves arrived: it is the document with these
shown and everything else blanked out. -/
namespace PJS.Doc

variable {κ σ : Type}

section Reveal
variable (ph : σ → σ)

mutual

/-- The document with the scalars and arrays at the paths in `shown`, and the others blanked out. -/
def reveal (shown : List (Step κ) → Bool) : Doc κ σ → Doc κ σ
  | .scalar s => .scalar (if shown [] then s else ph s)
  | .array xs => .array (if shown [] then xs else [])
  | .object m => .object (revealFields shown m)

def revealFields (shown : List (Step κ) → Bool) : List (κ × Doc κ σ) → List (κ × Doc κ σ)
  | [] => []
  | (k, v) :: rest => (k, reveal (fun p => shown (.key k :: p)) v) :: revealFields shown rest

end

theorem revealFields_eq_map (shown : List (Step κ) → Bool) (m : List (κ × Doc κ σ)) :
    revealFields ph shown m =
      m.map fun e => (e.1, reveal ph (fun p => shown (.key e.1 :: p)) e.2) := by
  induction m with
  | nil => rfl
  | cons e m ih => rw [revealFields, ih, List.map_cons]

theorem keys_revealFields (shown : List (Step κ) → Bool) (m : List (κ × Doc κ σ)) :
    (revealFields ph shown m).map Prod.fst = m.map Prod.fst := by
  simp [revealFields_eq_map, Function.comp_def]

/-- Before anything arrived. -/
theorem reveal_none (d : Doc κ σ) : d.reveal ph (fun _ => false) = d.blankOut ph := by
  induction d using Doc.induction with
  | scalar s => rfl
  | array xs => rfl
  | object m ih =>
    rw [reveal, blankOut, revealFields_eq_map, blankFields_eq_map]
    congr 1
    exact List.map_congr_left fun e he => congrArg _ (ih e.1 e.2 he)

section DecidableEq
variable [DecidableEq κ]

theorem lookup_revealFields (shown : List (Step κ) → Bool) (m : List (κ × Doc κ σ)) (k : κ) :
    (revealFields ph shown m).lookup k =
      (m.lookup k).map (reveal ph fun p => shown (.key k :: p)) := by
  rw [revealFields_eq_map]
  exact Assoc.lookup_map (fun k v => reveal ph (fun p => shown (.key k :: p)) v) k m

end DecidableEq

end Reveal

section Below
variable [DecidableEq κ] (blank : σ → σ → Prop)

/-- The first document shows nothing that the second does not: scalars agree or are blank, arrays
are as far as they go, and objects have the same keys. -/
inductive Below : Doc κ σ → Doc κ σ → Prop
  | scalar (s : σ) : Below (.scalar s) (.scalar s)
  | blank {a b : σ} (h : blank a b) : Below (.scalar a) (.scalar b)
  | array {xs ys : List (Doc κ σ)} (h : xs <+: ys) : Below (.array xs) (.array ys)
  | object {m n : List (κ × Doc κ σ)} (hk : m.map Prod.fst = n.map Prod.fst)
      (h : ∀ k v w, m.lookup k = some v → n.lookup k = some w → Below v w) :
      Below (.object m) (.object n)

variable {blank} {ph : σ → σ}

/-- The more arrives, the more is shown. -/
theorem reveal_mono (hb : ∀ s, blank (ph s) s) {shown shown' : List (Step κ) → Bool}
    (h : ∀ p, shown p → shown' p) (d : Doc κ σ) :
    Below blank (d.reveal ph shown) (d.reveal ph shown') := by
  induction d using Doc.induction generalizing shown shown' with
  | scalar s =>
    rw [reveal, reveal]
    by_cases hs : shown []
    · rw [if_pos hs, if_pos (h [] hs)]
      exact .scalar s
    · rw [if_neg hs]
      split_ifs
      · exact .blank (hb s)
      · exact .scalar _
  | array xs =>
    rw [reveal, reveal]
    by_cases hs : shown []
    · rw [if_pos hs, if_pos (h [] hs)]
      exact .array List.prefix_rfl
    · rw [if_neg hs]
      exact .array List.nil_prefix
  | object m ih =>
    rw [reveal, reveal]
    refine .object ?_ fun k v w hv hw => ?_
    · rw [keys_revealFields, keys_revealFields]
    · rw [lookup_revealFields, Option.map_eq_some_iff] at hv hw
      obtain ⟨a, ha, rfl⟩ := hv
      obtain ⟨b, hb', rfl⟩ := hw
      obtain rfl : a = b := Option.some.inj (ha.symm.trans hb')
      exact ih k a (Assoc.mem_of_lookup ha) fun p => h (.key k :: p)

/-- Nothing is shown but what the document has. -/
theorem reveal_below (hb : ∀ s, blank (ph s) s) (shown : List (Step κ) → Bool) (d : Doc κ σ) :
    Below blank (d.reveal ph shown) d := by
  have hall : d.reveal ph (fun _ => true) = d := by
    clear hb
    induction d using Doc.induction with
    | scalar s => rfl
    | array xs => rfl
    | object m ih =>
      rw [reveal, Doc.object.injEq, revealFields_eq_map, Lists.map_eq_self_iff]
      exact fun e he => congrArg _ (ih e.1 e.2 he)
  have hmono := reveal_mono hb (fun p (_ : shown p) => rfl) d
  rwa [hall] at hmono

end Below

section Leaves
variable {ok : κ → Prop} [DecidablePred ok] {ph : σ → σ}

/-- The patch sets a blank value. -/
def Patch.SetsBlank (blank : σ → Prop) (p : Patch κ σ) : Prop :=
  ∃ v, p.edit = .set v ∧ v.Blank blank

/-- The whole document is shown exactly when each of its leaves has arrived or is blank. -/
theorem reveal_eq_self_iff {blank : σ → Prop} (hb : ∀ s, ph s = s ↔ blank s)
    {shown : List (Step κ) → Bool} {d : Doc κ σ} :
    d.reveal ph shown = d ↔
      ∀ q ∈ leaves (fun _ => True) d, shown q.path ∨ q.SetsBlank blank := by
  induction d using Doc.induction generalizing shown with
  | scalar s =>
    rw [leaves, List.forall_mem_singleton, reveal, Doc.scalar.injEq]
    by_cases hs : shown []
    · simp [hs]
    · rw [if_neg hs, hb]
      constructor
      · exact fun h => Or.inr ⟨_, rfl, .scalar h⟩
      · rintro (h | ⟨v, hv, h⟩)
        · exact absurd h hs
        · cases hv
          cases h
          assumption
  | array xs =>
    rw [leaves, List.forall_mem_singleton, reveal, Doc.array.injEq]
    by_cases hs : shown []
    · simp [hs]
    · rw [if_neg hs]
      constructor
      · intro h
        exact Or.inr ⟨_, rfl, h ▸ .array⟩
      · rintro (h | ⟨v, hv, h⟩)
        · exact absurd h hs
        · cases hv
          cases h
          rfl
  | object m ih =>
    rw [leaves, reveal, Doc.object.injEq, revealFields_eq_map, Lists.map_eq_self_iff]
    constructor
    · intro h q hq
      obtain ⟨k, v, hkv, -, leaf, hleaf, rfl⟩ := mem_fieldLeaves.mp hq
      exact (ih k v hkv).mp (congrArg Prod.snd (h (k, v) hkv)) leaf hleaf
    · intro h e he
      have hfield := (@ih e.1 e.2 he fun p => shown (.key e.1 :: p)).mpr fun q hq =>
        h (q.below e.1) (mem_fieldLeaves.mpr ⟨e.1, e.2, he, trivial, q, hq, rfl⟩)
      rw [hfield]

/-- A leaf that keys can address is a leaf. -/
theorem leaves_subset (d : Doc κ σ) : leaves ok d ⊆ leaves (fun _ => True) d := by
  induction d using Doc.induction with
  | scalar s => exact List.Subset.refl _
  | array xs => exact List.Subset.refl _
  | object m ih =>
    intro q hq
    obtain ⟨k, v, hkv, -, leaf, hleaf, rfl⟩ := mem_fieldLeaves.mp hq
    exact mem_fieldLeaves.mpr ⟨k, v, hkv, trivial, leaf, ih k v hkv hleaf, rfl⟩

/-- A path addresses one leaf. -/
theorem eq_of_leaf_path {d : Doc κ σ} (hd : Keyed (· ≠ ·) d) {p q : Patch κ σ}
    (hp : p ∈ leaves ok d) (hq : q ∈ leaves ok d) (h : p.path = q.path) : p = q := by
  have hnodup : ((leaves ok d).map Patch.path).Nodup :=
    List.pairwise_map.mpr ((leaves_pairwise hd).imp fun {a b} hab (he : a.path = b.path) =>
      hab.1 (he ▸ List.prefix_rfl))
  exact List.inj_on_of_nodup_map hnodup hp hq h

variable [DecidableEq κ]

/-- The paths that a list of patches addresses. -/
def arrived (ps : List (Patch κ σ)) (path : List (Step κ)) : Bool :=
  decide (path ∈ ps.map Patch.path)

theorem arrived_cons (p : Patch κ σ) (ps : List (Patch κ σ)) (path : List (Step κ)) :
    arrived (p :: ps) path = (decide (path = p.path) || arrived ps path) := by
  simp [arrived]

theorem arrived_iff_mem {d : Doc κ σ} (hd : Keyed (· ≠ ·) d) {ps : List (Patch κ σ)}
    (hps : ∀ p ∈ ps, p ∈ leaves ok d) {q : Patch κ σ} (hq : q ∈ leaves (fun _ => True) d) :
    arrived ps q.path ↔ q ∈ ps := by
  rw [arrived, decide_eq_true_eq, List.mem_map]
  constructor
  · rintro ⟨p, hp, hpath⟩
    rwa [← eq_of_leaf_path hd (leaves_subset d (hps p hp)) hq hpath]
  · exact fun h => ⟨q, h, rfl⟩

/-- A leaf that arrives is shown from then on; nothing else changes. -/
theorem run_reveal {d : Doc κ σ} (hd : Keyed (· ≠ ·) d) {q : Patch κ σ} (hq : q ∈ leaves ok d)
    (shown : List (Step κ) → Bool) :
    q.run (d.reveal ph shown) = some (d.reveal ph fun p => decide (p = q.path) || shown p) := by
  induction d using Doc.induction generalizing q shown with
  | scalar s =>
    rw [leaves, List.mem_singleton] at hq
    subst hq
    rfl
  | array xs =>
    rw [leaves, List.mem_singleton] at hq
    subst hq
    rfl
  | object m ih =>
    obtain ⟨hn, hfields⟩ := keyed_object_iff.mp hd
    obtain ⟨k, v, hkv, -, leaf, hleaf, rfl⟩ := mem_fieldLeaves.mp hq
    have hlookup := Assoc.lookup_of_mem hn hkv
    have hfield := ih k v hkv (hfields k v hkv) hleaf fun p => shown (.key k :: p)
    have hrun : (leaf.below k).run (.object (revealFields ph shown m)) = some (.object
        (Assoc.replace k (v.reveal ph fun p => decide (p = leaf.path) || shown (.key k :: p))
          (revealFields ph shown m))) := by
      change ((revealFields ph shown m).lookup k).bind _ = _
      rw [lookup_revealFields, hlookup, Option.map_some, Option.bind_some]
      change (leaf.run _).bind _ = _
      rw [hfield, Option.bind_some]
    rw [reveal, reveal, hrun]
    congr 2
    -- the field holds the new value, and the others do not see the path
    refine Assoc.eq_of_lookup_eq ?_ (by rwa [Assoc.keys_replace, keys_revealFields]) fun j _ => ?_
    · rw [Assoc.keys_replace, keys_revealFields, keys_revealFields]
    · rw [Assoc.lookup_replace]
      simp only [lookup_revealFields]
      split_ifs with hj
      · subst hj
        simp [hlookup, Patch.below]
      · simp [Patch.below, hj]

theorem runAll_reveal {d : Doc κ σ} (hd : Keyed (· ≠ ·) d) {ps : List (Patch κ σ)}
    (hps : ∀ p ∈ ps, p ∈ leaves ok d) (shown : List (Step κ) → Bool) :
    runAll ps (d.reveal ph shown) = some (d.reveal ph fun p => arrived ps p || shown p) := by
  induction ps generalizing shown with
  | nil => rfl
  | cons p ps ih =>
    rw [runAll_cons, run_reveal hd (hps p (by simp)), Option.bind_some,
      ih fun q hq => hps q (by simp [hq])]
    congr 2
    funext path
    rw [arrived_cons]
    cases decide (path = p.path) <;> simp

/-- Whatever leaves arrive in the skeleton of a document, in whatever order and however often, they
are shown and nothing else is. -/
theorem runAll_blankOut {d : Doc κ σ} (hd : Keyed (· ≠ ·) d) {ps : List (Patch κ σ)}
    (hps : ∀ p ∈ ps, p ∈ leaves ok d) :
    runAll ps (d.blankOut ph) = some (d.reveal ph (arrived ps)) := by
  rw [← reveal_none, runAll_reveal hd hps]
  simp only [Bool.or_false]

end Leaves

end PJS.Doc
