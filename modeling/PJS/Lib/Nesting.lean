import PJS.Lib.Skeleton

/-! How deep the containers of a document nest, and what its scalars are. Both pass to the parts of
a document and to its skeleton. Setting a value commutes with a change of the scalars. -/
namespace PJS.Doc

variable {κ σ : Type}

/-- No scalar or container stands inside more than `n` containers, itself included. -/
inductive Nests : ℕ → Doc κ σ → Prop
  | scalar (n : ℕ) (s : σ) : Nests n (.scalar s)
  | array {n : ℕ} {xs : List (Doc κ σ)} (h : ∀ x ∈ xs, Nests n x) : Nests (n + 1) (.array xs)
  | object {n : ℕ} {m : List (κ × Doc κ σ)} (h : ∀ k v, (k, v) ∈ m → Nests n v) :
    Nests (n + 1) (.object m)

/-- Every scalar of the document satisfies `P`. -/
inductive Over (P : σ → Prop) : Doc κ σ → Prop
  | scalar {s : σ} (h : P s) : Over P (.scalar s)
  | array {xs : List (Doc κ σ)} (h : ∀ x ∈ xs, Over P x) : Over P (.array xs)
  | object {m : List (κ × Doc κ σ)} (h : ∀ k v, (k, v) ∈ m → Over P v) : Over P (.object m)

theorem nests_array_iff {n : ℕ} {xs : List (Doc κ σ)} :
    Nests (n + 1) (.array xs) ↔ ∀ x ∈ xs, Nests n x :=
  ⟨fun h => by cases h with | array h => exact h, .array⟩

theorem nests_object_iff {n : ℕ} {m : List (κ × Doc κ σ)} :
    Nests (n + 1) (.object m) ↔ ∀ k v, (k, v) ∈ m → Nests n v :=
  ⟨fun h => by cases h with | object h => exact h, .object⟩

section BlankOut
variable {ph : σ → σ}

theorem Nests.blankOut {n : ℕ} {d : Doc κ σ} (h : Nests n d) : Nests n (d.blankOut ph) := by
  induction h with
  | scalar n s => exact .scalar n _
  | array _ _ => exact .array (by simp)
  | object _ ih =>
    rw [Doc.blankOut, blankFields_eq_map]
    refine .object fun k v hkv => ?_
    obtain ⟨e, he, heq⟩ := List.mem_map.mp hkv
    cases heq
    exact ih e.1 e.2 he

theorem Over.blankOut {P : σ → Prop} {d : Doc κ σ} (hph : ∀ s, P s → P (ph s)) (h : Over P d) :
    Over P (d.blankOut ph) := by
  induction h with
  | scalar hs => exact .scalar (hph _ hs)
  | array _ _ => exact .array (by simp)
  | object _ ih =>
    rw [Doc.blankOut, blankFields_eq_map]
    refine .object fun k v hkv => ?_
    obtain ⟨e, he, heq⟩ := List.mem_map.mp hkv
    cases heq
    exact ih e.1 e.2 he

theorem Keyed.blankOut {R : κ → κ → Prop} {d : Doc κ σ} (h : Keyed R d) :
    Keyed R (d.blankOut ph) := by
  induction h with
  | scalar s => exact .scalar _
  | array _ _ => exact .array (by simp)
  | object hk _ ih =>
    refine .object (by rwa [keys_blankFields]) fun k v hkv => ?_
    rw [blankFields_eq_map] at hkv
    obtain ⟨e, he, heq⟩ := List.mem_map.mp hkv
    cases heq
    exact ih e.1 e.2 he

end BlankOut

section MapScalar
variable {τ : Type} (f : σ → τ)

theorem Keyed.mapScalar {R : κ → κ → Prop} {d : Doc κ σ} (h : Keyed R d) :
    Keyed R (d.mapScalar f) := by
  induction h with
  | scalar s => exact .scalar _
  | array _ ih =>
    rw [mapScalar_array]
    exact .array (List.forall_mem_map.mpr ih)
  | object hk _ ih =>
    rw [mapScalar_object]
    refine .object (by simpa [Function.comp_def] using hk) fun k v hkv => ?_
    obtain ⟨e, he, heq⟩ := List.mem_map.mp hkv
    cases heq
    exact ih e.1 e.2 he

theorem mapScalar_id (d : Doc κ σ) : d.mapScalar id = d := by
  induction d using Doc.induction with
  | scalar s => rfl
  | array xs ih => rw [mapScalar_array, List.map_congr_left ih, List.map_id']
  | object m ih =>
    have hfields : ∀ e ∈ m, (e.1, mapScalar id e.2) = e := fun e he => by rw [ih e.1 e.2 he]
    rw [mapScalar_object, List.map_congr_left hfields, List.map_id']

/-- A change of the scalars leaves the nesting as it is. -/
theorem nests_mapScalar {n : ℕ} {d : Doc κ σ} : Nests n (d.mapScalar f) ↔ Nests n d := by
  induction d using Doc.induction generalizing n with
  | scalar s => exact ⟨fun _ => .scalar n s, fun _ => .scalar n _⟩
  | array xs ih =>
    rw [mapScalar_array]
    cases n with
    | zero => exact iff_of_false nofun nofun
    | succ n =>
      rw [nests_array_iff, nests_array_iff, List.forall_mem_map]
      exact forall₂_congr fun x hx => ih x hx
  | object m ih =>
    rw [mapScalar_object]
    cases n with
    | zero => exact iff_of_false nofun nofun
    | succ n =>
      rw [nests_object_iff, nests_object_iff]
      constructor
      · intro h k v hkv
        exact (ih k v hkv).mp (h k _ (List.mem_map_of_mem hkv))
      · intro h k v hkv
        obtain ⟨e, he, heq⟩ := List.mem_map.mp hkv
        cases heq
        exact (ih e.1 e.2 he).mpr (h e.1 e.2 he)

variable [DecidableEq κ]

theorem run_set_mapScalar {path : List (Step κ)} {v d d' : Doc κ σ}
    (h : Patch.run ⟨path, .set v⟩ d = some d') :
    Patch.run ⟨path, .set (v.mapScalar f)⟩ (d.mapScalar f) = some (d'.mapScalar f) := by
  simp only [Patch.run] at h ⊢
  induction path generalizing d d' with
  | nil =>
    cases h
    rfl
  | cons s path ih =>
    rcases s with k | i <;> rcases d with a | xs | m <;> try cases h
    case key.object =>
      obtain ⟨c, hc, h⟩ := Option.bind_eq_some_iff.mp h
      obtain ⟨c', hc', h⟩ := Option.bind_eq_some_iff.mp h
      cases h
      rw [mapScalar_object, modify?, Assoc.lookup_map (fun _ => Doc.mapScalar f), hc]
      simp only [Option.map_some, Option.bind_eq_bind, Option.bind_some, ih hc', mapScalar_object,
        Option.some.injEq, Doc.object.injEq]
      exact (Assoc.map_replace (Doc.mapScalar f) k c' m).symm
    case index.array =>
      obtain ⟨c, hc, h⟩ := Option.bind_eq_some_iff.mp h
      obtain ⟨c', hc', h⟩ := Option.bind_eq_some_iff.mp h
      cases h
      rw [mapScalar_array, modify?, List.getElem?_map, hc]
      simp only [Option.map_some, Option.bind_eq_bind, Option.bind_some, ih hc', mapScalar_array,
        List.map_set]

/-- Setting a value keeps the objects keyed as they are. -/
theorem Keyed.run_set {R : κ → κ → Prop} {path : List (Step κ)} {v d d' : Doc κ σ}
    (hd : Keyed R d) (hv : Keyed R v) (h : Patch.run ⟨path, .set v⟩ d = some d') :
    Keyed R d' := by
  simp only [Patch.run] at h
  induction path generalizing d d' with
  | nil =>
    cases h
    exact hv
  | cons s path ih =>
    rcases s with k | i <;> rcases d with a | xs | m <;> try cases h
    case key.object =>
      obtain ⟨c, hc, h⟩ := Option.bind_eq_some_iff.mp h
      obtain ⟨c', hc', h⟩ := Option.bind_eq_some_iff.mp h
      cases h
      obtain ⟨hk, hfields⟩ := keyed_object_iff.mp hd
      have hc' := ih (hfields k c (Assoc.mem_of_lookup hc)) hc'
      refine .object (by rwa [Assoc.keys_replace]) fun j w hj => ?_
      rcases Assoc.mem_replace hj with heq | hj
      · cases heq
        exact hc'
      · exact hfields j w hj
    case index.array =>
      obtain ⟨c, hc, h⟩ := Option.bind_eq_some_iff.mp h
      obtain ⟨c', hc', h⟩ := Option.bind_eq_some_iff.mp h
      cases h
      cases hd with
      | array hd =>
      have hc' := ih (hd c (List.mem_of_getElem? hc)) hc'
      refine .array fun x hx => ?_
      rcases List.mem_or_eq_of_mem_set hx with hx | rfl
      · exact hd x hx
      · exact hc'

end MapScalar

theorem Addressable.mono {ok ok' : κ → Prop} (hok : ∀ k, ok k → ok' k) {d : Doc κ σ}
    (h : Addressable ok d) : Addressable ok' d := by
  induction h with
  | scalar s => exact .scalar s
  | array xs => exact .array xs
  | object hk _ ih => exact .object (fun k hkm => hok k (hk k hkm)) ih

section Leaves
variable {ok : κ → Prop} [DecidablePred ok]

/-- What passes from an object to its fields passes from a document to the values of its leaves. -/
theorem forall_leaves {Q : Doc κ σ → Prop} (hfield : ∀ m k v, Q (.object m) → (k, v) ∈ m → Q v)
    {d : Doc κ σ} (hd : Q d) {p : Patch κ σ} (hp : p ∈ d.leaves ok) :
    ∃ v, p.edit = .set v ∧ Q v := by
  induction d using Doc.induction generalizing p with
  | scalar s =>
    rw [leaves, List.mem_singleton] at hp
    exact ⟨.scalar s, by rw [hp], hd⟩
  | array xs =>
    rw [leaves, List.mem_singleton] at hp
    exact ⟨.array xs, by rw [hp], hd⟩
  | object m ih =>
    rw [leaves] at hp
    obtain ⟨k, v, hkv, -, q, hq, rfl⟩ := mem_fieldLeaves.mp hp
    obtain ⟨w, hw, hQ⟩ := ih k v hkv (hfield m k v hd hkv) hq
    exact ⟨w, hw, hQ⟩

/-- The path of a leaf is made of keys of the document. -/
theorem exists_keys_of_mem_leaves {ok' : κ → Prop} {d : Doc κ σ} (hd : Addressable ok' d)
    {p : Patch κ σ} (hp : p ∈ d.leaves ok) :
    ∃ keys : List κ, p.path = keys.map .key ∧ ∀ k ∈ keys, ok' k := by
  induction hd generalizing p with
  | scalar s =>
    rw [leaves, List.mem_singleton] at hp
    exact ⟨[], by rw [hp]; rfl, by simp⟩
  | array xs =>
    rw [leaves, List.mem_singleton] at hp
    exact ⟨[], by rw [hp]; rfl, by simp⟩
  | object hk _ ih =>
    rw [leaves] at hp
    obtain ⟨k, v, hkv, -, q, hq, rfl⟩ := mem_fieldLeaves.mp hp
    obtain ⟨keys, hpath, hkeys⟩ := ih k v hkv hq
    refine ⟨k :: keys, ?_, List.forall_mem_cons.mpr ⟨?_, hkeys⟩⟩
    · rw [Patch.below, hpath, List.map_cons]
    · exact hk k (List.mem_map_of_mem (f := Prod.fst) hkv)

end Leaves

end PJS.Doc
