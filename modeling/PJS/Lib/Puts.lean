import PJS.Lib.Document

/-! Putting values at paths, where a value whose parent is missing is passed over. Values that a
document itself has at their paths may be put in any order and any number of times: once a field
of the root has been put whole, it stays. -/
namespace PJS.Doc

variable {κ σ : Type} [DecidableEq κ]

/-- The node a path leads to. -/
def get? : List (Step κ) → Doc κ σ → Option (Doc κ σ)
  | [], d => some d
  | .key k :: p, .object m => (m.lookup k).bind (get? p)
  | .index i :: p, .array xs => xs[i]?.bind (get? p)
  | _, _ => none

/-- Put a value at a path. The last step may add a key to an object; every other step, and an
index, has to find its node. -/
def put (v : Doc κ σ) : List (Step κ) → Doc κ σ → Option (Doc κ σ)
  | [], _ => some v
  | [.key k], .object m => some (.object (Assoc.insert k v m))
  | .key k :: p, .object m =>
    ((m.lookup k).bind (put v p)).map fun c => .object (Assoc.replace k c m)
  | .index i :: p, .array xs => (xs[i]?.bind (put v p)).map fun c => .array (xs.set i c)
  | _, _ => none

/-- Put values in order; a value whose parent is missing changes nothing. -/
def putAll (d : Doc κ σ) (ps : List (List (Step κ) × Doc κ σ)) : Doc κ σ :=
  ps.foldl (fun s p => (put p.2 p.1 s).getD s) d

theorem get?_append (p q : List (Step κ)) (d : Doc κ σ) :
    get? (p ++ q) d = (get? p d).bind (get? q) := by
  induction p generalizing d with
  | nil => rfl
  | cons s p ih =>
    rcases s with k | i <;> rcases d with a | xs | m
    case key.object =>
      simp only [List.cons_append, get?, Option.bind_assoc]
      exact congrArg _ (funext ih)
    case index.array =>
      simp only [List.cons_append, get?, Option.bind_assoc]
      exact congrArg _ (funext ih)
    all_goals rfl

/-- A value put below a field changes that field only. -/
theorem put_key {k : κ} {p : List (Step κ)} (hp : p ≠ []) (v : Doc κ σ)
    (m : List (κ × Doc κ σ)) : put v (.key k :: p) (.object m) =
      ((m.lookup k).bind (put v p)).map fun c => .object (Assoc.replace k c m) := by
  rw [put]
  exact hp

/-- Putting what is there already changes nothing. -/
theorem put_of_get? {v d : Doc κ σ} {p : List (Step κ)} (h : get? p d = some v) :
    put v p d = some d := by
  induction p generalizing d with
  | nil => exact h.symm
  | cons s p ih =>
    rcases s with k | i <;> rcases d with a | xs | m <;> try cases h
    case key.object =>
      obtain ⟨c, hc, hget⟩ := Option.bind_eq_some_iff.mp h
      by_cases hp : p = []
      · subst hp
        have hcv : c = v := Option.some.inj hget
        have hk : k ∈ m.map Prod.fst :=
          List.mem_map_of_mem (f := Prod.fst) (Assoc.mem_of_lookup hc)
        rw [put, Assoc.insert, if_pos hk, Assoc.replace_of_lookup (hcv ▸ hc)]
      · rw [put_key hp, hc, Option.bind_some, ih hget, Option.map_some,
          Assoc.replace_of_lookup hc]
    case index.array =>
      obtain ⟨c, hc, hget⟩ := Option.bind_eq_some_iff.mp h
      have hset : xs.set i c = xs := by
        obtain ⟨hi, rfl⟩ := List.getElem?_eq_some_iff.mp hc
        exact List.set_getElem_self hi
      rw [put, hc, Option.bind_some, ih hget, Option.map_some, hset]

/-- The value stands in a field of an object, at the path, at most `n` containers down; every key
on the path is `ok`. -/
inductive FieldAt (ok : κ → Prop) : ℕ → Doc κ σ → List (Step κ) → Doc κ σ → Prop
  | field {n : ℕ} {m : List (κ × Doc κ σ)} {k : κ} {v : Doc κ σ} (h : (k, v) ∈ m) (hk : ok k) :
    FieldAt ok (n + 1) (.object m) [.key k] v
  | object {n : ℕ} {m : List (κ × Doc κ σ)} {k : κ} {v w : Doc κ σ} {p : List (Step κ)}
      (h : (k, v) ∈ m) (hk : ok k) (hw : FieldAt ok n v p w) :
    FieldAt ok (n + 1) (.object m) (.key k :: p) w
  | array {n : ℕ} {xs : List (Doc κ σ)} {i : ℕ} {x w : Doc κ σ} {p : List (Step κ)}
      (h : xs[i]? = some x) (hw : FieldAt ok n x p w) :
    FieldAt ok (n + 1) (.array xs) (.index i :: p) w

omit [DecidableEq κ] in
theorem not_fieldAt_scalar {ok : κ → Prop} {n : ℕ} {s : σ} {p : List (Step κ)} {v : Doc κ σ} :
    ¬ FieldAt ok n (.scalar s) p v := nofun

omit [DecidableEq κ] in
theorem not_fieldAt_zero {ok : κ → Prop} {d v : Doc κ σ} {p : List (Step κ)} :
    ¬ FieldAt ok 0 d p v := nofun

omit [DecidableEq κ] in
theorem FieldAt.ne_nil {ok : κ → Prop} {n : ℕ} {d v : Doc κ σ} {p : List (Step κ)}
    (h : FieldAt ok n d p v) : p ≠ [] := by
  cases h <;> simp

theorem FieldAt.get?_eq {ok : κ → Prop} {n : ℕ} {d v : Doc κ σ} {p : List (Step κ)}
    (h : FieldAt ok n d p v) (hd : Keyed (· ≠ ·) d) : get? p d = some v := by
  induction h with
  | field h _ =>
    obtain ⟨hn, -⟩ := keyed_object_iff.mp hd
    rw [get?, Assoc.lookup_of_mem hn h]
    rfl
  | object h _ _ ih =>
    obtain ⟨hn, hfields⟩ := keyed_object_iff.mp hd
    rw [get?, Assoc.lookup_of_mem hn h, Option.bind_some, ih (hfields _ _ h)]
  | array h _ ih =>
    cases hd with
    | array hd => rw [get?, h, Option.bind_some, ih (hd _ (List.mem_of_getElem? h))]

/-- A put value that belongs to the field `k` of the object `m`. -/
def Belongs (m : List (κ × Doc κ σ)) (p : List (Step κ) × Doc κ σ) : Prop :=
  ∃ k q v, p.1 = .key k :: q ∧ m.lookup k = some v ∧ get? q v = some p.2

/-- One value put into an object that lists the keys of `m`: another field stays as it is, a field
that is as in `m` stays so, and a field put whole becomes so. -/
theorem put_belongs {m n : List (κ × Doc κ σ)} (hkeys : n.map Prod.fst = m.map Prod.fst)
    {p : List (Step κ) × Doc κ σ} (h : Belongs m p) :
    ∃ n', (put p.2 p.1 (.object n)).getD (.object n) = .object n' ∧
      n'.map Prod.fst = m.map Prod.fst ∧
      (∀ k, p.1.head? ≠ some (.key k) → n'.lookup k = n.lookup k) ∧
      (∀ k, n.lookup k = m.lookup k → n'.lookup k = m.lookup k) ∧
      (∀ k, p.1 = [.key k] → n'.lookup k = m.lookup k) := by
  obtain ⟨path, w⟩ := p
  obtain ⟨k, q, v, hpath, hk, hget⟩ := h
  change path = .key k :: q at hpath
  subst hpath
  have hmem : k ∈ n.map Prod.fst :=
    hkeys ▸ List.mem_map_of_mem (f := Prod.fst) (Assoc.mem_of_lookup hk)
  have hreplace : ∀ c j, (Assoc.replace k c n).lookup j =
      if j = k then some c else n.lookup j := by
    intro c j
    obtain ⟨x, hx⟩ := Assoc.exists_lookup hmem
    rw [Assoc.lookup_replace, hx, Option.map_some]
  by_cases hq : q = []
  · subst hq
    have hvw : v = w := Option.some.inj hget
    refine ⟨Assoc.replace k w n, ?_, by rw [Assoc.keys_replace, hkeys], ?_, ?_, ?_⟩
    · rw [put, Assoc.insert, if_pos hmem, Option.getD_some]
    · intro j hj
      have hne : j ≠ k := fun he => hj (by rw [he]; rfl)
      rw [hreplace, if_neg hne]
    · intro j hj
      rw [hreplace]
      split_ifs with he
      · rw [he, hk, hvw]
      · exact hj
    · intro j hj
      have he : k = j := by simpa using hj
      rw [hreplace, if_pos he.symm, ← he, hk, hvw]
  · rw [put_key hq]
    have hone : ∀ j, (.key k :: q : List (Step κ)) ≠ [.key j] := fun j he => hq (by simp_all)
    cases hput : (n.lookup k).bind (put w q) with
    | none =>
      exact ⟨n, by simp, hkeys, fun j _ => rfl, fun j hj => hj, fun j hj => absurd hj (hone j)⟩
    | some c =>
      refine ⟨Assoc.replace k c n, by simp, by rw [Assoc.keys_replace, hkeys], ?_, ?_,
        fun j hj => absurd hj (hone j)⟩
      · intro j hj
        have hne : j ≠ k := fun he => hj (by rw [he]; rfl)
        rw [hreplace, if_neg hne]
      · intro j hj
        rw [hreplace]
        split_ifs with he
        · -- the field is whole already, and has the value at the path
          subst he
          rw [hj, hk, Option.bind_some, put_of_get? hget] at hput
          rw [hk, hput]
        · exact hj

/-- Values of `m`, among which those of all fields in `ok` are put whole and the other fields do
not occur, turn an object with the keys of `m` into `m` but for the other fields. -/
theorem putAll_object {m n : List (κ × Doc κ σ)} (hkeys : n.map Prod.fst = m.map Prod.fst)
    (hn : (m.map Prod.fst).Nodup) (ok : κ → Prop) [DecidablePred ok]
    {ps : List (List (Step κ) × Doc κ σ)} (hps : ∀ p ∈ ps, Belongs m p)
    (hwhole : ∀ k ∈ m.map Prod.fst, ok k → ∃ p ∈ ps, p.1 = [.key k])
    (hother : ∀ p ∈ ps, ∀ k, p.1.head? = some (.key k) → ok k) :
    putAll (.object n) ps = .object (m.map fun e =>
      (e.1, if ok e.1 then e.2 else (n.lookup e.1).getD e.2)) := by
  suffices hgen : ∀ n', n'.map Prod.fst = m.map Prod.fst →
      (∀ k, ¬ ok k → n'.lookup k = n.lookup k) →
      (∀ k ∈ m.map Prod.fst, ok k → n'.lookup k = m.lookup k ∨ ∃ p ∈ ps, p.1 = [.key k]) →
      putAll (.object n') ps = .object (m.map fun e =>
        (e.1, if ok e.1 then e.2 else (n.lookup e.1).getD e.2)) from
    hgen n hkeys (fun _ _ => rfl) fun k hk hok => Or.inr (hwhole k hk hok)
  clear hwhole
  induction ps with
  | nil =>
    intro n' hk' hkeep hdone
    have hlookup := Assoc.lookup_map
      (fun (k : κ) (v : Doc κ σ) => if ok k then v else (n.lookup k).getD v)
    change Doc.object n' = _
    congr 1
    refine Assoc.eq_of_lookup_eq (by simpa [Function.comp_def] using hk') (hk' ▸ hn) fun k hk => ?_
    obtain ⟨v, hv⟩ := Assoc.exists_lookup (hk' ▸ hk)
    rw [hlookup, hv, Option.map_some]
    by_cases hok : ok k
    · rcases hdone k (hk' ▸ hk) hok with h | ⟨p, hp, -⟩
      · rw [h, hv, if_pos hok]
      · cases hp
    · obtain ⟨w, hw⟩ := Assoc.exists_lookup (hkeys ▸ hk' ▸ hk : k ∈ n.map Prod.fst)
      rw [hkeep k hok, hw, if_neg hok, Option.getD_some]
  | cons p ps ih =>
    intro n' hk' hkeep hdone
    obtain ⟨n'', hput, hk'', hframe, hstay, hset⟩ := put_belongs hk' (hps p (by simp))
    have hrest := ih (fun q hq => hps q (by simp [hq])) (fun q hq => hother q (by simp [hq])) n'' hk''
    rw [putAll, List.foldl_cons, hput]
    refine hrest (fun k hok => ?_) fun k hk hok => ?_
    · rw [hframe k fun hhead => hok (hother p (by simp) k hhead), hkeep k hok]
    · rcases hdone k hk hok with h | ⟨q, hq, hqk⟩
      · exact Or.inl (hstay k h)
      · rcases List.mem_cons.mp hq with rfl | hq
        · exact Or.inl (hset k hqk)
        · exact Or.inr ⟨q, hq, hqk⟩

end PJS.Doc
