import PJS.Lib.Assoc

/-! Documents: trees of scalars, arrays and keyed objects. A path of keys and indices addresses
at most one node; an edit replaces the node it addresses or extends the array found there.

The results below say how a list of edits to an object splits into lists of edits to its fields,
which is how every reconstruction argument proceeds. -/
namespace PJS

inductive Doc (κ σ : Type) where
  | scalar (s : σ)
  | array (xs : List (Doc κ σ))
  | object (m : List (κ × Doc κ σ))

namespace Doc

variable {κ σ : Type}

/-- One step into a document. -/
inductive Step (κ : Type) where
  | key (k : κ)
  | index (i : ℕ)
deriving DecidableEq

section DecidableEq
variable [DecidableEq κ] [DecidableEq σ]

mutual

def decEq : (a b : Doc κ σ) → Decidable (a = b)
  | .scalar s, .scalar t => decidable_of_iff (s = t) (by simp)
  | .array xs, .array ys =>
    match decEqList xs ys with
    | isTrue h => isTrue (by rw [h])
    | isFalse h => isFalse (by simpa using h)
  | .object m, .object n =>
    match decEqFields m n with
    | isTrue h => isTrue (by rw [h])
    | isFalse h => isFalse (by simpa using h)
  | .scalar _, .array _ => isFalse (by simp)
  | .scalar _, .object _ => isFalse (by simp)
  | .array _, .scalar _ => isFalse (by simp)
  | .array _, .object _ => isFalse (by simp)
  | .object _, .scalar _ => isFalse (by simp)
  | .object _, .array _ => isFalse (by simp)

def decEqList : (a b : List (Doc κ σ)) → Decidable (a = b)
  | [], [] => isTrue rfl
  | [], _ :: _ => isFalse (by simp)
  | _ :: _, [] => isFalse (by simp)
  | x :: xs, y :: ys =>
    match decEq x y, decEqList xs ys with
    | isTrue h, isTrue h' => isTrue (by rw [h, h'])
    | isFalse h, _ => isFalse (by simp [h])
    | _, isFalse h => isFalse (by simp [h])

def decEqFields : (a b : List (κ × Doc κ σ)) → Decidable (a = b)
  | [], [] => isTrue rfl
  | [], _ :: _ => isFalse (by simp)
  | _ :: _, [] => isFalse (by simp)
  | (j, x) :: m, (k, y) :: n =>
    match decEq x y, decEqFields m n, (inferInstance : Decidable (j = k)) with
    | isTrue h, isTrue h', isTrue h'' => isTrue (by rw [h, h', h''])
    | isFalse h, _, _ => isFalse (by simp [h])
    | _, isFalse h, _ => isFalse (by simp [h])
    | _, _, isFalse h => isFalse (by simp [h])

end

instance : DecidableEq (Doc κ σ) := decEq

end DecidableEq

/-- Induction with one hypothesis per element and per field. -/
@[elab_as_elim] theorem induction {P : Doc κ σ → Prop} (scalar : ∀ s, P (.scalar s))
    (array : ∀ xs, (∀ x ∈ xs, P x) → P (.array xs))
    (object : ∀ m, (∀ k v, (k, v) ∈ m → P v) → P (.object m)) (d : Doc κ σ) : P d :=
  @Doc.rec κ σ P (fun xs => ∀ x ∈ xs, P x) (fun m => ∀ k v, (k, v) ∈ m → P v) (fun e => P e.2)
    scalar array object (by simp)
    (fun x xs hx hxs y hy => by
      rcases List.mem_cons.mp hy with rfl | hy
      · exact hx
      · exact hxs y hy)
    (by simp)
    (fun e m he hm k v hv => by
      rcases List.mem_cons.mp hv with rfl | hv
      · exact he
      · exact hm k v hv)
    (fun _ _ hv => hv) d

/-- Every object of the document, at any depth, lists its keys pairwise related by `R`. -/
inductive Keyed (R : κ → κ → Prop) : Doc κ σ → Prop
  | scalar (s : σ) : Keyed R (.scalar s)
  | array {xs : List (Doc κ σ)} (h : ∀ x ∈ xs, Keyed R x) : Keyed R (.array xs)
  | object {m : List (κ × Doc κ σ)} (hk : (m.map Prod.fst).Pairwise R)
      (h : ∀ k v, (k, v) ∈ m → Keyed R v) : Keyed R (.object m)

theorem keyed_object_iff {R : κ → κ → Prop} {m : List (κ × Doc κ σ)} :
    Keyed R (.object m) ↔ (m.map Prod.fst).Pairwise R ∧ ∀ k v, (k, v) ∈ m → Keyed R v :=
  ⟨fun h => by cases h with | object hk h => exact ⟨hk, h⟩, fun h => .object h.1 h.2⟩

theorem Keyed.mono {R S : κ → κ → Prop} (hRS : ∀ a b, R a b → S a b) {d : Doc κ σ}
    (h : Keyed R d) : Keyed S d := by
  induction h with
  | scalar s => exact .scalar s
  | array _ ih => exact .array ih
  | object hk _ ih => exact .object (hk.imp (hRS _ _)) ih

/-- No array of the document, at any depth, has more than `n` elements. -/
inductive Sized (n : ℕ) : Doc κ σ → Prop
  | scalar (s : σ) : Sized n (.scalar s)
  | array {xs : List (Doc κ σ)} (hlen : xs.length ≤ n) (h : ∀ x ∈ xs, Sized n x) :
    Sized n (.array xs)
  | object {m : List (κ × Doc κ σ)} (h : ∀ k v, (k, v) ∈ m → Sized n v) : Sized n (.object m)

section Scalars
variable {τ : Type} (f : σ → τ)

mutual

/-- The document with every scalar replaced. -/
def mapScalar : Doc κ σ → Doc κ τ
  | .scalar s => .scalar (f s)
  | .array xs => .array (mapScalarList xs)
  | .object m => .object (mapScalarFields m)

def mapScalarList : List (Doc κ σ) → List (Doc κ τ)
  | [] => []
  | x :: xs => mapScalar x :: mapScalarList xs

def mapScalarFields : List (κ × Doc κ σ) → List (κ × Doc κ τ)
  | [] => []
  | (k, v) :: m => (k, mapScalar v) :: mapScalarFields m

end

@[simp] theorem mapScalar_array (xs : List (Doc κ σ)) :
    mapScalar f (.array xs) = .array (xs.map (mapScalar f)) := by
  rw [mapScalar, array.injEq]
  induction xs with
  | nil => rfl
  | cons x xs ih => rw [mapScalarList, ih, List.map_cons]

@[simp] theorem mapScalar_object (m : List (κ × Doc κ σ)) :
    mapScalar f (.object m) = .object (m.map fun e => (e.1, mapScalar f e.2)) := by
  rw [mapScalar, object.injEq]
  induction m with
  | nil => rfl
  | cons e m ih => rw [mapScalarFields, ih, List.map_cons]

end Scalars

section Nodes

mutual

/-- The number of scalars, arrays and objects in a document. -/
def nodes : Doc κ σ → ℕ
  | .scalar _ => 1
  | .array xs => 1 + nodesList xs
  | .object m => 1 + nodesFields m

def nodesList : List (Doc κ σ) → ℕ
  | [] => 0
  | x :: xs => nodes x + nodesList xs

def nodesFields : List (κ × Doc κ σ) → ℕ
  | [] => 0
  | (_, v) :: m => nodes v + nodesFields m

end

theorem nodes_array (xs : List (Doc κ σ)) : (array xs).nodes = 1 + (xs.map nodes).sum := by
  rw [nodes]
  congr 1
  induction xs with
  | nil => rfl
  | cons x xs ih => rw [nodesList, ih, List.map_cons, List.sum_cons]

theorem nodes_replicate (n : ℕ) (d : Doc κ σ) :
    (array (List.replicate n d)).nodes = 1 + n * d.nodes := by
  rw [nodes_array, List.map_replicate, List.sum_replicate, smul_eq_mul]

theorem nodes_object (m : List (κ × Doc κ σ)) :
    (object m).nodes = 1 + (m.map fun e => e.2.nodes).sum := by
  rw [nodes]
  congr 1
  induction m with
  | nil => rfl
  | cons e m ih => rw [nodesFields, ih, List.map_cons, List.sum_cons]

theorem nodes_mapScalar {τ : Type} (f : σ → τ) (d : Doc κ σ) : (d.mapScalar f).nodes = d.nodes := by
  induction d using Doc.induction with
  | scalar s => rfl
  | array xs ih =>
    rw [mapScalar_array, nodes_array, nodes_array, List.map_map]
    congr 2
    exact List.map_congr_left ih
  | object m ih =>
    rw [mapScalar_object, nodes_object, nodes_object, List.map_map]
    congr 2
    exact List.map_congr_left fun e he => ih e.1 e.2 he

/-- A field is smaller than its object. -/
theorem nodes_lt_of_mem {m : List (κ × Doc κ σ)} {k : κ} {v : Doc κ σ} (h : (k, v) ∈ m) :
    v.nodes < (object m).nodes := by
  have hle : v.nodes ≤ (m.map fun e => e.2.nodes).sum :=
    List.single_le_sum (by simp) _ (List.mem_map.mpr ⟨(k, v), h, rfl⟩)
  rw [nodes_object]
  omega

end Nodes

section Edits
variable [DecidableEq κ]

/-- Apply `f` to the node a path addresses; `none` when a step leads nowhere or `f` refuses. -/
def modify? : List (Step κ) → (Doc κ σ → Option (Doc κ σ)) → Doc κ σ → Option (Doc κ σ)
  | [], f, d => f d
  | .key k :: p, f, .object m => do
    let c ← m.lookup k
    let c' ← modify? p f c
    some (.object (Assoc.replace k c' m))
  | .index i :: p, f, .array xs => do
    let c ← xs[i]?
    let c' ← modify? p f c
    some (.array (xs.set i c'))
  | _, _, _ => none

/-- What to do at an addressed node. -/
inductive Edit (κ σ : Type) where
  | set (v : Doc κ σ)
  | append (vs : List (Doc κ σ))

def Edit.run : Edit κ σ → Doc κ σ → Option (Doc κ σ)
  | .set v, _ => some v
  | .append vs, .array xs => some (.array (xs ++ vs))
  | .append _, _ => none

structure Patch (κ σ : Type) where
  path : List (Step κ)
  edit : Edit κ σ

def Patch.run (p : Patch κ σ) (d : Doc κ σ) : Option (Doc κ σ) := modify? p.path p.edit.run d

/-- Run patches in order, stopping at the first that fails. -/
def runAll : List (Patch κ σ) → Doc κ σ → Option (Doc κ σ)
  | [], d => some d
  | p :: ps, d => (p.run d).bind (runAll ps)

/-- What a patch of an object does to the field `k`, as a patch of that field. -/
def Patch.under (k : κ) : Patch κ σ → Option (Patch κ σ)
  | ⟨[], .set (.object w)⟩ => (w.lookup k).map fun v => ⟨[], .set v⟩
  | ⟨.key j :: p, e⟩ => if k = j then some ⟨p, e⟩ else none
  | _ => none

/-- The patch leaves an object with the keys `ks`: it works inside one field, or puts an object
that lists the same keys. -/
def Patch.KeepsKeys (ks : List κ) : Patch κ σ → Prop
  | ⟨[], .set (.object w)⟩ => w.map Prod.fst = ks
  | ⟨.key k :: _, _⟩ => k ∈ ks
  | _ => False

theorem Patch.under_set {k : κ} {w : List (κ × Doc κ σ)} {v : Doc κ σ} (h : w.lookup k = some v) :
    Patch.under k ⟨[], .set (.object w)⟩ = some ⟨[], .set v⟩ := by
  simp [Patch.under, h]

@[simp] theorem Patch.under_key_self (k : κ) (p : List (Step κ)) (e : Edit κ σ) :
    Patch.under k ⟨.key k :: p, e⟩ = some ⟨p, e⟩ := by
  simp [Patch.under]

theorem Patch.under_key_ne {k j : κ} (h : k ≠ j) (p : List (Step κ)) (e : Edit κ σ) :
    Patch.under k ⟨.key j :: p, e⟩ = none := by
  simp [Patch.under, h]

@[simp] theorem runAll_nil (d : Doc κ σ) : runAll [] d = some d := rfl

theorem runAll_cons (p : Patch κ σ) (ps : List (Patch κ σ)) (d : Doc κ σ) :
    runAll (p :: ps) d = (p.run d).bind (runAll ps) := rfl

theorem runAll_append (ps qs : List (Patch κ σ)) (d : Doc κ σ) :
    runAll (ps ++ qs) d = (runAll ps d).bind (runAll qs) := by
  induction ps generalizing d with
  | nil => rfl
  | cons p ps ih =>
    rw [List.cons_append, runAll_cons, runAll_cons, Option.bind_assoc]
    exact congrArg _ (funext ih)

/-- Patches of an object act on its fields independently: if what they do to each field `k`
ends in `r k`, together they end in the object with these fields. -/
theorem runAll_object {ps : List (Patch κ σ)} {m : List (κ × Doc κ σ)} {r : κ → Doc κ σ}
    (hn : (m.map Prod.fst).Nodup) (hk : ∀ p ∈ ps, p.KeepsKeys (m.map Prod.fst))
    (h : ∀ k v, m.lookup k = some v → runAll (ps.filterMap (Patch.under k)) v = some (r k)) :
    runAll ps (.object m) = some (.object (m.map fun e => (e.1, r e.1))) := by
  induction ps generalizing m with
  | nil =>
    have hm : m.map (fun e => (e.1, r e.1)) = m := by
      conv_rhs => rw [← List.map_id m]
      refine List.map_congr_left fun e he => ?_
      have hr := h e.1 e.2 (Assoc.lookup_of_mem hn he)
      rw [List.filterMap_nil, runAll_nil, Option.some.injEq] at hr
      rw [← hr]
      rfl
    rw [hm, runAll_nil]
  | cons p ps ih =>
    have hps : ∀ q ∈ ps, q.KeepsKeys (m.map Prod.fst) := fun q hq => hk q (by simp [hq])
    have hp := hk p (by simp)
    match p, hp with
    | ⟨[], .set (.object w)⟩, hw =>
      -- the whole object is replaced, which replaces each of its fields
      change w.map Prod.fst = m.map Prod.fst at hw
      rw [runAll_cons, Assoc.map_of_keys_eq r hw.symm]
      refine ih (hw ▸ hn) (hw ▸ hps) fun k v hv => ?_
      have hkm : k ∈ m.map Prod.fst :=
        hw ▸ List.mem_map_of_mem (f := Prod.fst) (Assoc.mem_of_lookup hv)
      obtain ⟨x, hx⟩ := Assoc.exists_lookup hkm
      have hrun := h k x hx
      rw [List.filterMap_cons_some (Patch.under_set hv)] at hrun
      exact hrun
    | ⟨.key j :: q, e⟩, hj =>
      -- one field changes; the other fields do not see the patch
      change j ∈ m.map Prod.fst at hj
      obtain ⟨x, hx⟩ := Assoc.exists_lookup hj
      have hrun := h j x hx
      rw [List.filterMap_cons_some (Patch.under_key_self j q e), runAll_cons,
        Option.bind_eq_some_iff] at hrun
      obtain ⟨c, hc, hcs⟩ := hrun
      have hstep : Patch.run ⟨.key j :: q, e⟩ (.object m) =
          some (.object (Assoc.replace j c m)) := by
        change (m.lookup j).bind _ = _
        rw [hx, Option.bind_some]
        change (Patch.run ⟨q, e⟩ x).bind _ = _
        rw [hc, Option.bind_some]
      rw [runAll_cons, hstep, Option.bind_some,
        Assoc.map_of_keys_eq r (Assoc.keys_replace j c m).symm]
      refine ih (by rwa [Assoc.keys_replace]) (by rwa [Assoc.keys_replace]) fun k v hv => ?_
      rw [Assoc.lookup_replace] at hv
      split_ifs at hv with hkj
      · subst hkj
        rw [hx, Option.map_some, Option.some.injEq] at hv
        rwa [← hv]
      · have hrun := h k v hv
        rwa [List.filterMap_cons_none (Patch.under_key_ne hkj q e)] at hrun

end Edits

end Doc

end PJS
