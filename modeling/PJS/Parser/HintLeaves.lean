import PJS.Parser.PartialDepth
import PJS.Lib.Puts

/-! The leaves of a value that is being read. The input has them in the order in which they are
read, the hint in the order of the maps. The last of the one is the last of the other where no
object on the way down to it holds scalars in two fields. -/
namespace PJS

open Doc (Sized get?)

section Latest

variable {ν : Type}

/-- The fields that no later field of the same key replaces. -/
def latest : List (String × ν) → List (String × ν)
  | [] => []
  | (key, v) :: m => if key ∈ m.map Prod.fst then latest m else (key, v) :: latest m

theorem mem_of_mem_latest {e : String × ν} {m : List (String × ν)} (h : e ∈ latest m) : e ∈ m := by
  induction m with
  | nil => exact h
  | cons e' m ih =>
    rw [latest] at h
    split_ifs at h
    · exact List.mem_cons_of_mem e' (ih h)
    · rcases List.mem_cons.mp h with rfl | h
      · exact List.mem_cons_self
      · exact List.mem_cons_of_mem e' (ih h)

theorem mem_keys_latest {key : String} {m : List (String × ν)} :
    key ∈ (latest m).map Prod.fst ↔ key ∈ m.map Prod.fst := by
  induction m with
  | nil => rfl
  | cons e m ih =>
    rw [latest, List.map_cons, List.mem_cons]
    split_ifs with he
    · rw [ih]
      exact ⟨Or.inr, fun h => h.elim (fun h => h ▸ he) id⟩
    · rw [List.map_cons, List.mem_cons, ih]

theorem nodup_latest (m : List (String × ν)) : ((latest m).map Prod.fst).Nodup := by
  induction m with
  | nil => exact List.nodup_nil
  | cons e m ih =>
    rw [latest]
    split_ifs with he
    · exact ih
    · exact List.nodup_cons.mpr ⟨fun h => he (mem_keys_latest.mp h), ih⟩

end Latest

namespace JiterPartialParser

section Value

variable (parseF64 : String → Float)

/-- The value a scalar is read as. -/
def scalarData : TokenScalar → JsonData
  | .null => .null
  | .bool b => .bool b
  | .number (.int i) => .integer i
  | .number (.bigInt b) => .float (parseF64 (Int.repr b))
  | .number (.float f) => .float f
  | .string s => .string s

mutual

/-- The value a document is read as. -/
def dataOf : TokenDoc → JsonData
  | .scalar s => scalarData parseF64 s
  | .array xs => .array (dataItems xs)
  | .object m => .object (dataFields m [])

def dataItems : List TokenDoc → List JsonData
  | [] => []
  | x :: xs => dataOf x :: dataItems xs

/-- The map that the fields are put into. -/
def dataFields : List (String × TokenDoc) → List (String × JsonData) → List (String × JsonData)
  | [], map => map
  | (key, v) :: m, map => dataFields m (Assoc.insert key (dataOf v) map)

end

variable {parseF64}

theorem dataItems_eq (xs : List TokenDoc) : dataItems parseF64 xs = xs.map (dataOf parseF64) := by
  induction xs with
  | nil => rw [dataItems, List.map_nil]
  | cons x xs ih => rw [dataItems, List.map_cons, ih]

theorem nodup_dataFields (m : List (String × TokenDoc)) {map : List (String × JsonData)}
    (h : (map.map Prod.fst).Nodup) : ((dataFields parseF64 m map).map Prod.fst).Nodup := by
  induction m generalizing map with
  | nil => rwa [dataFields]
  | cons e m ih =>
    rw [dataFields]
    exact ih (Assoc.nodup_insert h)

theorem lookup_dataFields (key : String) (m : List (String × TokenDoc))
    (map : List (String × JsonData)) :
    (dataFields parseF64 m map).lookup key =
      (((latest m).lookup key).map (dataOf parseF64)).or (map.lookup key) := by
  induction m generalizing map with
  | nil => simp [dataFields, latest]
  | cons e m ih =>
    obtain ⟨k, v⟩ := e
    rw [dataFields, ih, Assoc.lookup_insert, latest]
    by_cases hkey : key = k
    · subst hkey
      rw [if_pos rfl]
      split_ifs with hk
      · obtain ⟨w, hw⟩ := Assoc.exists_lookup (mem_keys_latest.mpr hk)
        rw [hw]
        rfl
      · rw [Assoc.lookup_eq_none_iff_notMem.mpr fun h => hk (mem_keys_latest.mp h)]
        simp
    · rw [if_neg hkey]
      split_ifs with hk
      · rfl
      · rw [Assoc.lookup_cons_ne hkey]

/-- The map has the keys of the fields. -/
theorem keys_dataFields_perm (m : List (String × TokenDoc)) :
    ((dataFields parseF64 m []).map Prod.fst).Perm ((latest m).map Prod.fst) := by
  refine (List.perm_ext_iff_of_nodup (@nodup_dataFields parseF64 m [] List.nodup_nil)
    (nodup_latest m)).mpr
    fun key => ?_
  rw [← not_iff_not, ← Assoc.lookup_eq_none_iff_notMem, ← Assoc.lookup_eq_none_iff_notMem,
    lookup_dataFields]
  simp

end Value

section Order

mutual

/-- The paths of the scalars that stay in the value, in the order in which they are read. -/
def readLeaves : TokenDoc → JsonPath → List JsonPath
  | .scalar _, path => [path]
  | .array xs, path => readItems xs path 0
  | .object m, path => readFields m path

def readItems : List TokenDoc → JsonPath → ℕ → List JsonPath
  | [], _, _ => []
  | x :: xs, path, idx =>
    readLeaves x (path.appendIndex (UInt64.ofNat idx)) ++ readItems xs path (idx + 1)

def readFields : List (String × TokenDoc) → JsonPath → List JsonPath
  | [], _ => []
  | (key, v) :: m, path =>
    (if key ∈ m.map Prod.fst then [] else readLeaves v (childPath path key)) ++ readFields m path

end

/-- No object on the way down to the scalar read last holds scalars in two fields. -/
inductive OneWay : TokenDoc → JsonPath → Prop
  | empty {d : TokenDoc} {path : JsonPath} (h : readLeaves d path = []) : OneWay d path
  | scalar (s : TokenScalar) (path : JsonPath) : OneWay (.scalar s) path
  | array {xs ys : List TokenDoc} {x : TokenDoc} {path : JsonPath}
    (hx : readLeaves x (path.appendIndex (UInt64.ofNat xs.length)) ≠ [])
    (hlast : readItems ys path (xs.length + 1) = [])
    (h : OneWay x (path.appendIndex (UInt64.ofNat xs.length))) :
    OneWay (.array (xs ++ x :: ys)) path
  | object {m : List (String × TokenDoc)} {key : String} {v : TokenDoc} {path : JsonPath}
    (hv : (key, v) ∈ latest m)
    (honly : ∀ e ∈ latest m, e ≠ (key, v) → readLeaves e.2 (childPath path e.1) = [])
    (h : OneWay v (childPath path key)) : OneWay (.object m) path

theorem readItems_append (xs ys : List TokenDoc) (path : JsonPath) (idx : ℕ) :
    readItems (xs ++ ys) path idx =
      readItems xs path idx ++ readItems ys path (idx + xs.length) := by
  induction xs generalizing idx with
  | nil => rw [List.nil_append, readItems, List.nil_append, List.length_nil, Nat.add_zero]
  | cons x xs ih =>
    rw [List.cons_append, readItems, readItems, ih, List.append_assoc, List.length_cons,
      Nat.add_right_comm, Nat.add_assoc]

theorem readFields_eq (m : List (String × TokenDoc)) (path : JsonPath) :
    readFields m path = (latest m).flatMap fun e => readLeaves e.2 (childPath path e.1) := by
  induction m with
  | nil => rw [readFields, latest, List.flatMap_nil]
  | cons e m ih =>
    rw [readFields, latest, ih]
    split_ifs with he
    · rfl
    · rfl

end Order

section Leaves

variable {m : MapOrder}

theorem collectItems_append (xs ys : List JsonData) (path : JsonPath) (idx : ℕ) :
    collectItems m (xs ++ ys) path idx =
      collectItems m xs path idx ++ collectItems m ys path (idx + xs.length) := by
  induction xs generalizing idx with
  | nil => rw [List.nil_append, collectItems, List.nil_append, List.length_nil, Nat.add_zero]
  | cons x xs ih =>
    rw [List.cons_append, collectItems, collectItems, ih, List.append_assoc, List.length_cons,
      Nat.add_right_comm, Nat.add_assoc]

theorem mem_collectItems {p path : JsonPath} {xs : List JsonData} {idx : ℕ} :
    p ∈ collectItems m xs path idx ↔ ∃ i x, xs[i]? = some x ∧
      p ∈ collectLeaves (m.under (.index (idx + i))) x
        (path.appendIndex (UInt64.ofNat (idx + i))) := by
  induction xs generalizing idx with
  | nil => simp [collectItems]
  | cons y xs ih =>
    rw [collectItems, List.mem_append, ih]
    constructor
    · rintro (h | ⟨i, x, hi, h⟩)
      · exact ⟨0, y, rfl, h⟩
      · refine ⟨i + 1, x, by simpa using hi, ?_⟩
        rwa [Nat.add_right_comm] at h
    · rintro ⟨i, x, hi, h⟩
      cases i with
      | zero =>
        cases hi
        exact Or.inl h
      | succ i =>
        refine Or.inr ⟨i, x, by simpa using hi, ?_⟩
        rwa [Nat.add_right_comm]

/-- The leaves under a key of a map. -/
def fieldLeaves (m : MapOrder) (map : List (String × JsonData)) (path : JsonPath) (key : String) :
    List JsonPath :=
  ((map.lookup key).map fun v =>
    collectLeaves (m.under (.key key)) v (childPath path key)).getD []

theorem collectFields_eq (map : List (String × JsonData)) (path : JsonPath) :
    collectFields m map path =
      map.map fun e =>
        (e.1, collectLeaves (m.under (.key e.1)) e.2 (childPath path e.1)) := by
  induction map with
  | nil => rw [collectFields, List.map_nil]
  | cons e map ih => rw [collectFields, List.map_cons, ih]

theorem collectLeaves_object (map : List (String × JsonData)) (path : JsonPath) :
    collectLeaves m (.object map) path =
      (m.order [] (map.map Prod.fst)).flatMap (fieldLeaves m map path) := by
  have hkeys : (collectFields m map path).map Prod.fst = map.map Prod.fst := by
    rw [collectFields_eq, List.map_map]
    rfl
  rw [collectLeaves, hkeys, collectFields_eq]
  refine congrArg (List.flatMap · _) (funext fun key => ?_)
  rw [fieldLeaves, Assoc.lookup_map fun k v =>
    collectLeaves (m.under (.key k)) v (childPath path k)]

theorem segments_childPath (path : JsonPath) (key : String) :
    path.segments <+: (childPath path key).segments := by
  unfold childPath
  cases h : path.appendKey key with
  | ok p =>
    rw [JsonPath.segments_of_appendKey h]
    exact List.prefix_append _ _
  | error e => exact List.prefix_refl _

/-- Every leaf is below the node whose leaves are collected. -/
theorem segments_of_mem_collectLeaves {v : JsonData} {p path : JsonPath}
    (h : p ∈ collectLeaves m v path) : path.segments <+: p.segments := by
  induction v using Doc.induction generalizing path m with
  | scalar s =>
    rw [collectLeaves, List.mem_singleton] at h
    rw [h]
  | array xs ih =>
    rw [collectLeaves, mem_collectItems] at h
    obtain ⟨i, x, hi, h⟩ := h
    exact (List.prefix_append _ _).trans (ih x (List.mem_of_getElem? hi) h)
  | object map ih =>
    rw [collectLeaves_object, List.mem_flatMap] at h
    obtain ⟨key, -, h⟩ := h
    unfold fieldLeaves at h
    cases hv : map.lookup key with
    | none =>
      rw [hv] at h
      cases h
    | some v =>
      rw [hv] at h
      exact (segments_childPath path key).trans (ih key v (Assoc.mem_of_lookup hv) h)

/-- A node is below one index of an array only. -/
theorem index_unique {path p : JsonPath} {i j : ℕ} (hi : i < 2 ^ 64) (hj : j < 2 ^ 64)
    (h : (path.appendIndex (UInt64.ofNat i)).segments <+: p.segments)
    (h' : (path.appendIndex (UInt64.ofNat j)).segments <+: p.segments) : i = j := by
  have hlen : (path.appendIndex (UInt64.ofNat i)).segments.length =
      (path.appendIndex (UInt64.ofNat j)).segments.length := by
    simp [JsonPath.appendIndex]
  have heq := (List.prefix_of_prefix_length_le h h' hlen.le).eq_of_length hlen
  have hindex : (UInt64.ofNat i).toNat = (UInt64.ofNat j).toNat := by
    simpa only [JsonPath.appendIndex, List.append_cancel_left_eq, List.cons.injEq,
      Doc.Step.index.injEq, and_true] using heq
  have hi' : (UInt64.ofNat i).toNat = i := UInt64.toNat_ofNat_of_lt hi
  have hj' : (UInt64.ofNat j).toNat = j := UInt64.toNat_ofNat_of_lt hj
  rwa [hi', hj'] at hindex

variable {parseF64 : String → Float}

theorem exists_scalarData (s : TokenScalar) : ∃ x, scalarData parseF64 s = .scalar x := by
  cases s with
  | number n => cases n <;> exact ⟨_, rfl⟩
  | _ => exact ⟨_, rfl⟩

theorem fieldLeaves_of_mem {fields : List (String × TokenDoc)} {e : String × TokenDoc}
    (he : e ∈ latest fields) (path : JsonPath) :
    fieldLeaves m (dataFields parseF64 fields []) path e.1 =
      collectLeaves (m.under (.key e.1)) (dataOf parseF64 e.2) (childPath path e.1) := by
  rw [fieldLeaves, lookup_dataFields, Assoc.lookup_of_mem (nodup_latest fields) he]
  rfl

theorem collectItems_perm {xs : List TokenDoc}
    (h : ∀ x ∈ xs, ∀ (m : MapOrder) (path : JsonPath),
      (collectLeaves m (dataOf parseF64 x) path).Perm (readLeaves x path)) (path : JsonPath) (idx : ℕ) :
    (collectItems m (dataItems parseF64 xs) path idx).Perm (readItems xs path idx) := by
  induction xs generalizing idx with
  | nil => rw [dataItems, collectItems, readItems]
  | cons x xs ih =>
    rw [List.forall_mem_cons] at h
    rw [dataItems, collectItems, readItems]
    exact (h.1 _ _).append (ih h.2 (idx + 1))

/-- The leaves are the scalars that were read, in some order. -/
theorem collectLeaves_perm (d : TokenDoc) (path : JsonPath) :
    (collectLeaves m (dataOf parseF64 d) path).Perm (readLeaves d path) := by
  induction d using Doc.induction generalizing path m with
  | scalar s =>
    obtain ⟨x, hx⟩ := @exists_scalarData parseF64 s
    rw [dataOf, hx, collectLeaves, readLeaves]
  | array xs ih =>
    rw [dataOf, collectLeaves, readLeaves]
    exact collectItems_perm (fun x hx m path => ih x hx path) path 0
  | object fields ih =>
    rw [dataOf, collectLeaves_object, readLeaves, readFields_eq]
    refine ((m.perm _ _).flatMap_right _).trans ?_
    refine ((keys_dataFields_perm fields).flatMap_right _).trans ?_
    rw [List.flatMap_map]
    refine List.Perm.flatMap_left _ fun e he => ?_
    rw [fieldLeaves_of_mem he]
    exact ih e.1 e.2 (mem_of_mem_latest he) _

theorem collectItems_eq_nil {xs : List TokenDoc} {path : JsonPath} {idx : ℕ}
    (h : readItems xs path idx = []) : collectItems m (dataItems parseF64 xs) path idx = [] := by
  have hperm := @collectItems_perm m parseF64 xs (fun x _ _ => collectLeaves_perm x) path idx
  rw [h] at hperm
  exact hperm.eq_nil

theorem collectLeaves_eq_nil {d : TokenDoc} {path : JsonPath} (h : readLeaves d path = []) :
    collectLeaves m (dataOf parseF64 d) path = [] := by
  have hperm := @collectLeaves_perm m parseF64 d path
  rw [h] at hperm
  exact hperm.eq_nil

/-- `b` is the last leaf, and no other. -/
def EndsWith (leaves : List JsonPath) (b : JsonPath) : Prop :=
  ∃ init, leaves = init ++ [b] ∧ b ∉ init

theorem EndsWith.append {leaves leaves' : List JsonPath} {b : JsonPath} (h : EndsWith leaves b)
    (hne : b ∉ leaves') : EndsWith (leaves' ++ leaves) b := by
  obtain ⟨init, rfl, hb⟩ := h
  refine ⟨leaves' ++ init, by rw [List.append_assoc], fun h => ?_⟩
  exact (List.mem_append.mp h).elim hne hb

theorem EndsWith.mem {leaves : List JsonPath} {b : JsonPath} (h : EndsWith leaves b) :
    b ∈ leaves := by
  obtain ⟨init, rfl, -⟩ := h
  exact List.mem_append_right init (List.mem_singleton_self b)

theorem flatMap_eq_of_only {α β : Type} {f : α → List β} {l : List α} {a : α} (hn : l.Nodup)
    (ha : a ∈ l) (h : ∀ x ∈ l, x ≠ a → f x = []) : l.flatMap f = f a := by
  induction l with
  | nil => cases ha
  | cons y l ih =>
    obtain ⟨hy, hn⟩ := List.nodup_cons.mp hn
    rw [List.flatMap_cons]
    rcases List.mem_cons.mp ha with rfl | ha
    · have hrest : l.flatMap f = [] := List.flatMap_eq_nil_iff.mpr fun x hx =>
        h x (List.mem_cons_of_mem a hx) fun he => hy (he ▸ hx)
      rw [hrest, List.append_nil]
    · rw [h y List.mem_cons_self fun he => hy (he ▸ ha), List.nil_append]
      exact ih hn ha fun x hx => h x (List.mem_cons_of_mem y hx)

/-- Where one field only holds scalars, the leaves are those of the field. -/
theorem collectLeaves_only {fields : List (String × TokenDoc)} {key : String} {v : TokenDoc}
    {path : JsonPath} (hv : (key, v) ∈ latest fields)
    (honly : ∀ e ∈ latest fields, e ≠ (key, v) → readLeaves e.2 (childPath path e.1) = []) :
    collectLeaves m (.object (dataFields parseF64 fields [])) path =
      collectLeaves (m.under (.key key)) (dataOf parseF64 v) (childPath path key) := by
  rw [collectLeaves_object, ← fieldLeaves_of_mem hv path]
  refine flatMap_eq_of_only ((m.perm _ _).nodup_iff.mpr (nodup_dataFields _ List.nodup_nil))
    ?_ fun k hk hne => ?_
  · rw [(m.perm _ _).mem_iff, (keys_dataFields_perm fields).mem_iff]
    exact List.mem_map_of_mem hv
  · rw [(m.perm _ _).mem_iff, (keys_dataFields_perm fields).mem_iff] at hk
    obtain ⟨e, he, rfl⟩ := List.mem_map.mp hk
    rw [fieldLeaves_of_mem he]
    exact collectLeaves_eq_nil (honly e he fun heq => hne (by rw [heq]))

/-- Where it is reached on one way, the scalar read last is the last leaf in every order. -/
theorem collectLeaves_endsWith {d : TokenDoc} {path b : JsonPath} (hd : d.Sized (2 ^ 64))
    (h : OneWay d path) (hb : (readLeaves d path).getLast? = some b) :
    EndsWith (collectLeaves m (dataOf parseF64 d) path) b := by
  induction h generalizing m with
  | empty h =>
    rw [h] at hb
    cases hb
  | scalar s path =>
    obtain ⟨x, hx⟩ := @exists_scalarData parseF64 s
    rw [readLeaves, List.getLast?_singleton] at hb
    rw [dataOf, hx, collectLeaves, Option.some.inj hb]
    exact ⟨[], rfl, List.not_mem_nil⟩
  | @array xs ys x path hx hlast _ ih =>
    cases hd with
    | array hlen hd =>
    rw [readLeaves, readItems_append, readItems, Nat.zero_add, hlast, List.append_nil,
      List.getLast?_append_of_ne_nil _ hx] at hb
    have hends := @ih (m.under (.index xs.length)) (hd x (by simp)) hb
    rw [dataOf, collectLeaves, dataItems_eq, List.map_append, List.map_cons, collectItems_append,
      collectItems, ← dataItems_eq ys, List.length_map, Nat.zero_add, collectItems_eq_nil hlast,
      List.append_nil]
    refine hends.append fun hp => ?_
    obtain ⟨i, y, hi, hp⟩ := mem_collectItems.mp hp
    have hlt : i < xs.length := by simpa using (List.getElem?_eq_some_iff.mp hi).1
    rw [List.length_append, List.length_cons] at hlen
    rw [Nat.zero_add] at hp
    have heq : i = xs.length := index_unique (by omega) (by omega)
      (segments_of_mem_collectLeaves hp) (segments_of_mem_collectLeaves hends.mem)
    omega
  | @object fields key v path hv honly _ ih =>
    cases hd with
    | object hd =>
    have hleaves : readFields fields path = readLeaves v (childPath path key) := by
      rw [readFields_eq]
      exact flatMap_eq_of_only (nodup_latest fields).of_map hv honly
    rw [readLeaves, hleaves] at hb
    rw [dataOf, collectLeaves_only hv honly]
    exact ih (hd key v (mem_of_mem_latest hv)) hb

end Leaves

section Converse

variable {parseF64 : String → Float}

/-- Maps that list the key first. -/
def first (key : String) : MapOrder where
  order _ keys := if key ∈ keys then key :: keys.erase key else keys
  perm _ keys := by
    split_ifs with h
    · exact (List.perm_cons_erase h).symm
    · exact List.Perm.refl keys

/-- Maps below a step that are listed as `m` says; the others are listed in their own order. -/
def placed (step : Doc.Step String) (m : MapOrder) : MapOrder where
  order steps keys := if steps.head? = some step then m.order steps.tail keys else keys
  perm steps keys := by
    split_ifs
    · exact m.perm steps.tail keys
    · exact List.Perm.refl keys

theorem under_placed (step : Doc.Step String) (m : MapOrder) : (placed step m).under step = m :=
  MapOrder.ext (funext fun _ => funext fun _ => if_pos rfl)

/-- The last element of a list that holds leaves. -/
theorem exists_last_item {xs : List TokenDoc} {path : JsonPath} (h : readItems xs path 0 ≠ []) :
    ∃ ys x zs, xs = ys ++ x :: zs ∧
      readLeaves x (path.appendIndex (UInt64.ofNat ys.length)) ≠ [] ∧
      readItems zs path (ys.length + 1) = [] := by
  induction xs using List.reverseRecOn with
  | nil => exact absurd (by rw [readItems]) h
  | append_singleton xs x ih =>
    rw [readItems_append, readItems, readItems, List.append_nil, Nat.zero_add] at h
    by_cases hx : readLeaves x (path.appendIndex (UInt64.ofNat xs.length)) = []
    · rw [hx, List.append_nil] at h
      obtain ⟨ys, y, zs, rfl, hy, hzs⟩ := ih h
      refine ⟨ys, y, zs ++ [x], by simp, hy, ?_⟩
      rw [readItems_append, hzs, List.nil_append, readItems, readItems, List.append_nil]
      rw [List.length_append, List.length_cons] at hx
      rwa [Nat.add_right_comm, Nat.add_assoc]
    · exact ⟨xs, x, [], rfl, hx, by rw [readItems]⟩

/-- The last field that holds leaves. -/
theorem exists_last_field {fields : List (String × TokenDoc)} {path b : JsonPath}
    (h : (readFields fields path).getLast? = some b) :
    ∃ e ∈ latest fields, (readLeaves e.2 (childPath path e.1)).getLast? = some b := by
  rw [readFields_eq] at h
  generalize latest fields = es at h ⊢
  induction es using List.reverseRecOn with
  | nil => cases h
  | append_singleton es e ih =>
    rw [List.flatMap_append, List.flatMap_singleton] at h
    by_cases he : readLeaves e.2 (childPath path e.1) = []
    · rw [he, List.append_nil] at h
      obtain ⟨e', he', hb⟩ := ih h
      exact ⟨e', List.mem_append_left _ he', hb⟩
    · rw [List.getLast?_append_of_ne_nil _ he] at h
      exact ⟨e, List.mem_append_right _ (List.mem_singleton_self e), h⟩

theorem mem_dropLast_append {leaves leaves' : List JsonPath} {b : JsonPath} (hb : b ∈ leaves)
    (hne : leaves' ≠ []) : b ∈ (leaves ++ leaves').dropLast := by
  rw [List.dropLast_append_of_ne_nil hne]
  exact List.mem_append_left _ hb

/-- Where the scalar read last is not reached on one way, some order lists it before another. -/
theorem exists_order_of_not_oneWay {d : TokenDoc} {path b : JsonPath} (h : ¬OneWay d path)
    (hb : (readLeaves d path).getLast? = some b) :
    ∃ m : MapOrder, b ∈ (collectLeaves m (dataOf parseF64 d) path).dropLast := by
  induction d using Doc.induction generalizing path with
  | scalar s => exact absurd (.scalar s path) h
  | array xs ih =>
    rw [readLeaves] at hb
    have hne : readItems xs path 0 ≠ [] := by
      intro hnil
      rw [hnil] at hb
      cases hb
    obtain ⟨ys, x, zs, rfl, hx, hzs⟩ := exists_last_item hne
    rw [readItems_append, readItems, Nat.zero_add, hzs, List.append_nil,
      List.getLast?_append_of_ne_nil _ hx] at hb
    obtain ⟨m, hm⟩ := ih x (by simp) (fun hway => h (.array hx hzs hway)) hb
    refine ⟨placed (.index ys.length) m, ?_⟩
    rw [dataOf, collectLeaves, dataItems_eq, List.map_append, List.map_cons, collectItems_append,
      collectItems, ← dataItems_eq zs, List.length_map, Nat.zero_add, collectItems_eq_nil hzs,
      List.append_nil, under_placed,
      List.dropLast_append_of_ne_nil fun hnil => by rw [hnil] at hm; cases hm]
    exact List.mem_append_right _ hm
  | object fields ih =>
    rw [readLeaves] at hb
    obtain ⟨⟨key, v⟩, he, hv⟩ := exists_last_field hb
    by_cases honly : ∀ e ∈ latest fields, e ≠ (key, v) → readLeaves e.2 (childPath path e.1) = []
    · obtain ⟨m, hm⟩ := ih key v (mem_of_mem_latest he) (fun hway => h (.object he honly hway)) hv
      refine ⟨placed (.key key) m, ?_⟩
      rw [dataOf, collectLeaves_only he honly, under_placed]
      exact hm
    · simp only [not_forall] at honly
      obtain ⟨e, he', hne, hleaves⟩ := honly
      refine ⟨first key, ?_⟩
      have hkey : key ∈ (dataFields parseF64 fields []).map Prod.fst := by
        rw [(keys_dataFields_perm fields).mem_iff]
        exact List.mem_map_of_mem he
      have hother : e.1 ∈ ((dataFields parseF64 fields []).map Prod.fst).erase key := by
        rw [List.mem_erase_of_ne, (keys_dataFields_perm fields).mem_iff]
        · exact List.mem_map_of_mem he'
        · intro heq
          have hlookup := Assoc.lookup_of_mem (nodup_latest fields) he'
          rw [heq, Assoc.lookup_of_mem (nodup_latest fields) he] at hlookup
          exact hne (Prod.ext heq (Option.some.inj hlookup).symm)
      have horder : (first key).order [] ((dataFields parseF64 fields []).map Prod.fst) =
          key :: ((dataFields parseF64 fields []).map Prod.fst).erase key := if_pos hkey
      rw [dataOf, collectLeaves_object, horder, List.flatMap_cons, fieldLeaves_of_mem he]
      refine mem_dropLast_append ?_ fun hnil => hleaves ?_
      · exact (collectLeaves_perm v _).mem_iff.mpr (List.mem_of_getLast? hv)
      · have hnil' := List.flatMap_eq_nil_iff.mp hnil e.1 hother
        rw [fieldLeaves_of_mem he'] at hnil'
        have hperm := @collectLeaves_perm ((first key).under (.key e.1)) parseF64 e.2 (childPath path e.1)
        rw [hnil'] at hperm
        exact hperm.symm.eq_nil

end Converse

end JiterPartialParser

end PJS
