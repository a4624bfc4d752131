import PJS.Lib.FloatOrder
import PJS.Lib.Lists
import PJS.Domain.JsonData

/-! Equality and hashing of values. Equality is derived: floats compare as numbers, arrays item
by item, objects as unordered maps. The hash is written by hand over the bits of a float and the
sorted entries of an object. The two disagree about one thing only, the sign of a zero. -/
namespace PJS.JsonData
open FloatOrder (OppositeZeros)

/-- One write to the hasher. -/
inductive HashToken where
  | u8 (n : UInt8)
  | u64 (n : UInt64)
  | i64 (i : Int64)
  | str (s : String)
  | length (n : ℕ)
deriving DecidableEq

section Definitions

def scalarEq : DataScalar → DataScalar → Bool
  | .null, .null => true
  | .bool b, .bool c => b == c
  | .integer i, .integer j => i == j
  | .float f, .float g => f == g
  | .string s, .string t => s == t
  | _, _ => false

mutual

/-- `PartialEq::eq`. -/
def partialEq : JsonData → JsonData → Bool
  | .scalar s, .scalar t => scalarEq s t
  | .array xs, .array ys => partialEqItems xs ys
  | .object m, .object n => m.length == n.length && partialEqFields m n
  | _, _ => false

def partialEqItems : List JsonData → List JsonData → Bool
  | [], [] => true
  | x :: xs, y :: ys => partialEq x y && partialEqItems xs ys
  | _, _ => false

/-- Every entry of the first map is found in the second. -/
def partialEqFields : List (String × JsonData) → List (String × JsonData) → Bool
  | [], _ => true
  | (key, value) :: rest, n =>
    (match n.lookup key with
      | some v => partialEq value v
      | none => false) && partialEqFields rest n

end

def scalarTokens : DataScalar → List HashToken
  | .null => [.u8 0]
  | .bool b => [.u8 1, .u8 (if b then 1 else 0)]
  | .integer i => [.u8 2, .i64 i]
  | .float f => [.u8 3, .u64 f.toBits]
  | .string s => [.u8 4, .str s]

mutual

/-- `Hash::hash`: what is written to the hasher, in order. -/
def hashTokens : JsonData → List HashToken
  | .scalar s => scalarTokens s
  | .array arr => .u8 5 :: .length arr.length :: hashItems arr
  | .object obj =>
    let pairs := Assoc.sortByKey (hashFields obj)
    .u8 6 :: .length pairs.length :: pairs.flatMap fun e => .str e.1 :: e.2

def hashItems : List JsonData → List HashToken
  | [] => []
  | item :: rest => hashTokens item ++ hashItems rest

def hashFields : List (String × JsonData) → List (String × List HashToken)
  | [] => []
  | (key, value) :: rest => (key, hashTokens value) :: hashFields rest

end

end Definitions

/-- At some place that both values have, they hold zeros of opposite signs. -/
inductive ZerosDiffer : JsonData → JsonData → Prop
  | float {f g : Float} (h : OppositeZeros f g) : ZerosDiffer (.float f) (.float g)
  | array {xs ys : List JsonData} {i : ℕ} {x y : JsonData} (hx : xs[i]? = some x)
      (hy : ys[i]? = some y) (h : ZerosDiffer x y) : ZerosDiffer (.array xs) (.array ys)
  | object {m n : List (String × JsonData)} {key : String} {v w : JsonData}
      (hv : m.lookup key = some v) (hw : n.lookup key = some w) (h : ZerosDiffer v w) :
      ZerosDiffer (.object m) (.object n)

/-- The same value with the entries of its objects, at any depth, listed in another order. -/
inductive Reordered : JsonData → JsonData → Prop
  | scalar (s : DataScalar) : Reordered (.scalar s) (.scalar s)
  | array {xs ys : List JsonData} (hlen : xs.length = ys.length)
      (h : ∀ (i : ℕ) (x y : JsonData), xs[i]? = some x → ys[i]? = some y → Reordered x y) :
      Reordered (.array xs) (.array ys)
  | object {m n : List (String × JsonData)} (hk : (m.map Prod.fst).Perm (n.map Prod.fst))
      (h : ∀ (key : String) (v w : JsonData), m.lookup key = some v → n.lookup key = some w →
        Reordered v w) : Reordered (.object m) (.object n)

section Equality

theorem partialEqItems_iff {xs ys : List JsonData} :
    partialEqItems xs ys = true ↔
      xs.length = ys.length ∧ ∀ p ∈ xs.zip ys, partialEq p.1 p.2 = true := by
  induction xs generalizing ys with
  | nil => cases ys <;> simp [partialEqItems]
  | cons x xs ih =>
    cases ys with
    | nil => simp [partialEqItems]
    | cons y ys =>
      simp only [partialEqItems, Bool.and_eq_true, ih, List.length_cons, List.zip_cons_cons,
        List.forall_mem_cons, Nat.add_right_cancel_iff]
      tauto

theorem partialEqFields_iff {m n : List (String × JsonData)} :
    partialEqFields m n = true ↔
      ∀ k v, (k, v) ∈ m → ∃ w, n.lookup k = some w ∧ partialEq v w = true := by
  induction m with
  | nil => simp [partialEqFields]
  | cons e m ih =>
    obtain ⟨key, value⟩ := e
    simp only [partialEqFields, Bool.and_eq_true, ih, List.mem_cons, Prod.mk.injEq]
    constructor
    · rintro ⟨h, ht⟩ k v (⟨rfl, rfl⟩ | hm)
      · cases hl : n.lookup k with
        | none => simp [hl] at h
        | some w => exact ⟨w, rfl, by simpa [hl] using h⟩
      · exact ht k v hm
    · intro h
      refine ⟨?_, fun k v hm => h k v (Or.inr hm)⟩
      obtain ⟨w, hw, he⟩ := h key value (Or.inl ⟨rfl, rfl⟩)
      rw [hw]
      exact he

theorem partialEq_array_iff {xs ys : List JsonData} :
    partialEq (.array xs) (.array ys) = true ↔
      xs.length = ys.length ∧ ∀ p ∈ xs.zip ys, partialEq p.1 p.2 = true := by
  rw [partialEq, partialEqItems_iff]

theorem partialEq_object_iff {m n : List (String × JsonData)} :
    partialEq (.object m) (.object n) = true ↔ m.length = n.length ∧
      ∀ k v, (k, v) ∈ m → ∃ w, n.lookup k = some w ∧ partialEq v w = true := by
  rw [partialEq, Bool.and_eq_true, partialEqFields_iff, beq_iff_eq]

/-- Equal objects have the same keys. -/
theorem keys_perm_of_partialEq {m n : List (String × JsonData)}
    (hm : (m.map Prod.fst).Nodup) (h : partialEq (.object m) (.object n) = true) :
    (m.map Prod.fst).Perm (n.map Prod.fst) := by
  obtain ⟨hlen, hf⟩ := partialEq_object_iff.mp h
  have hsub : m.map Prod.fst ⊆ n.map Prod.fst := by
    intro k hk
    obtain ⟨⟨_, v⟩, he, rfl⟩ := List.mem_map.mp hk
    obtain ⟨w, hw, -⟩ := hf _ v he
    exact List.mem_map.mpr ⟨_, Assoc.mem_of_lookup hw, rfl⟩
  exact (List.subperm_of_subset hm hsub).perm_of_length_le (by simp [hlen])

theorem partialEq_scalar {s : DataScalar} {b : JsonData} (h : partialEq (.scalar s) b = true) :
    ∃ t, b = .scalar t ∧ scalarEq s t = true := by
  cases b with
  | scalar t => exact ⟨t, rfl, h⟩
  | array ys => cases h
  | object n => cases h

theorem scalarEq_comm (s t : DataScalar) : scalarEq s t = scalarEq t s := by
  cases s <;> cases t <;> simp only [scalarEq]
  case bool.bool b c => exact BEq.comm
  case integer.integer i j => exact BEq.comm
  case string.string s t => exact BEq.comm
  case float.float f g => exact FloatOrder.beq_comm f g

theorem partialEq_symm {a b : JsonData} (ha : Distinct a) (hb : Distinct b)
    (h : partialEq a b = true) : partialEq b a = true := by
  induction a using Doc.induction generalizing b with
  | scalar s =>
    obtain ⟨t, rfl, he⟩ := partialEq_scalar h
    exact (scalarEq_comm t s).trans he
  | array xs ih =>
    cases b with
    | scalar t => cases h
    | object n => cases h
    | array ys =>
      obtain ⟨hlen, hp⟩ := partialEq_array_iff.mp h
      cases ha with | array ha =>
      cases hb with | array hb =>
      refine partialEq_array_iff.mpr ⟨hlen.symm, fun p hm => ?_⟩
      have hm' : p.swap ∈ xs.zip ys := by
        rw [← List.zip_swap]
        exact List.mem_map_of_mem hm
      exact ih p.2 (List.of_mem_zip hm).2 (ha _ (List.of_mem_zip hm).2)
        (hb _ (List.of_mem_zip hm).1) (hp p.swap hm')
  | object m ih =>
    cases b with
    | scalar t => cases h
    | array ys => cases h
    | object n =>
      obtain ⟨hm, ha⟩ := Doc.keyed_object_iff.mp ha
      obtain ⟨hn, hb⟩ := Doc.keyed_object_iff.mp hb
      obtain ⟨hlen, hf⟩ := partialEq_object_iff.mp h
      refine partialEq_object_iff.mpr ⟨hlen.symm, fun k w hw => ?_⟩
      have hk : k ∈ m.map Prod.fst :=
        (keys_perm_of_partialEq hm h).mem_iff.mpr (List.mem_map_of_mem (f := Prod.fst) hw)
      obtain ⟨v, hv⟩ := Assoc.exists_lookup hk
      obtain ⟨w', hw', he⟩ := hf k v (Assoc.mem_of_lookup hv)
      have hww : w' = w := Option.some.inj (hw'.symm.trans (Assoc.lookup_of_mem hn hw))
      exact ⟨v, hv, ih k v (Assoc.mem_of_lookup hv) (ha k v (Assoc.mem_of_lookup hv)) (hb k w hw)
        (hww ▸ he)⟩

theorem ZerosDiffer.symm {a b : JsonData} (h : ZerosDiffer a b) : ZerosDiffer b a := by
  induction h with
  | float h => exact .float h.symm
  | array hx hy _ ih => exact .array hy hx ih
  | object hv hw _ ih => exact .object hw hv ih

end Equality

section Reordered

theorem mem_zip_iff {xs ys : List JsonData} {p : JsonData × JsonData} :
    p ∈ xs.zip ys ↔ ∃ i : ℕ, xs[i]? = some p.1 ∧ ys[i]? = some p.2 := by
  rw [List.mem_iff_getElem?]
  simp only [List.getElem?_zip_eq_some]

theorem Reordered.symm {a b : JsonData} (h : Reordered a b) : Reordered b a := by
  induction h with
  | scalar s => exact .scalar s
  | array hlen _ ih => exact .array hlen.symm fun i x y hx hy => ih i y x hy hx
  | object hk _ ih => exact .object hk.symm fun key v w hv hw => ih key w v hw hv

theorem Reordered.refl (a : JsonData) : Reordered a a := by
  induction a using Doc.induction with
  | scalar s => exact .scalar s
  | array xs ih =>
    refine .array rfl fun i x y hx hy => ?_
    cases hx.symm.trans hy
    exact ih x (List.mem_of_getElem? hx)
  | object m ih =>
    refine .object (.refl _) fun key v w hv hw => ?_
    cases hv.symm.trans hw
    exact ih key v (Assoc.mem_of_lookup hv)

/-- The item at the same index of the array listed otherwise. -/
theorem exists_item {xs ys : List JsonData} (hlen : xs.length = ys.length) {i : ℕ} {y : JsonData}
    (hy : ys[i]? = some y) : ∃ x, xs[i]? = some x := by
  obtain ⟨hi, -⟩ := List.getElem?_eq_some_iff.mp hy
  exact ⟨xs[i], List.getElem?_eq_getElem (by omega)⟩

/-- The entry under the same key of the object listed otherwise. -/
theorem exists_entry {m n : List (String × JsonData)}
    (hk : (m.map Prod.fst).Perm (n.map Prod.fst)) {key : String} {w : JsonData}
    (hw : n.lookup key = some w) : ∃ v, m.lookup key = some v :=
  Assoc.exists_lookup (hk.mem_iff.mpr (List.mem_map.mpr ⟨_, Assoc.mem_of_lookup hw, rfl⟩))

/-- Equality does not see the order of entries. -/
theorem partialEq_reordered {a a' b b' : JsonData} (ha : Reordered a a') (hb : Reordered b b')
    (da' : Distinct a') (db : Distinct b) (h : partialEq a b = true) : partialEq a' b' = true := by
  induction ha generalizing b b' with
  | scalar s =>
    obtain ⟨t, rfl, he⟩ := partialEq_scalar h
    cases hb
    exact he
  | array hlen _ ih =>
    cases hb with
    | scalar t => cases h
    | object hk hb => cases h
    | array hlen' hb =>
      obtain ⟨hl, hp⟩ := partialEq_array_iff.mp h
      cases da' with | array da' =>
      cases db with | array db =>
      refine partialEq_array_iff.mpr ⟨by omega, fun p hm => ?_⟩
      obtain ⟨i, hx', hy'⟩ := mem_zip_iff.mp hm
      obtain ⟨x, hx⟩ := exists_item hlen hx'
      obtain ⟨y, hy⟩ := exists_item hlen' hy'
      exact ih i x p.1 hx hx' (hb i y p.2 hy hy') (da' _ (List.mem_of_getElem? hx'))
        (db _ (List.mem_of_getElem? hy)) (hp (x, y) (mem_zip_iff.mpr ⟨i, hx, hy⟩))
  | object hk _ ih =>
    cases hb with
    | scalar t => cases h
    | array hlen' hb => cases h
    | object hk' hb =>
      obtain ⟨hl, hf⟩ := partialEq_object_iff.mp h
      obtain ⟨dm', da'⟩ := Doc.keyed_object_iff.mp da'
      obtain ⟨dn, db⟩ := Doc.keyed_object_iff.mp db
      refine partialEq_object_iff.mpr ⟨?_, fun key v' hv' => ?_⟩
      · have h1 := hk.length_eq
        have h2 := hk'.length_eq
        simp only [List.length_map] at h1 h2
        omega
      · have hl' := Assoc.lookup_of_mem dm' hv'
        obtain ⟨v, hv⟩ := exists_entry hk hl'
        obtain ⟨w, hw, he⟩ := hf key v (Assoc.mem_of_lookup hv)
        obtain ⟨w', hw'⟩ := exists_entry hk'.symm hw
        exact ⟨w', hw', ih key v v' hv hl' (hb key w w' hw hw') (da' key v' hv')
          (db key w (Assoc.mem_of_lookup hw)) he⟩

end Reordered

section Tokens

theorem hashItems_eq (xs : List JsonData) : hashItems xs = xs.flatMap hashTokens := by
  induction xs with
  | nil => rfl
  | cons x xs ih => rw [hashItems, ih, List.flatMap_cons]

theorem hashFields_eq (m : List (String × JsonData)) :
    hashFields m = m.map fun e => (e.1, hashTokens e.2) := by
  induction m with
  | nil => rfl
  | cons e m ih => rw [hashFields, ih, List.map_cons]

/-- What is written for one key of an object. -/
def entryTokens (m : List (String × JsonData)) (key : String) : List HashToken :=
  .str key :: ((m.lookup key).map hashTokens).getD []

theorem hashTokens_object {m : List (String × JsonData)} (hm : (m.map Prod.fst).Nodup) :
    hashTokens (.object m) = .u8 6 :: .length m.length ::
      ((m.map Prod.fst).insertionSort (· ≤ ·)).flatMap (entryTokens m) := by
  have hk : (hashFields m).map Prod.fst = m.map Prod.fst := by
    rw [hashFields_eq, List.map_map]
    rfl
  have hlen : (Assoc.sortByKey (hashFields m)).length = m.length := by
    rw [(Assoc.sortByKey_perm _).length_eq, hashFields_eq, List.length_map]
  have hlook : ∀ k, (hashFields m).lookup k = (m.lookup k).map hashTokens := fun k => by
    rw [hashFields_eq]
    exact Assoc.lookup_map (fun _ => hashTokens) k m
  rw [hashTokens, hlen, Assoc.sortByKey_eq (hk ▸ hm) [], hk, List.flatMap_map]
  simp only [hlook]
  rfl

/-- Two arrays of one length, written out pair by pair. -/
theorem hashItems_zip {xs ys : List JsonData} (h : xs.length = ys.length) :
    hashItems xs = (xs.zip ys).flatMap (fun p => hashTokens p.1) ∧
      hashItems ys = (xs.zip ys).flatMap (fun p => hashTokens p.2) := by
  constructor
  · conv_lhs => rw [hashItems_eq, ← List.map_fst_zip h.le]
    rw [List.flatMap_map]
  · conv_lhs => rw [hashItems_eq, ← List.map_snd_zip h.ge]
    rw [List.flatMap_map]

/-- The entries of equal objects, found under one key. -/
theorem exists_entries {m n : List (String × JsonData)} (hm : ∀ k v, (k, v) ∈ m → Distinct v)
    (hn : ∀ k v, (k, v) ∈ n → Distinct v) (h : partialEq (.object m) (.object n) = true)
    {key : String} (hk : key ∈ (m.map Prod.fst).insertionSort (· ≤ ·)) :
    ∃ v w, m.lookup key = some v ∧ n.lookup key = some w ∧ Distinct v ∧ Distinct w ∧
      partialEq v w = true := by
  obtain ⟨v, hv⟩ := Assoc.exists_lookup ((List.perm_insertionSort _ _).mem_iff.mp hk)
  obtain ⟨w, hw, he⟩ := (partialEq_object_iff.mp h).2 key v (Assoc.mem_of_lookup hv)
  exact ⟨v, w, hv, hw, hm key v (Assoc.mem_of_lookup hv), hn key w (Assoc.mem_of_lookup hw), he⟩

theorem entryTokens_of_lookup {m : List (String × JsonData)} {key : String} {v : JsonData}
    (h : m.lookup key = some v) : entryTokens m key = .str key :: hashTokens v := by
  rw [entryTokens, h]
  rfl

/-- Two equal objects, written out under the same keys. -/
theorem hashTokens_objects {m n : List (String × JsonData)} (hm : (m.map Prod.fst).Nodup)
    (hn : (n.map Prod.fst).Nodup) (h : partialEq (.object m) (.object n) = true) :
    hashTokens (.object n) = .u8 6 :: .length m.length ::
      ((m.map Prod.fst).insertionSort (· ≤ ·)).flatMap (entryTokens n) := by
  rw [hashTokens_object hn, Assoc.sorted_keys_eq (keys_perm_of_partialEq hm h),
    (partialEq_object_iff.mp h).1]

/-- Values that compare equal write equally many tokens. -/
theorem length_hashTokens {a b : JsonData} (ha : Distinct a) (hb : Distinct b)
    (h : partialEq a b = true) : (hashTokens a).length = (hashTokens b).length := by
  induction a using Doc.induction generalizing b with
  | scalar s =>
    obtain ⟨t, rfl, he⟩ := partialEq_scalar h
    cases s <;> cases t <;> first | rfl | cases he
  | array xs ih =>
    cases b with
    | scalar t => cases h
    | object n => cases h
    | array ys =>
      obtain ⟨hlen, hp⟩ := partialEq_array_iff.mp h
      cases ha with | array ha =>
      cases hb with | array hb =>
      obtain ⟨hx, hy⟩ := hashItems_zip hlen
      have hpieces : ∀ p ∈ xs.zip ys, (hashTokens p.1).length = (hashTokens p.2).length :=
        fun p hm => ih p.1 (List.of_mem_zip hm).1 (ha _ (List.of_mem_zip hm).1)
          (hb _ (List.of_mem_zip hm).2) (hp p hm)
      simp only [hashTokens, List.length_cons, hx, hy, Lists.length_flatMap_congr hpieces]
  | object m ih =>
    cases b with
    | scalar t => cases h
    | array ys => cases h
    | object n =>
      obtain ⟨hm, ha⟩ := Doc.keyed_object_iff.mp ha
      obtain ⟨hn, hb⟩ := Doc.keyed_object_iff.mp hb
      have hpieces : ∀ key ∈ (m.map Prod.fst).insertionSort (· ≤ ·),
          (entryTokens m key).length = (entryTokens n key).length := by
        intro key hk
        obtain ⟨v, w, hv, hw, dv, dw, he⟩ := exists_entries ha hb h hk
        rw [entryTokens_of_lookup hv, entryTokens_of_lookup hw, List.length_cons,
          ih key v (Assoc.mem_of_lookup hv) dv dw he, List.length_cons]
      rw [hashTokens_object hm, hashTokens_objects hm hn h, List.length_cons, List.length_cons,
        Lists.length_flatMap_congr hpieces]
      rfl

section ZerosDiffer

theorem zerosDiffer_scalar {s t : DataScalar} (h : scalarEq s t = true) :
    scalarTokens s = scalarTokens t ↔ ¬ ZerosDiffer (.scalar s) (.scalar t) := by
  constructor
  · rintro he ⟨hz⟩
    exact hz.toBits_ne (by simpa [scalarTokens] using he)
  · intro hz
    cases s <;> cases t <;> simp only [scalarEq, beq_iff_eq, Bool.false_eq_true] at h
    case null.null => rfl
    case bool.bool => rw [h]
    case integer.integer => rw [h]
    case string.string => rw [h]
    case float.float f g =>
      rcases FloatOrder.eq_or_oppositeZeros h with rfl | ho
      · rfl
      · exact absurd (.float ho) hz

theorem zerosDiffer_array_iff {xs ys : List JsonData} :
    ZerosDiffer (.array xs) (.array ys) ↔ ∃ p ∈ xs.zip ys, ZerosDiffer p.1 p.2 := by
  constructor
  · rintro (_ | ⟨hx, hy, h⟩)
    exact ⟨(_, _), mem_zip_iff.mpr ⟨_, hx, hy⟩, h⟩
  · rintro ⟨p, hp, h⟩
    obtain ⟨i, hx, hy⟩ := mem_zip_iff.mp hp
    exact .array hx hy h

theorem zerosDiffer_object_iff {m n : List (String × JsonData)} :
    ZerosDiffer (.object m) (.object n) ↔
      ∃ key v w, m.lookup key = some v ∧ n.lookup key = some w ∧ ZerosDiffer v w := by
  constructor
  · rintro (_ | _ | ⟨hv, hw, h⟩)
    exact ⟨_, _, _, hv, hw, h⟩
  · rintro ⟨key, v, w, hv, hw, h⟩
    exact .object hv hw h

end ZerosDiffer

/-- Values that compare equal hash equally exactly if their zeros agree in sign. -/
theorem hashTokens_eq_iff {a b : JsonData} (ha : Distinct a) (hb : Distinct b)
    (h : partialEq a b = true) : hashTokens a = hashTokens b ↔ ¬ ZerosDiffer a b := by
  induction a using Doc.induction generalizing b with
  | scalar s =>
    obtain ⟨t, rfl, he⟩ := partialEq_scalar h
    exact zerosDiffer_scalar he
  | array xs ih =>
    cases b with
    | scalar t => cases h
    | object n => cases h
    | array ys =>
      obtain ⟨hlen, hp⟩ := partialEq_array_iff.mp h
      cases ha with | array ha =>
      cases hb with | array hb =>
      obtain ⟨hx, hy⟩ := hashItems_zip hlen
      have hmem : ∀ p ∈ xs.zip ys, p.1 ∈ xs ∧ p.2 ∈ ys := fun p hm => List.of_mem_zip hm
      have hpieces : ∀ p ∈ xs.zip ys, (hashTokens p.1).length = (hashTokens p.2).length :=
        fun p hm => length_hashTokens (ha _ (hmem p hm).1) (hb _ (hmem p hm).2) (hp p hm)
      rw [hashTokens, hashTokens, hlen, hx, hy, List.cons_inj_right, List.cons_inj_right,
        Lists.flatMap_eq_flatMap_iff hpieces, zerosDiffer_array_iff]
      push Not
      exact forall₂_congr fun p hm =>
        ih p.1 (hmem p hm).1 (ha _ (hmem p hm).1) (hb _ (hmem p hm).2) (hp p hm)
  | object m ih =>
    cases b with
    | scalar t => cases h
    | array ys => cases h
    | object n =>
      obtain ⟨hm, ha⟩ := Doc.keyed_object_iff.mp ha
      obtain ⟨hn, hb⟩ := Doc.keyed_object_iff.mp hb
      have hpieces : ∀ key ∈ (m.map Prod.fst).insertionSort (· ≤ ·),
          (entryTokens m key).length = (entryTokens n key).length := by
        intro key hk
        obtain ⟨v, w, hv, hw, dv, dw, he⟩ := exists_entries ha hb h hk
        rw [entryTokens_of_lookup hv, entryTokens_of_lookup hw, List.length_cons,
          length_hashTokens dv dw he, List.length_cons]
      rw [hashTokens_object hm, hashTokens_objects hm hn h, List.cons_inj_right,
        List.cons_inj_right, Lists.flatMap_eq_flatMap_iff hpieces, zerosDiffer_object_iff]
      constructor
      · rintro hall ⟨key, v, w, hv, hw, hz⟩
        have hk : key ∈ (m.map Prod.fst).insertionSort (· ≤ ·) :=
          (List.perm_insertionSort _ _).mem_iff.mpr
            (List.mem_map.mpr ⟨_, Assoc.mem_of_lookup hv, rfl⟩)
        obtain ⟨v', w', hv', hw', dv, dw, he⟩ := exists_entries ha hb h hk
        cases hv.symm.trans hv'
        cases hw.symm.trans hw'
        have htok := hall key hk
        rw [entryTokens_of_lookup hv, entryTokens_of_lookup hw, List.cons_inj_right] at htok
        exact (ih key v (Assoc.mem_of_lookup hv) dv dw he).mp htok hz
      · intro hz key hk
        obtain ⟨v, w, hv, hw, dv, dw, he⟩ := exists_entries ha hb h hk
        rw [entryTokens_of_lookup hv, entryTokens_of_lookup hw, List.cons_inj_right]
        exact (ih key v (Assoc.mem_of_lookup hv) dv dw he).mpr fun h => hz ⟨key, v, w, hv, hw, h⟩

end Tokens

end PJS.JsonData
