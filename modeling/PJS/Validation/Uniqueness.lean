import PJS.Validation.Verdict

/-! Unique items. The set behind `unique_items` looks an item up by its hash, so two equal items
count as duplicates only if they hash alike, which zeros of opposite signs prevent. -/
namespace PJS.ValidationService
open JsonData (partialEq hashTokens ZerosDiffer hashTokens_eq_iff)
open Check

section Pairs
variable {rt : Runtime}

theorem acceptsUnique_iff {seen arr : List JsonData} : acceptsUnique rt seen arr = true ↔
    (∀ item ∈ arr, ∀ s ∈ seen, duplicates rt item s = false) ∧
      arr.Pairwise fun s item => duplicates rt item s = false := by
  induction arr generalizing seen with
  | nil => simp [acceptsUnique]
  | cons item arr ih =>
    simp only [acceptsUnique, Bool.and_eq_true, ih, Bool.not_eq_true', List.any_eq_false,
      Bool.not_eq_true, List.forall_mem_cons, List.pairwise_cons]
    constructor
    · rintro ⟨hseen, hrest, hpair⟩
      exact ⟨⟨hseen, fun x hx => (hrest x hx).2⟩, fun x hx => (hrest x hx).1, hpair⟩
    · rintro ⟨⟨hseen, hrest⟩, hitem, hpair⟩
      exact ⟨hseen, fun x hx => ⟨hitem x hx, hrest x hx⟩, hpair⟩

end Pairs

/-- Two items related by `P` stand at different positions. -/
def Repeats (P : JsonData → JsonData → Prop) (arr : List JsonData) : Prop :=
  ∃ (i j : ℕ) (x y : JsonData), i ≠ j ∧ arr[i]? = some x ∧ arr[j]? = some y ∧ P x y

def Equal (x y : JsonData) : Prop := partialEq x y = true

/-- Equal, and nowhere only because zeros of opposite signs are. -/
def Alike (x y : JsonData) : Prop := Equal x y ∧ ¬ ZerosDiffer x y

/-- Whatever the runtime, the limits, the other constraints and the cache, `unique_items` rejects
the array. -/
def RejectsRepeated (arr : List JsonData) : Prop :=
  ∀ (rt : Runtime) (svc : ValidationService) (items : Option Schema)
    (minItems maxItems : Option ℕ) (path : String) (cache : RegexCache rt),
    (exec (validate rt svc (.array arr) (.array items minItems maxItems true) path) cache).1 ≠
      .ok ()

/-- A hasher without collisions, beside a regex engine that compiles nothing. -/
def collisionFree : Runtime where
  Regex := Empty
  buildRegex _ := .error "unsupported"
  isMatch := nofun
  Digest := List JsonData.HashToken
  digestEq := inferInstance
  digest := id
  showFloat _ := "float"

theorem pairwise_iff_getElem? {α : Type} {R : α → α → Prop} {l : List α} : l.Pairwise R ↔
    ∀ (i j : ℕ) (x y : α), i < j → l[i]? = some x → l[j]? = some y → R x y := by
  rw [List.pairwise_iff_getElem]
  constructor
  · intro h i j x y hij hx hy
    obtain ⟨hi, rfl⟩ := List.getElem?_eq_some_iff.mp hx
    obtain ⟨hj, rfl⟩ := List.getElem?_eq_some_iff.mp hy
    exact h i j hi hj hij
  · intro h i j hi hj hij
    exact h i j _ _ hij (List.getElem?_eq_getElem hi) (List.getElem?_eq_getElem hj)

section Rejection
variable {arr : List JsonData}

theorem Alike.symm {x y : JsonData} (hx : x.Distinct) (hy : y.Distinct) (h : Alike x y) :
    Alike y x :=
  ⟨JsonData.partialEq_symm hx hy h.1, fun hz => h.2 hz.symm⟩

/-- Alike items hash alike under every hasher. -/
theorem Alike.duplicates {x y : JsonData} (hx : x.Distinct) (hy : y.Distinct) (h : Alike x y)
    (rt : Runtime) : duplicates rt x y = true := by
  have htok : hashTokens x = hashTokens y := (hashTokens_eq_iff hx hy h.1).mpr h.2
  rw [ValidationService.duplicates, htok, decide_eq_true rfl, Bool.true_and]
  exact h.1

theorem alike_of_duplicates {x y : JsonData} (hx : x.Distinct) (hy : y.Distinct)
    (h : duplicates collisionFree x y = true) : Alike x y := by
  rw [duplicates, Bool.and_eq_true, decide_eq_true_iff] at h
  exact ⟨h.2, (hashTokens_eq_iff hx hy h.2).mp h.1⟩

theorem acceptsUnique_of_repeats (hd : ∀ x ∈ arr, x.Distinct) (h : Repeats Alike arr)
    (rt : Runtime) : acceptsUnique rt [] arr = false := by
  obtain ⟨i, j, x, y, hij, hx, hy, ha⟩ := h
  have dx : x.Distinct := hd x (List.mem_of_getElem? hx)
  have dy : y.Distinct := hd y (List.mem_of_getElem? hy)
  rw [Bool.eq_false_iff]
  intro hacc
  have hpair := pairwise_iff_getElem?.mp (acceptsUnique_iff.mp hacc).2
  rcases Nat.lt_or_gt_of_ne hij with hlt | hlt
  · have hdup := hpair i j x y hlt hx hy
    rw [(ha.symm dx dy).duplicates dy dx rt] at hdup
    cases hdup
  · have hdup := hpair j i y x hlt hy hx
    rw [ha.duplicates dx dy rt] at hdup
    cases hdup

theorem acceptsUnique_collisionFree (hd : ∀ x ∈ arr, x.Distinct) (h : ¬ Repeats Alike arr) :
    acceptsUnique collisionFree [] arr = true := by
  refine acceptsUnique_iff.mpr ⟨by simp, pairwise_iff_getElem?.mpr ?_⟩
  intro i j x y hlt hx hy
  rw [← Bool.not_eq_true]
  intro hdup
  have ha : Alike y x := alike_of_duplicates (hd y (List.mem_of_getElem? hy))
    (hd x (List.mem_of_getElem? hx)) hdup
  exact h ⟨j, i, y, x, hlt.ne', hy, hx, ha⟩

theorem rejectsRepeated_iff (hd : ∀ x ∈ arr, x.Distinct) :
    RejectsRepeated arr ↔ Repeats Alike arr := by
  constructor
  · intro h
    by_contra hn
    refine h collisionFree .new none none none "" .empty ((validate_eq_ok_iff _ _ _ _).mpr ?_)
    rw [accepts, acceptsItems, acceptsUnique_collisionFree hd hn]
    rfl
  · intro h rt svc items minItems maxItems path cache hok
    have hacc := (validate_eq_ok_iff _ _ _ _).mp hok
    rw [accepts, acceptsItems, acceptsUnique_of_repeats hd h rt] at hacc
    simp at hacc

end Rejection

/-- Equal values hash equally, and `unique_items` rejects every array with two equal items, exactly
where the equality does not rest on zeros of opposite signs. -/
theorem equal_hash_and_reject_iff (a b : DataDocument) (docs : List DataDocument) :
    ((Equal a.value b.value → ∀ (δ : Type) (digest : List JsonData.HashToken → δ),
        digest (hashTokens a.value) = digest (hashTokens b.value)) ↔
      (Equal a.value b.value → ¬ ZerosDiffer a.value b.value)) ∧
    ((Repeats Equal (docs.map (·.value)) → RejectsRepeated (docs.map (·.value))) ↔
      (Repeats Equal (docs.map (·.value)) → Repeats Alike (docs.map (·.value)))) := by
  refine ⟨forall_congr' fun h => ?_, forall_congr' fun _ => ?_⟩
  · rw [← hashTokens_eq_iff a.distinct b.distinct h]
    exact ⟨fun hall => hall _ id, fun heq δ digest => congrArg digest heq⟩
  · refine rejectsRepeated_iff fun x hx => ?_
    obtain ⟨d, -, rfl⟩ := List.mem_map.mp hx
    exact d.distinct

/-- `[0.0, -0.0]`: the two items are equal, hash apart, and pass as unique. -/
theorem zeros_pass_as_unique :
    let pos := JsonData.float FloatOrder.posZero
    let neg := JsonData.float FloatOrder.negZero
    Equal pos neg ∧ hashTokens pos ≠ hashTokens neg ∧
      (exec (validate collisionFree .new (.array [pos, neg]) (.array none none none true)
        "/readings") .empty).1 = .ok () := by
  refine ⟨rfl, by decide, (validate_eq_ok_iff _ _ _ _).mpr ?_⟩
  decide

end PJS.ValidationService
