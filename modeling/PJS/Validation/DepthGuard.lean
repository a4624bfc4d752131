import PJS.Validation.Uniqueness

/-! The depth guard. Its error is an ordinary validation error: arrays, objects and `AllOf` pass it
on, but a `OneOf` counts the branch it cut as one that does not match. A validation in which no
`OneOf` swallows the guard keeps its verdict at every greater depth. -/
namespace PJS.ValidationService
open Check

section Reached
variable {α : Type}

/-- The elements a loop looks at that stops at the first one to fail. -/
def reached (p : α → Bool) : List α → List α
  | [] => []
  | x :: xs => if p x then x :: reached p xs else [x]

/-- The elements a loop looks at that stops once two have passed, with one match counted or none. -/
def reachedByCount (p : α → Bool) : List α → ℕ → List α
  | [], _ => []
  | x :: xs, matchCount =>
    if p x then
      if matchCount + 1 > 1 then [x] else x :: reachedByCount p xs (matchCount + 1)
    else x :: reachedByCount p xs matchCount

/-- Elements out of reach do not matter. -/
theorem all_eq_of_reached {p q : α → Bool} {xs : List α} (h : ∀ x ∈ reached p xs, q x = p x) :
    xs.all q = xs.all p := by
  induction xs with
  | nil => rfl
  | cons x xs ih =>
    rw [reached] at h
    cases hp : p x with
    | false =>
      rw [hp] at h
      have hq : q x = false := (h x (by simp)).trans hp
      simp [hp, hq]
    | true =>
      simp only [hp, if_true, List.forall_mem_cons] at h
      rw [List.all_cons, List.all_cons, h.1, hp, ih h.2]

theorem count_eq_of_reached {p q : α → Bool} {xs : List α} {matchCount : ℕ}
    (hc : matchCount ≤ 1) (h : ∀ x ∈ reachedByCount p xs matchCount, q x = p x) :
    (matchCount + xs.countP q == 1) = (matchCount + xs.countP p == 1) := by
  induction xs generalizing matchCount with
  | nil => rfl
  | cons x xs ih =>
    rw [reachedByCount] at h
    rw [List.countP_cons, List.countP_cons]
    cases hp : p x with
    | false =>
      simp only [hp, Bool.false_eq_true, if_false, List.forall_mem_cons] at h
      simpa [h.1, hp] using ih hc h.2
    | true =>
      by_cases hm : matchCount + 1 > 1
      · -- the second match decides, whatever follows
        simp only [hp, hm, if_true, List.forall_mem_singleton] at h
        have hq : (matchCount + (xs.countP q + 1) == 1) = false := by
          rw [beq_eq_false_iff_ne]
          omega
        have hp' : (matchCount + (xs.countP p + 1) == 1) = false := by
          rw [beq_eq_false_iff_ne]
          omega
        simp [h, hq, hp']
      · simp only [hp, hm, if_true, if_false, List.forall_mem_cons] at h
        have hroom : matchCount + 1 ≤ 1 := by omega
        have hstep := ih hroom h.2
        simpa [h.1, hp, Nat.add_comm, Nat.add_left_comm] using hstep

theorem reached_eq_self {p : α → Bool} {xs : List α} (h : xs.all p = true) : reached p xs = xs := by
  induction xs with
  | nil => rfl
  | cons x xs ih =>
    rw [List.all_cons, Bool.and_eq_true] at h
    rw [reached, if_pos h.1, ih h.2]

end Reached

section Guard
variable (rt : Runtime) (svc : ValidationService)

/-- The depth guard fires in a branch of a `OneOf` that the validation looks at; with `inBranch`
the whole validation is one such branch. -/
def swallowed (inBranch : Bool) : ℕ → JsonData → Schema → Bool
  | 0, _, _ => inBranch
  | levels + 1, data, schema =>
    match schema, data with
    | .array items minItems maxItems uniqueItems, .array arr =>
      (inRange arr.length minItems maxItems && (!uniqueItems || acceptsUnique rt [] arr)) &&
        items.any fun itemSchema =>
          (reached (accepts rt svc levels · itemSchema) arr).any
            (swallowed inBranch levels · itemSchema)
    | .object properties required additionalProperties, .object obj =>
      (required.all fun field => (obj.lookup field).isSome) &&
        (reached (acceptsProperty (accepts rt svc levels) properties additionalProperties) obj).any
          fun e => (properties.lookup e.1).any (swallowed inBranch levels e.2)
    | .oneOf schemas, data =>
      (reachedByCount (accepts rt svc levels data) schemas 0).any (swallowed true levels data)
    | .allOf schemas, data => schemas.any (swallowed inBranch levels data)
    | _, _ => false

end Guard

variable {rt : Runtime} {svc : ValidationService}

theorem acceptsProperty_congr {f g : JsonData → Schema → Bool}
    {properties : List (String × Schema)} {additionalProperties : Bool} {e : String × JsonData}
    (h : ∀ s, properties.lookup e.1 = some s → f e.2 s = g e.2 s) :
    acceptsProperty f properties additionalProperties e =
      acceptsProperty g properties additionalProperties e := by
  unfold acceptsProperty
  cases hl : properties.lookup e.1 with
  | none => rfl
  | some s => exact h s hl

/-- A validation the guard takes no part in has its verdict at every greater depth. -/
theorem accepts_eq_of_unguarded {levels more : ℕ} (hle : levels ≤ more) {data : JsonData}
    {schema : Schema} (h : swallowed rt svc true levels data schema = false) :
    accepts rt svc more data schema = accepts rt svc levels data schema := by
  induction levels generalizing more data schema with
  | zero => cases h
  | succ levels ih =>
    obtain ⟨more, rfl⟩ : ∃ k, more = k + 1 := ⟨more - 1, by omega⟩
    have hstep : ∀ {d : JsonData} {s : Schema}, swallowed rt svc true levels d s = false →
        accepts rt svc more d s = accepts rt svc levels d s := fun hd => ih (by omega) hd
    cases schema with
    | array items minItems maxItems uniqueItems =>
      cases data with
      | scalar t => rfl
      | object obj => rfl
      | array arr =>
        rw [swallowed, Bool.and_eq_false_iff] at h
        rw [accepts, accepts, acceptsItems, acceptsItems]
        rcases h with hpre | hitems
        · rw [hpre]
          rfl
        · cases items with
          | none => rfl
          | some itemSchema =>
            rw [Option.any_some, List.any_eq_false] at hitems
            rw [Option.all_some, Option.all_some,
              all_eq_of_reached fun x hx => hstep (Bool.not_eq_true _ ▸ hitems x hx)]
    | object properties required additionalProperties =>
      cases data with
      | scalar t => rfl
      | array arr => rfl
      | object obj =>
        rw [swallowed, Bool.and_eq_false_iff] at h
        rw [accepts, accepts, acceptsEntries, acceptsEntries]
        rcases h with hpre | hentries
        · rw [hpre]
          rfl
        · rw [List.any_eq_false] at hentries
          rw [all_eq_of_reached fun e he => acceptsProperty_congr fun s hs => ?_]
          have hentry := hentries e he
          rw [hs, Option.any_some, Bool.not_eq_true] at hentry
          exact hstep hentry
    | oneOf schemas =>
      have hb : ∀ s ∈ reachedByCount (accepts rt svc levels data) schemas 0,
          accepts rt svc more data s = accepts rt svc levels data s := by
        rw [swallowed, List.any_eq_false] at h
        exact fun s hs => hstep (Bool.not_eq_true _ ▸ h s hs)
      have hcount := count_eq_of_reached (Nat.zero_le 1) hb
      rw [Nat.zero_add, Nat.zero_add] at hcount
      exact hcount
    | allOf schemas =>
      rw [swallowed, List.any_eq_false] at h
      rw [accepts, accepts, acceptsAllOf, acceptsAllOf]
      rw [Bool.eq_iff_iff, List.all_eq_true, List.all_eq_true]
      exact forall₂_congr fun s hs => by rw [hstep (Bool.not_eq_true _ ▸ h s hs)]
    | _ =>
      rcases data with (_ | b | i | f | t) | arr | obj <;> rfl

/-- The depth guard only rejects, unless a `OneOf` swallows it. -/
theorem accepts_mono_of_not_swallowed {levels more : ℕ} (hle : levels ≤ more) {data : JsonData}
    {schema : Schema} (h : swallowed rt svc false levels data schema = false)
    (hacc : accepts rt svc levels data schema = true) : accepts rt svc more data schema = true := by
  induction levels generalizing more data schema with
  | zero => cases hacc
  | succ levels ih =>
    obtain ⟨more, rfl⟩ : ∃ k, more = k + 1 := ⟨more - 1, by omega⟩
    cases schema with
    | array items minItems maxItems uniqueItems =>
      cases data with
      | scalar t => cases hacc
      | object obj => cases hacc
      | array arr =>
        rw [accepts, acceptsItems, Bool.and_eq_true] at hacc
        rw [swallowed, hacc.1, Bool.true_and] at h
        rw [accepts, acceptsItems, hacc.1, Bool.true_and]
        cases items with
        | none => rfl
        | some itemSchema =>
          have hall := hacc.2
          rw [Option.all_some] at hall
          rw [Option.any_some, reached_eq_self hall, List.any_eq_false] at h
          rw [Option.all_some, List.all_eq_true]
          exact fun x hx => ih (by omega) (Bool.not_eq_true _ ▸ h x hx)
            (List.all_eq_true.mp hall x hx)
    | object properties required additionalProperties =>
      cases data with
      | scalar t => cases hacc
      | array arr => cases hacc
      | object obj =>
        rw [accepts, acceptsEntries, Bool.and_eq_true] at hacc
        rw [swallowed, hacc.1, Bool.true_and, reached_eq_self hacc.2, List.any_eq_false] at h
        rw [accepts, acceptsEntries, hacc.1, Bool.true_and, List.all_eq_true]
        intro e he
        have hentry := List.all_eq_true.mp hacc.2 e he
        have hguard := h e he
        unfold acceptsProperty at hentry ⊢
        cases hl : properties.lookup e.1 with
        | none => simpa [hl] using hentry
        | some s =>
          rw [hl, Option.any_some, Bool.not_eq_true] at hguard
          exact ih (by omega) hguard (by simpa [hl] using hentry)
    | oneOf schemas =>
      -- the branches of a `OneOf` are judged in the mode of the previous lemma
      have hsame : swallowed rt svc true (levels + 1) data (.oneOf schemas) = false := h
      rw [accepts_eq_of_unguarded hle hsame]
      exact hacc
    | allOf schemas =>
      rw [accepts, acceptsAllOf, List.all_eq_true] at hacc
      rw [swallowed, List.any_eq_false] at h
      rw [accepts, acceptsAllOf, List.all_eq_true]
      exact fun s hs => ih (by omega) (Bool.not_eq_true _ ▸ h s hs) (hacc s hs)
    | _ =>
      rcases data with (_ | b | i | f | t) | arr | obj <;> exact hacc

/-- A validation that passes at one maximum depth, with no `OneOf` swallowing the guard, passes at
every greater one. -/
theorem validate_mono_of_not_swallowed (rt : Runtime) (svc : ValidationService) (data : JsonData)
    (schema : Schema) (path : String) (cache cache' : RegexCache rt) (d d' : ℕ) (hle : d ≤ d')
    (hs : swallowed rt svc false (d + 1) data schema = false)
    (hok : (exec (validate rt (svc.withMaxDepth d) data schema path) cache).1 = .ok ()) :
    (exec (validate rt (svc.withMaxDepth d') data schema path) cache').1 = .ok () := by
  rw [validate_eq_ok_iff, accepts_withMaxDepth] at hok ⊢
  exact accepts_mono_of_not_swallowed (Nat.add_le_add_right hle 1) hs hok

theorem validate_mono_of_not_swallowed_branches :
    (exec (validate collisionFree (ValidationService.new.withMaxDepth 3) (.integer 7)
      (.oneOf [.allOf [.integer (some 0) none, .any], .string none none none none]) "/age")
      .empty).1 = .ok () :=
  validate_mono_of_not_swallowed collisionFree .new _ _ _ .empty .empty 2 3 (by decide)
    (by decide) ((validate_eq_ok_iff _ _ _ _).mpr (by decide))

/-- `OneOf [AllOf [Any], Any]`: at depth 1 the guard cuts the first branch, so one branch is left to
match; at depth 2 both do. -/
theorem deeper_limit_rejects :
    let schema := Schema.oneOf [.allOf [.any], .any]
    (exec (validate collisionFree (ValidationService.new.withMaxDepth 1) .null schema "/")
        .empty).1 = .ok () ∧
      (exec (validate collisionFree (ValidationService.new.withMaxDepth 2) .null schema "/")
        .empty).1 ≠ .ok () :=
  ⟨(validate_eq_ok_iff _ _ _ _).mpr (by decide),
    fun h => absurd ((validate_eq_ok_iff _ _ _ _).mp h) (by decide)⟩

end PJS.ValidationService
