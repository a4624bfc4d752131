import PJS.Validation.Meaning

/-! Validation decides the meaning of the schema. The induction is on the levels left, which the
nesting of the schema stays below, so the depth guard never fires. -/
namespace PJS.ValidationService
open FloatOrder (value)
open Schema (Within WithinFloats Meets MeetsItems IsNumber MatchesPattern Unsettled floatReading
  floatReading_iff nesting)
open Check

section Leaves
variable {rt : Runtime} {svc : ValidationService}

theorem inRange_iff {β : Type} [LinearOrder β] (v : β) (minimum maximum : Option β) :
    inRange v minimum maximum = true ↔ Within v minimum maximum := by
  unfold inRange Within
  cases minimum <;> cases maximum <;> simp

theorem inRange_int64_iff (i : Int64) (minimum maximum : Option Int64) :
    inRange i minimum maximum = true ↔
      Within i.toInt (minimum.map Int64.toInt) (maximum.map Int64.toInt) := by
  unfold inRange Within
  cases minimum <;> cases maximum <;> simp [Int64.lt_iff_toInt_lt]

/-- A bound that does not reject the float is one its exact value respects. -/
theorem not_lt_iff {f g : Float} {q : ℚ} (hf : value f = some ((q : WithTop ℚ) : WithBot (WithTop ℚ))) :
    (¬ f < g ↔ ∀ x, value g = some x → x ≤ ((q : WithTop ℚ) : WithBot (WithTop ℚ))) ∧
      (¬ g < f ↔ ∀ x, value g = some x → ((q : WithTop ℚ) : WithBot (WithTop ℚ)) ≤ x) := by
  cases hg : value g with
  | none => simp [FloatOrder.not_lt_of_isNaN (Or.inr hg), FloatOrder.not_lt_of_isNaN (Or.inl hg)]
  | some y =>
    rw [FloatOrder.lt_iff hf hg, FloatOrder.lt_iff hg hf]
    simp

theorem inRange_float_iff {f : Float} {q : ℚ}
    (hf : value f = some ((q : WithTop ℚ) : WithBot (WithTop ℚ))) (minimum maximum : Option Float) :
    inRange f minimum maximum = true ↔ WithinFloats q minimum maximum := by
  have hmin : ∀ b, ¬ f < b ↔ ∀ x, value b = some x → x ≤ ((q : WithTop ℚ) : WithBot (WithTop ℚ)) :=
    fun b => (not_lt_iff hf).1
  have hmax : ∀ b, ¬ b < f ↔ ∀ x, value b = some x → ((q : WithTop ℚ) : WithBot (WithTop ℚ)) ≤ x :=
    fun b => (not_lt_iff hf).2
  unfold inRange WithinFloats
  cases minimum <;> cases maximum <;> simp [hmin, hmax]

theorem acceptsFloat_iff (f : Float) (minimum maximum : Option Float) :
    acceptsFloat f minimum maximum = true ↔
      ∃ q : ℚ, value f = some ((q : WithTop ℚ) : WithBot (WithTop ℚ)) ∧
        WithinFloats q minimum maximum := by
  rw [acceptsFloat, Bool.and_eq_true, Bool.not_eq_true', FloatOrder.finite_iff]
  constructor
  · rintro ⟨⟨q, hq⟩, hr⟩
    exact ⟨q, hq, (inRange_float_iff hq minimum maximum).mp hr⟩
  · rintro ⟨q, hq, hr⟩
    exact ⟨⟨q, hq⟩, (inRange_float_iff hq minimum maximum).mpr hr⟩

theorem acceptsPattern_iff (text pat : String) :
    acceptsPattern rt svc text pat = true ↔ MatchesPattern rt svc text pat := by
  unfold acceptsPattern MatchesPattern
  rw [Bool.and_eq_true, decide_eq_true_iff]
  cases rt.buildRegex pat <;> simp

theorem acceptsText_iff (text : String) (minLength maxLength : Option ℕ) (pattern : Option String)
    (allowedValues : Option (List String)) :
    acceptsText rt svc text minLength maxLength pattern allowedValues = true ↔
      Within text.length minLength maxLength ∧ (∀ allowed ∈ allowedValues, text ∈ allowed) ∧
        ∀ pat ∈ pattern, MatchesPattern rt svc text pat := by
  have hallowed : (!allowedValues.any fun allowed => !allowed.any (· == text)) = true ↔
      ∀ allowed ∈ allowedValues, text ∈ allowed := by
    cases allowedValues <;> simp
  have hpattern : pattern.all (acceptsPattern rt svc text) = true ↔
      ∀ pat ∈ pattern, MatchesPattern rt svc text pat := by
    cases pattern <;> simp [acceptsPattern_iff]
  rw [acceptsText, Bool.and_eq_true, Bool.and_eq_true, inRange_iff, hallowed, hpattern, and_assoc]

end Leaves

section Composites
variable {rt : Runtime} {svc : ValidationService}

theorem repeats_of_not_acceptsUnique {arr : List JsonData}
    (h : acceptsUnique rt [] arr = false) : Repeats Equal arr := by
  rw [← Bool.not_eq_true, acceptsUnique_iff, not_and] at h
  have hpair := mt pairwise_iff_getElem?.mpr (h (by simp))
  push Not at hpair
  obtain ⟨i, j, x, y, hlt, hx, hy, hdup⟩ := hpair
  rw [ne_eq, Bool.not_eq_false, duplicates, Bool.and_eq_true] at hdup
  exact ⟨j, i, y, x, hlt.ne', hy, hx, hdup.2⟩

theorem acceptsUnique_settled_iff {arr : List JsonData} (hd : ∀ x ∈ arr, x.Distinct)
    (hr : Repeats Equal arr → Repeats Alike arr) :
    acceptsUnique rt [] arr = true ↔ ¬ Repeats Equal arr := by
  constructor
  · intro hacc hrep
    rw [acceptsUnique_of_repeats hd (hr hrep) rt] at hacc
    cases hacc
  · intro hrep
    rw [← Bool.not_eq_false]
    exact fun hacc => hrep (repeats_of_not_acceptsUnique hacc)

/-- Exactly one element of a list passes. -/
theorem countP_eq_one_iff {α : Type} {p : α → Bool} {xs : List α} :
    xs.countP p = 1 ↔ ∃! i : ℕ, ∃ x, xs[i]? = some x ∧ p x = true := by
  induction xs with
  | nil => simp [ExistsUnique]
  | cons x xs ih =>
    rw [List.countP_cons]
    cases hp : p x with
    | true =>
      have hzero : xs.countP p + 1 = 1 ↔ ∀ y ∈ xs, ¬ p y = true := by
        rw [Nat.add_eq_right, List.countP_eq_zero]
      rw [if_pos rfl, hzero]
      constructor
      · refine fun hnone => ⟨0, ⟨x, rfl, hp⟩, ?_⟩
        rintro (_ | j) ⟨y, hy, hpy⟩
        · rfl
        · exact absurd hpy (hnone y (List.mem_of_getElem? hy))
      · rintro ⟨i, -, huniq⟩ y hy hpy
        obtain ⟨j, hj⟩ := List.mem_iff_getElem?.mp hy
        have h0 := huniq 0 ⟨x, rfl, hp⟩
        have hj' := huniq (j + 1) ⟨y, hj, hpy⟩
        omega
    | false =>
      rw [if_neg Bool.false_ne_true, Nat.add_zero, ih]
      constructor
      · rintro ⟨i, hi, huniq⟩
        refine ⟨i + 1, hi, ?_⟩
        rintro (_ | j) ⟨y, hy, hpy⟩
        · cases hy
          rw [hp] at hpy
          cases hpy
        · exact congrArg (· + 1) (huniq j ⟨y, hy, hpy⟩)
      · rintro ⟨_ | i, ⟨y, hy, hpy⟩, huniq⟩
        · cases hy
          rw [hp] at hpy
          cases hpy
        · refine ⟨i, ⟨y, hy, hpy⟩, fun j hj => ?_⟩
          have hj' := huniq (j + 1) hj
          omega

end Composites

/-- The verdict of enough levels is the meaning of the schema. -/
theorem accepts_iff_meets {rt : Runtime} {svc : ValidationService} {levels : ℕ} {data : JsonData}
    {schema : Schema} (hn : schema.nesting < levels) (hd : data.Distinct)
    (hs : ¬ Unsettled schema data) :
    accepts rt svc levels data schema = true ↔ Meets rt svc floatReading schema data := by
  induction levels generalizing data schema with
  | zero => cases hn
  | succ levels ih =>
    cases schema with
    | any => simp [accepts, Meets]
    | null =>
      rw [Meets]
      rcases data with (_ | b | i | f | t) | arr | obj <;> simp [accepts]
    | boolean =>
      rw [Meets]
      rcases data with (_ | b | i | f | t) | arr | obj <;> simp [accepts]
    | integer minimum maximum =>
      rw [Meets]
      rcases data with (_ | b | i | f | t) | arr | obj <;> simp [accepts, inRange_int64_iff]
    | number minimum maximum =>
      rw [Meets]
      rcases data with (_ | b | i | f | t) | arr | obj <;>
        simp [accepts, acceptsFloat_iff, IsNumber, floatReading_iff]
    | string minLength maxLength pattern allowedValues =>
      rw [Meets]
      rcases data with (_ | b | i | f | t) | arr | obj <;> simp [accepts, acceptsText_iff]
    | array items minItems maxItems uniqueItems =>
      rw [Meets]
      rcases data with (_ | b | i | f | t) | arr | obj
      case array =>
        cases hd with | array hd =>
        have hunique : Within arr.length minItems maxItems →
            ((!uniqueItems || acceptsUnique rt [] arr) = true ↔
              (uniqueItems = true → ¬ Repeats Equal arr)) := by
          intro hwithin
          cases uniqueItems with
          | false => simp
          | true =>
            have hsettled : acceptsUnique rt [] arr = true ↔ ¬ Repeats Equal arr := by
              refine acceptsUnique_settled_iff hd fun hrepeats => ?_
              by_contra hzeros
              exact hs (.here hwithin hrepeats hzeros)
            simp [hsettled]
        have hitems : (items.all fun itemSchema =>
            arr.all fun item => accepts rt svc levels item itemSchema) = true ↔
            ∀ item ∈ arr, MeetsItems rt svc floatReading items item := by
          cases items with
          | none => simp [MeetsItems]
          | some s =>
            rw [Option.all_some, List.all_eq_true]
            have hlt : s.nesting < levels := by
              rw [nesting] at hn
              omega
            exact forall₂_congr fun item hm => ih hlt (hd item hm) fun h => hs (.item hm h)
        have hchecks : (inRange arr.length minItems maxItems = true ∧
            (!uniqueItems || acceptsUnique rt [] arr) = true) ↔
            Within arr.length minItems maxItems ∧ (uniqueItems = true → ¬ Repeats Equal arr) := by
          rw [inRange_iff]
          exact and_congr_right hunique
        rw [accepts, acceptsItems, Bool.and_eq_true, Bool.and_eq_true, hchecks, hitems, and_assoc]
        simp
      all_goals simp [accepts]
    | object properties required additionalProperties =>
      rw [Meets]
      rcases data with (_ | b | i | f | t) | arr | obj
      case object =>
        obtain ⟨-, hd⟩ := Doc.keyed_object_iff.mp hd
        have hrequired : (required.all fun field => (obj.lookup field).isSome) = true ↔
            ∀ field ∈ required, ∃ v, obj.lookup field = some v := by
          simp [Option.isSome_iff_exists]
        have hentry : ∀ key v, (key, v) ∈ obj →
            (acceptsProperty (accepts rt svc levels) properties additionalProperties (key, v) = true ↔
              Schema.MeetsProperty rt svc floatReading properties additionalProperties key v) := by
          intro key v hm
          rw [Schema.meetsProperty_iff, acceptsProperty]
          cases hl : properties.lookup key with
          | none => simp
          | some s =>
            have hlt : s.nesting < levels := by
              have := Schema.nesting_lt_of_mem_properties (Assoc.mem_of_lookup hl)
              rw [nesting] at hn
              omega
            simp [ih hlt (hd key v hm) fun h => hs (.property hm hl h)]
        have hentries :
            obj.all (acceptsProperty (accepts rt svc levels) properties additionalProperties) = true ↔
              ∀ key v, (key, v) ∈ obj →
                Schema.MeetsProperty rt svc floatReading properties additionalProperties key v := by
          rw [List.all_eq_true, Prod.forall]
          exact forall₃_congr hentry
        rw [accepts, acceptsEntries, Bool.and_eq_true, hrequired, hentries]
        simp
      all_goals simp [accepts]
    | oneOf schemas =>
      have hbranch : ∀ s ∈ schemas, (accepts rt svc levels data s = true ↔
          Meets rt svc floatReading s data) := by
        intro s hm
        have := Schema.nesting_lt_of_mem hm
        rw [nesting] at hn
        exact ih (by omega) hd fun h => hs (.oneOf hm h)
      rw [Meets, accepts, acceptsOneOf, beq_iff_eq, countP_eq_one_iff]
      refine existsUnique_congr fun i => ?_
      rw [Schema.meetsBranch_iff]
      exact exists_congr fun s => and_congr_right fun hi => hbranch s (List.mem_of_getElem? hi)
    | allOf schemas =>
      have hbranch : ∀ s ∈ schemas, (accepts rt svc levels data s = true ↔
          Meets rt svc floatReading s data) := by
        intro s hm
        have := Schema.nesting_lt_of_mem hm
        rw [nesting] at hn
        exact ih (by omega) hd fun h => hs (.allOf hm h)
      rw [Meets, accepts, acceptsAllOf, List.all_eq_true]
      constructor
      · intro hall i hi
        rw [Schema.meetsBranch_iff]
        exact ⟨schemas[i], List.getElem?_eq_getElem hi,
          (hbranch _ (List.getElem_mem hi)).mp (hall _ (List.getElem_mem hi))⟩
      · intro hall s hm
        obtain ⟨i, hi, rfl⟩ := List.mem_iff_getElem.mp hm
        obtain ⟨s, hs, hmeets⟩ := Schema.meetsBranch_iff.mp (hall i hi)
        cases (List.getElem?_eq_getElem hi).symm.trans hs
        exact (hbranch _ hm).mpr hmeets

section Order
variable {rt : Runtime} {svc : ValidationService} {reading : Int64 → ℚ → Prop}

theorem repeats_reordered {xs ys : List JsonData} (hlen : xs.length = ys.length)
    (h : ∀ (i : ℕ) (x y : JsonData), xs[i]? = some x → ys[i]? = some y → x.Reordered y)
    (dx : ∀ x ∈ xs, x.Distinct) (dy : ∀ y ∈ ys, y.Distinct) (hr : Repeats Equal xs) :
    Repeats Equal ys := by
  obtain ⟨i, j, x, x', hij, hx, hx', he⟩ := hr
  obtain ⟨y, hy⟩ := JsonData.exists_item hlen.symm hx
  obtain ⟨y', hy'⟩ := JsonData.exists_item hlen.symm hx'
  exact ⟨i, j, y, y', hij, hy, hy', JsonData.partialEq_reordered (h i x y hx hy)
    (h j x' y' hx' hy') (dy y (List.mem_of_getElem? hy)) (dx x' (List.mem_of_getElem? hx')) he⟩

/-- The meaning of a schema does not see the order of entries. -/
theorem meets_reordered {levels : ℕ} {schema : Schema} (hn : schema.nesting < levels)
    {d d' : JsonData} (hr : d.Reordered d') (hd : d.Distinct) (hd' : d'.Distinct)
    (h : Meets rt svc reading schema d) : Meets rt svc reading schema d' := by
  induction levels generalizing schema d d' with
  | zero => cases hn
  | succ levels ih =>
    have hbranch : ∀ {s : Schema}, s.nesting < levels →
        (Meets rt svc reading s d ↔ Meets rt svc reading s d') :=
      fun hlt => ⟨ih hlt hr hd hd', ih hlt hr.symm hd' hd⟩
    cases schema with
    | any => rwa [Meets] at h ⊢
    | null =>
      rw [Meets] at h
      subst h
      cases hr
      rfl
    | boolean =>
      rw [Meets] at h
      obtain ⟨b, rfl⟩ := h
      cases hr
      rw [Meets]
      exact ⟨b, rfl⟩
    | integer minimum maximum =>
      rw [Meets] at h
      obtain ⟨i, rfl, hw⟩ := h
      cases hr
      rw [Meets]
      exact ⟨i, rfl, hw⟩
    | number minimum maximum =>
      rw [Meets] at h
      obtain ⟨q, hq, hw⟩ := h
      rw [Meets]
      refine ⟨q, ?_, hw⟩
      rcases hq with ⟨f, rfl, hf⟩ | ⟨i, rfl, hi⟩ <;> cases hr
      · exact Or.inl ⟨f, rfl, hf⟩
      · exact Or.inr ⟨i, rfl, hi⟩
    | string minLength maxLength pattern allowedValues =>
      rw [Meets] at h
      obtain ⟨text, rfl, hw⟩ := h
      cases hr
      rw [Meets]
      exact ⟨text, rfl, hw⟩
    | array items minItems maxItems uniqueItems =>
      rw [Meets] at h
      obtain ⟨xs, rfl, hw, hu, hitems⟩ := h
      cases hr with | @array _ ys hlen hr =>
      cases hd with | array hd =>
      cases hd' with | array hd' =>
      rw [Meets]
      refine ⟨ys, rfl, hlen ▸ hw, fun hq hrep => hu hq ?_, fun y hy => ?_⟩
      · exact repeats_reordered hlen.symm (fun i y x hy hx => (hr i x y hx hy).symm) hd' hd hrep
      · obtain ⟨i, hi⟩ := List.mem_iff_getElem?.mp hy
        obtain ⟨x, hx⟩ := JsonData.exists_item hlen hi
        have hx' : x ∈ xs := List.mem_of_getElem? hx
        have hmeets := hitems x hx'
        cases items with
        | none => rwa [MeetsItems] at hmeets ⊢
        | some s =>
          rw [MeetsItems] at hmeets ⊢
          rw [nesting] at hn
          exact ih (by omega) (hr i x y hx hi) (hd x hx') (hd' y hy) hmeets
    | object properties required additionalProperties =>
      rw [Meets] at h
      obtain ⟨m, rfl, hreq, hentries⟩ := h
      cases hr with | @object _ n hk hr =>
      obtain ⟨-, hd⟩ := Doc.keyed_object_iff.mp hd
      obtain ⟨hn', hd'⟩ := Doc.keyed_object_iff.mp hd'
      rw [Meets]
      refine ⟨n, rfl, fun field hf => ?_, fun key w hw => ?_⟩
      · obtain ⟨v, hv⟩ := hreq field hf
        exact JsonData.exists_entry hk.symm hv
      · have hw' := Assoc.lookup_of_mem hn' hw
        obtain ⟨v, hv⟩ := JsonData.exists_entry hk hw'
        have hmeets := hentries key v (Assoc.mem_of_lookup hv)
        rw [Schema.meetsProperty_iff] at hmeets ⊢
        refine ⟨fun s hs => ?_, hmeets.2⟩
        have hlt := Schema.nesting_lt_of_mem_properties (Assoc.mem_of_lookup hs)
        rw [nesting] at hn
        exact ih (by omega) (hr key v w hv hw') (hd key v (Assoc.mem_of_lookup hv)) (hd' key w hw)
          (hmeets.1 s hs)
    | oneOf schemas =>
      rw [Meets] at h ⊢
      refine (existsUnique_congr fun i => ?_).mp h
      rw [Schema.meetsBranch_iff, Schema.meetsBranch_iff]
      refine exists_congr fun s => and_congr_right fun hs => hbranch ?_
      have hlt := Schema.nesting_lt_of_mem (List.mem_of_getElem? hs)
      rw [nesting] at hn
      omega
    | allOf schemas =>
      rw [Meets] at h ⊢
      intro i hi
      obtain ⟨s, hs, hmeets⟩ := Schema.meetsBranch_iff.mp (h i hi)
      have hlt := Schema.nesting_lt_of_mem (List.mem_of_getElem? hs)
      rw [nesting] at hn
      exact Schema.meetsBranch_iff.mpr ⟨s, hs, (hbranch (by omega)).mp hmeets⟩

end Order

/-- A service accepts a value exactly if it meets the schema, whatever the order its objects are
listed in and whatever the cache holds. -/
theorem validate_iff_meets (rt : Runtime) (svc : ValidationService) (schema : Schema)
    (doc listing : DataDocument) (path : String) (cache : RegexCache rt)
    (hn : schema.nesting ≤ svc.maxDepth) (hr : doc.value.Reordered listing.value)
    (hs : ¬ Unsettled schema listing.value) :
    ((exec (validate rt svc listing.value schema path) cache).1 = .ok () ↔
        Meets rt svc floatReading schema doc.value) ∧
      ∀ other : RegexCache rt, (exec (validate rt svc listing.value schema path) other).1 =
        (exec (validate rt svc listing.value schema path) cache).1 := by
  have hlt : schema.nesting < svc.maxDepth + 1 := Nat.lt_succ_of_le hn
  have hdec : Decides (validate rt svc listing.value schema path) _ :=
    decides_validateWithDepth (svc.maxDepth + 1) listing.value schema path 0 (Nat.zero_add _)
  refine ⟨?_, fun other => hdec.steady other cache⟩
  rw [validate_eq_ok_iff, accepts_iff_meets hlt listing.distinct hs]
  exact ⟨meets_reordered hlt hr.symm listing.distinct doc.distinct,
    meets_reordered hlt hr doc.distinct listing.distinct⟩

/-- An object with a bounded number, items to be unique and items that need not be, and the same
object listed the other way round. -/
def memberEntries : List (String × JsonData) :=
  [("age", JsonData.integer 7),
    ("tags", .array [JsonData.integer 1, JsonData.integer 2]),
    ("marks", .array [JsonData.float FloatOrder.posZero, JsonData.float FloatOrder.negZero])]

theorem distinct_memberEntries {obj : List (String × JsonData)} (hkeys : (obj.map Prod.fst).Nodup)
    (h : ∀ e ∈ obj, e ∈ memberEntries) : JsonData.Distinct (.object obj) := by
  refine Doc.keyed_object_iff.mpr ⟨hkeys, fun k v hm => ?_⟩
  have hitems : ∀ s t : DataScalar, JsonData.Distinct (.array [.scalar s, .scalar t]) :=
    fun s t => .array fun item hitem => by
      rcases List.mem_pair.mp hitem with rfl | rfl <;> exact .scalar _
  have hentry := h (k, v) hm
  rw [memberEntries, List.mem_cons, List.mem_pair] at hentry
  rcases hentry with he | he | he <;> cases he
  · exact .scalar _
  · exact hitems _ _
  · exact hitems _ _

def memberDoc : DataDocument where
  value := .object memberEntries
  distinct := distinct_memberEntries (by decide) fun _ he => he

def memberListing : DataDocument where
  value := .object memberEntries.reverse
  distinct := distinct_memberEntries (by decide) fun _ he => List.mem_reverse.mp he

def memberSchema : Schema :=
  .object [("age", .number none (some (Float.ofBits 0x4059000000000000))),
    ("tags", .array (some .any) none (some 3) true), ("marks", .array none none none false)]
    ["age"] false

theorem repeats_pair {P : JsonData → JsonData → Prop} {x y : JsonData} (h : Repeats P [x, y]) :
    P x y ∨ P y x := by
  obtain ⟨_ | _ | i, _ | _ | j, a, b, hij, ha, hb, hP⟩ := h <;> cases ha <;> cases hb
  · exact absurd rfl hij
  · exact Or.inl hP
  · exact Or.inr hP
  · exact absurd rfl hij

theorem validate_iff_meets_member :
    ((exec (validate collisionFree .new memberListing.value memberSchema "/") .empty).1 = .ok () ↔
        Meets collisionFree .new floatReading memberSchema memberDoc.value) ∧
      ∀ other : RegexCache collisionFree,
        (exec (validate collisionFree .new memberListing.value memberSchema "/") other).1 =
          (exec (validate collisionFree .new memberListing.value memberSchema "/") .empty).1 := by
  have hr : memberDoc.value.Reordered memberListing.value := by
    have hscalar : ∀ s t : DataScalar, JsonData.Reordered (.array [.scalar s, .scalar t])
        (.array [.scalar s, .scalar t]) := by
      refine fun s t => .array rfl fun i x y hx hy => ?_
      cases hx.symm.trans hy
      rcases List.mem_pair.mp (List.mem_of_getElem? hx) with rfl | rfl <;> exact .scalar _
    refine .object (by decide) fun key v w hv hw => ?_
    have hm := Assoc.mem_of_lookup hv
    rw [memberEntries, List.mem_cons, List.mem_pair] at hm
    rcases hm with hm | hm | hm <;> cases hm <;> cases hw
    · exact .scalar _
    · exact hscalar _ _
    · exact hscalar _ _
  have hs : ¬ Unsettled memberSchema memberListing.value := by
    intro h
    cases h with | property hm hl h =>
    rw [List.mem_reverse, memberEntries, List.mem_cons, List.mem_pair] at hm
    rcases hm with hm | hm | hm <;> cases hm <;> cases hl
    · cases h
    · cases h with
      | here hwithin hrepeats hzeros => rcases repeats_pair hrepeats with he | he <;> cases he
      | item hitem h => cases h
    · cases h
  exact validate_iff_meets collisionFree .new memberSchema memberDoc memberListing "/" .empty
    (by decide) hr hs

/-- 2^53 + 1 validates against a `Number` schema whose maximum is 2^53: it is rounded first. -/
theorem large_integer_passes_maximum :
    let schema := Schema.number none (some (Float.ofBits 0x4340000000000000))
    (exec (validate collisionFree .new (JsonData.integer 9007199254740993) schema "/id") .empty).1 =
        .ok () ∧
      ¬ Meets collisionFree .new Schema.exactReading schema
        (JsonData.integer 9007199254740993) := by
  refine ⟨(validate_eq_ok_iff _ _ _ _).mpr (by decide +kernel), ?_⟩
  have hmax : value (Float.ofBits 0x4340000000000000) =
      some (((4503599627370496 * 2 ^ (1 : ℤ) : ℚ) : WithTop ℚ) : WithBot (WithTop ℚ)) := rfl
  rw [Meets]
  rintro ⟨q, ⟨f, hf, -⟩ | ⟨i, hi, hq⟩, -, hle⟩
  · cases hf
  · cases hi
    have hbound := hle _ rfl _ hmax
    have hle' : q ≤ 4503599627370496 * 2 ^ (1 : ℤ) :=
      WithTop.coe_le_coe.mp (WithBot.coe_le_coe.mp hbound)
    have hq' : q = 9007199254740993 := hq
    rw [hq'] at hle'
    norm_num at hle'

end PJS.ValidationService
