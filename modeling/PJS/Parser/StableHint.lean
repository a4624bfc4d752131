import PJS.Parser.Truncation

/-! The hint for a truncated input. All leaves but the last are reported stable. A map may list the
value read last before others, and a repeated key may replace what an open object holds; where
neither can happen, the hint is right in every order and for every longer input. -/
namespace PJS

open Doc (Sized get?)

namespace JiterPartialParser

section Extension

variable {σ : Type} {jiter : Jiter σ} {Next : σ → List JsonToken → Prop} {config : JiterConfig}

/-- The value that a walk ends with. -/
def outcomeValue : WalkOutcome × σ → Option JsonData
  | (.complete v _ _, _) => some v
  | (.truncated v _ _, _) => some v
  | (.hard _, _) => none

/-- What can become of a cut document: elements that have been read stay, an object may change. -/
inductive Follows (parseF64 : String → Float) : CutDoc → JsonData → Prop
  | whole (d : TokenDoc) : Follows parseF64 (.whole d) (dataOf parseF64 d)
  | item {done : List TokenDoc} {last : CutDoc} {v : JsonData} {more : List JsonData}
    (h : Follows parseF64 last v) :
    Follows parseF64 (.array done last) (.array (dataItems parseF64 done ++ v :: more))
  | items {done : List TokenDoc} {last : CutDoc} {more : List JsonData} (h : last.shared = []) :
    Follows parseF64 (.array done last) (.array (dataItems parseF64 done ++ more))
  | object (done : List (String × TokenDoc)) (key : String) (last : CutDoc) (v : JsonData) :
    Follows parseF64 (.object done key last) v
  | objectKey (done : List (String × TokenDoc)) (key : KeyEnd) (v : JsonData) :
    Follows parseF64 (.objectKey done key) v

theorem Follows.cons {parseF64 : String → Float} {x : TokenDoc} {done : List TokenDoc}
    {last : CutDoc} {vs : List JsonData} (h : Follows parseF64 (.array done last) (.array vs)) :
    Follows parseF64 (.array (x :: done) last) (.array (dataOf parseF64 x :: vs)) := by
  have hcons : ∀ ws, dataOf parseF64 x :: (dataItems parseF64 done ++ ws) =
      dataItems parseF64 (x :: done) ++ ws := fun ws => by rw [dataItems, List.cons_append]
  cases h with
  | item h =>
    rw [hcons]
    exact .item h
  | items h =>
    rw [hcons]
    exact .items h

/-- Whatever follows, an array keeps the elements it has. -/
theorem arrayRest_appends {fuel depth : ℕ} {path : JsonPath} {items : List JsonData} {cursor : ℕ}
    {ds : List ParseDiagnostic} {step : Except JiterError (Option Peek) × σ} {r : WalkOutcome × σ}
    {v : JsonData}
    (h : arrayRest jiter config fuel depth path items cursor ds step = some r)
    (hv : outcomeValue r = some v) : ∃ more, v = .array (items ++ more) := by
  induction fuel using Nat.strong_induction_on generalizing items cursor ds step with
  | _ fuel ih =>
    obtain ⟨e | peek, s⟩ := step
    · rw [arrayRest] at h
      split_ifs at h
      · cases h
        cases hv
        exact ⟨[], by rw [List.append_nil]⟩
      · cases h
        cases hv
    · cases peek with
      | none =>
        cases h
        cases hv
        exact ⟨[], by rw [List.append_nil]⟩
      | some peek =>
        obtain ⟨n, ⟨outcome, s₁⟩, hn, -, h⟩ := arrayLoop_eq_some h
        cases outcome with
        | complete w cursor' ds' =>
          obtain ⟨more, rfl⟩ := ih n hn h
          exact ⟨w :: more, by rw [List.append_assoc]; rfl⟩
        | truncated w cursor' ds' =>
          cases h
          cases hv
          exact ⟨[w], rfl⟩
        | hard e =>
          cases h
          cases hv

/-- What a walk of a cut document is shown to do where the input goes on. -/
def FollowsAt (jiter : Jiter σ) (Next : σ → List JsonToken → Prop) (config : JiterConfig)
    (c : CutDoc) : Prop :=
  ∀ fuel peek depth path s r v, c.peek = some peek → c.shared ≠ [] → Next s c.shared →
    walkWithPeek jiter config fuel peek depth path s = some r → outcomeValue r = some v →
    Follows jiter.parseF64 c v

theorem CutDoc.exists_shared {c : CutDoc} (h : c.shared ≠ []) :
    ∃ t ts p, c.shared = t :: ts ∧ t.peek? = some p ∧ c.peek = some p := by
  cases c with
  | missing => exact absurd rfl h
  | broken s => exact absurd rfl h
  | whole d =>
    obtain ⟨t, ts, hd, ht⟩ := exists_tokens d
    cases d with
    | scalar s => exact absurd rfl h
    | array xs => exact ⟨t, ts, _, hd, ht, rfl⟩
    | object m => exact ⟨t, ts, _, hd, ht, rfl⟩
  | array done last => exact ⟨_, _, _, rfl, rfl, rfl⟩
  | object done key last => exact ⟨_, _, _, rfl, rfl, rfl⟩
  | objectKey done key => exact ⟨_, _, _, rfl, rfl, rfl⟩

theorem exists_beforeItems {done : List TokenDoc} {last : CutDoc}
    (h : beforeItems done last.shared ≠ []) :
    ∃ t ts p, beforeItems done last.shared = t :: ts ∧ t.peek? = some p ∧
      itemPeek done last = some p := by
  cases done with
  | nil => exact CutDoc.exists_shared h
  | cons d done =>
    obtain ⟨t, ts, hd, ht⟩ := exists_tokens d
    refine ⟨t, ts ++ .comma :: beforeItems done last.shared, _, ?_, ht, rfl⟩
    rw [beforeItems, hd]
    rfl

theorem eq_nil_of_beforeItems {done : List TokenDoc} {last : CutDoc}
    (h : beforeItems done last.shared = []) : done = [] ∧ last.shared = [] := by
  cases done with
  | nil => exact ⟨rfl, h⟩
  | cons d done =>
    obtain ⟨t, ts, hd, -⟩ := exists_tokens d
    rw [beforeItems, hd] at h
    cases h

theorem arrayLoop_follows (hj : jiter.Reads Next) {last : CutDoc}
    (hlast : FollowsAt jiter Next config last) {done : List TokenDoc} {peek : Peek}
    (hpeek : itemPeek done last = some peek) (hne : beforeItems done last.shared ≠ [])
    {fuel depth : ℕ} {path : JsonPath} {items : List JsonData} {ds : List ParseDiagnostic} {s : σ}
    {r : WalkOutcome × σ} {v : JsonData} (hs : Next s (beforeItems done last.shared))
    (h : arrayLoop jiter config fuel peek depth path items ds s = some r)
    (hv : outcomeValue r = some v) :
    ∃ vs, v = .array (items ++ vs) ∧ Follows jiter.parseF64 (.array done last) (.array vs) := by
  induction done generalizing peek items ds fuel s with
  | nil =>
    obtain ⟨n, ⟨outcome, s₁⟩, -, hr₁, h⟩ := arrayLoop_eq_some h
    cases outcome with
    | complete w cursor ds' =>
      have hw := hlast _ _ _ _ _ _ _ hpeek hne hs hr₁ rfl
      obtain ⟨more, rfl⟩ := arrayRest_appends h hv
      exact ⟨w :: more, by rw [List.append_assoc]; rfl, @Follows.item _ [] _ _ more hw⟩
    | truncated w cursor ds' =>
      have hw := hlast _ _ _ _ _ _ _ hpeek hne hs hr₁ rfl
      cases h
      cases hv
      exact ⟨[w], rfl, @Follows.item _ [] _ _ [] hw⟩
    | hard e =>
      cases h
      cases hv
  | cons x done ih =>
    obtain rfl : docPeek x = peek := Option.some.inj hpeek
    obtain ⟨n, r₁, -, hr₁, h⟩ := arrayLoop_eq_some h
    cases readsDoc hj x _ _ _ _ _ _ hs hr₁ with
    | complete hs₁ =>
      by_cases hrest : beforeItems done last.shared = []
      · obtain ⟨rfl, hshared⟩ := eq_nil_of_beforeItems hrest
        obtain ⟨more, rfl⟩ := arrayRest_appends h hv
        refine ⟨dataOf jiter.parseF64 x :: more, by rw [List.append_assoc]; rfl, ?_⟩
        exact Follows.cons (@Follows.items _ [] _ more hshared)
      · obtain ⟨t, ts, p, hts, ht, hp⟩ := exists_beforeItems hrest
        rw [hts] at hs₁
        obtain ⟨s₂, hstep, hs₂⟩ := hj.arrayStep hs₁ ht
        rw [← hts] at hs₂
        rw [afterItem, hstep] at h
        obtain ⟨vs, rfl, hvs⟩ := ih hp hrest hs₂ h
        exact ⟨_, by rw [List.append_assoc]; rfl, hvs.cons⟩
    | hard e s₁ =>
      cases h
      cases hv

theorem walkArray_follows (hj : jiter.Reads Next) {last : CutDoc}
    (hlast : FollowsAt jiter Next config last) {done : List TokenDoc} {fuel depth : ℕ}
    {path : JsonPath} {pre : ℕ} {s : σ} {r : WalkOutcome × σ} {v : JsonData}
    (hs : Next s (CutDoc.array done last).shared)
    (h : arrayRest jiter config fuel depth path [] pre [] (jiter.knownArray s) = some r)
    (hv : outcomeValue r = some v) : Follows jiter.parseF64 (.array done last) v := by
  by_cases hrest : beforeItems done last.shared = []
  · obtain ⟨rfl, hshared⟩ := eq_nil_of_beforeItems hrest
    obtain ⟨more, rfl⟩ := arrayRest_appends h hv
    exact @Follows.items _ [] _ more hshared
  · obtain ⟨t, ts, p, hts, ht, hp⟩ := exists_beforeItems hrest
    rw [CutDoc.shared, hts] at hs
    obtain ⟨s', hstep, hs'⟩ := hj.knownArray hs ht
    rw [← hts] at hs'
    rw [hstep] at h
    obtain ⟨vs, rfl, hvs⟩ := arrayLoop_follows hj hlast hp hrest hs' h hv
    exact hvs

/-- The walk of a longer input keeps what is settled. -/
theorem walkValue_follows (hj : jiter.Reads Next) {c : CutDoc} {p : Peek} (hp : c.peek = some p)
    (hne : c.shared ≠ []) {fuel pre depth : ℕ} {path : JsonPath} {s : σ} {r : WalkOutcome × σ}
    {v : JsonData} (hs : Next s c.shared)
    (h : walkValue jiter config fuel p pre depth path s = some r) (hv : outcomeValue r = some v) :
    Follows jiter.parseF64 c v := by
  induction c generalizing p fuel pre depth path s r v with
  | missing => exact absurd rfl hne
  | broken t => exact absurd rfl hne
  | whole d =>
    cases hp
    have hread : ReadsTo Next [] (dataOf jiter.parseF64 d) r := by
      refine walkValue_reads hj d ?_ h
      cases d with
      | scalar t => exact absurd rfl hne
      | array xs => simpa [CutDoc.shared] using hs
      | object m => simpa [CutDoc.shared] using hs
    cases hread with
    | complete hs =>
      cases hv
      exact .whole d
    | hard e s => cases hv
  | array done last ih =>
    cases hp
    obtain ⟨n, pre', h⟩ := walkValue_array_eq_some h
    refine walkArray_follows hj ?_ hs h hv
    intro fuel p depth path s r v hp hne hs h hv
    rcases walkWithPeek_eq_some h with ⟨e, rfl⟩ | ⟨n, h⟩
    · cases hv
    · exact ih hp hne hs h hv
  | object done key last ih => exact .object done key last v
  | objectKey done key => exact .objectKey done key v

end Extension

section Hint

variable {parseF64 : String → Float} {m : MapOrder}

/-- No object that is still open holds a second scalar. -/
def FewOpen : CutDoc → JsonPath → Prop
  | .array done last, path => FewOpen last (path.appendIndex (UInt64.ofNat done.length))
  | .object done key last, path => (readFields (done ++ cutField key last) path).length ≤ 1
  | .objectKey done _, path => (readFields done path).length ≤ 1
  | _, _ => True

theorem closed_of_shared_nil {c : CutDoc} (h : c.shared = []) :
    c.closed = none ∨ ∃ s, c.closed = some (.scalar s) := by
  cases c with
  | missing => exact Or.inl rfl
  | broken s => exact Or.inr ⟨_, rfl⟩
  | whole d =>
    cases d with
    | scalar s => exact Or.inr ⟨s, rfl⟩
    | array xs =>
      obtain ⟨t, ts, hd, -⟩ := exists_tokens (.array xs)
      rw [CutDoc.shared, hd] at h
      · cases h
      · nofun
    | object fields =>
      obtain ⟨t, ts, hd, -⟩ := exists_tokens (.object fields)
      rw [CutDoc.shared, hd] at h
      · cases h
      · nofun
  | _ => cases h

theorem Follows.exists_closed {c : CutDoc} {v : JsonData} (h : Follows parseF64 c v) :
    ∃ d, c.closed = some d := by
  cases h <;> exact ⟨_, rfl⟩

theorem segments_appendIndex {path : JsonPath} {i : ℕ} (hi : i < 2 ^ 64) :
    (path.appendIndex (UInt64.ofNat i)).segments = path.segments ++ [.index i] := by
  have hindex : (UInt64.ofNat i).toNat = i := UInt64.toNat_ofNat_of_lt hi
  change path.segments ++ [.index (UInt64.ofNat i).toNat] = _
  rw [hindex]

/-- A leaf of the first elements of an array is found whatever follows them. -/
theorem get?_of_mem_items {xs : List JsonData} (hlen : xs.length ≤ 2 ^ 64) {p path : JsonPath}
    (hp : p ∈ collectItems m xs path 0) :
    ∃ rel, p.segments = path.segments ++ rel ∧
      ∀ more, get? rel (.array (xs ++ more) : JsonData) = get? rel (.array xs) := by
  obtain ⟨i, x, hi, hp⟩ := mem_collectItems.mp hp
  have hlt : i < xs.length := (List.getElem?_eq_some_iff.mp hi).1
  rw [Nat.zero_add] at hp
  obtain ⟨rel, hrel⟩ := segments_of_mem_collectLeaves hp
  rw [segments_appendIndex (hlt.trans_le hlen), List.append_assoc] at hrel
  refine ⟨.index i :: rel, hrel.symm, fun more => ?_⟩
  rw [get?, get?, List.getElem?_append_left hlt]

theorem dropLast_of_perm {leaves leaves' : List JsonPath} (h : leaves.Perm leaves')
    (hlen : leaves'.length ≤ 1) : leaves.dropLast = [] := by
  rw [← h.length_eq] at hlen
  exact List.eq_nil_of_length_eq_zero (by rw [List.length_dropLast]; omega)

/-- The leaves of a cut array are those of its whole elements, and of the last. -/
theorem collectLeaves_cutArray (done : List TokenDoc) (last : CutDoc) (path : JsonPath) :
    collectLeaves m (dataOf parseF64 (.array (cutItems done last))) path =
      collectItems m (dataItems parseF64 done) path 0 ++
        (last.closed.toList.flatMap fun d => collectLeaves (m.under (.index done.length))
          (dataOf parseF64 d) (path.appendIndex (UInt64.ofNat done.length))) := by
  rw [dataOf, collectLeaves, cutItems, dataItems_eq, List.map_append, collectItems_append,
    ← dataItems_eq, dataItems_eq done, List.length_map, Nat.zero_add]
  cases last.closed with
  | none => simp [collectItems]
  | some d => simp [collectItems]

/-- The leaves before the last keep their values. -/
theorem get?_of_follows {c : CutDoc} {v : JsonData} (hf : Follows parseF64 c v) {d : TokenDoc}
    (hd : c.closed = some d) {path p : JsonPath} (hfew : FewOpen c path)
    (hsize : d.Sized (2 ^ 64))
    (hp : p ∈ (collectLeaves m (dataOf parseF64 d) path).dropLast) :
    ∃ rel, p.segments = path.segments ++ rel ∧ get? rel v = get? rel (dataOf parseF64 d) := by
  induction hf generalizing d path m with
  | whole d' =>
    cases hd
    obtain ⟨rel, hrel⟩ := segments_of_mem_collectLeaves (List.mem_of_mem_dropLast hp)
    exact ⟨rel, hrel.symm, rfl⟩
  | object done key last v =>
    cases hd
    have hnil := dropLast_of_perm (@collectLeaves_perm m parseF64
      (.object (done ++ cutField key last)) path) hfew
    exact absurd (hnil ▸ hp) List.not_mem_nil
  | objectKey done key v =>
    cases hd
    have hnil := dropLast_of_perm (@collectLeaves_perm m parseF64 (.object done) path) hfew
    exact absurd (hnil ▸ hp) List.not_mem_nil
  | @item done last v more hlast ih =>
    obtain ⟨e, he⟩ := hlast.exists_closed
    cases hd
    change Sized _ (.array (cutItems done last)) at hsize
    change p ∈ (collectLeaves m (dataOf parseF64 (.array (cutItems done last))) path).dropLast at hp
    change ∃ rel, _ ∧ get? rel _ = get? rel (dataOf parseF64 (.array (cutItems done last)))
    have hvalue : dataOf parseF64 (.array (cutItems done last)) =
        .array (dataItems parseF64 done ++ [dataOf parseF64 e]) := by
      rw [dataOf, cutItems, he, dataItems_eq, dataItems_eq, List.map_append]
      rfl
    rw [collectLeaves_cutArray, he, Option.toList_some, List.flatMap_singleton] at hp
    rw [hvalue]
    cases hsize with
    | array hlen hsize =>
    have hdone : done.length < 2 ^ 64 := by
      rw [cutItems, he, List.length_append] at hlen
      exact Nat.lt_of_succ_le hlen
    have hlen' : (dataItems parseF64 done).length = done.length := by
      rw [dataItems_eq, List.length_map]
    by_cases hnil : collectLeaves (m.under (.index done.length)) (dataOf parseF64 e)
        (path.appendIndex (UInt64.ofNat done.length)) = []
    · rw [hnil, List.append_nil] at hp
      obtain ⟨rel, hrel, hget⟩ := get?_of_mem_items (by omega) (List.mem_of_mem_dropLast hp)
      exact ⟨rel, hrel, by rw [hget, hget]⟩
    · rw [List.dropLast_append_of_ne_nil hnil] at hp
      rcases List.mem_append.mp hp with hp | hp
      · obtain ⟨rel, hrel, hget⟩ := get?_of_mem_items (by omega) hp
        exact ⟨rel, hrel, by rw [hget, hget]⟩
      · obtain ⟨rel, hrel, hget⟩ := ih he hfew (hsize e (by simp [cutItems, he])) hp
        rw [segments_appendIndex hdone, List.append_assoc] at hrel
        refine ⟨.index done.length :: rel, hrel, ?_⟩
        rw [get?, get?, ← hlen', List.getElem?_append_right le_rfl,
          List.getElem?_append_right le_rfl, Nat.sub_self]
        exact hget
  | @items done last more hshared =>
    cases hd
    change Sized _ (.array (cutItems done last)) at hsize
    change p ∈ (collectLeaves m (dataOf parseF64 (.array (cutItems done last))) path).dropLast at hp
    change ∃ rel, _ ∧ get? rel _ = get? rel (dataOf parseF64 (.array (cutItems done last)))
    have hvalue : dataOf parseF64 (.array (cutItems done last)) =
        .array (dataItems parseF64 done ++ dataItems parseF64 last.closed.toList) := by
      rw [dataOf, cutItems, dataItems_eq, dataItems_eq, dataItems_eq, List.map_append]
    cases hsize with
    | array hlen hsize =>
    have hlen' : (dataItems parseF64 done).length ≤ 2 ^ 64 := by
      rw [cutItems, List.length_append] at hlen
      rw [dataItems_eq, List.length_map]
      omega
    have hmem : p ∈ collectItems m (dataItems parseF64 done) path 0 := by
      rw [collectLeaves_cutArray] at hp
      rcases closed_of_shared_nil hshared with hnone | ⟨s, hs⟩
      · rw [hnone] at hp
        simpa using List.mem_of_mem_dropLast hp
      · obtain ⟨x, hx⟩ := @exists_scalarData parseF64 s
        rw [hs, Option.toList_some, List.flatMap_singleton, dataOf, hx, collectLeaves,
          List.dropLast_concat] at hp
        exact hp
    obtain ⟨rel, hrel, hget⟩ := get?_of_mem_items hlen' hmem
    exact ⟨rel, hrel, by rw [hvalue, hget, hget]⟩

end Hint

section Result

variable {σ : Type} {jiter : Jiter σ} {Last : σ → List JsonToken → Option Peek → Prop}
  {Next : σ → List JsonToken → Prop} {config : JiterConfig} {m : MapOrder} {input : List UInt8}
  {c : CutDoc}

/-- The input ends in the document `c`. A longer input has the same tokens, except that a scalar at
the very end may go on. -/
structure IsTruncated (jiter : Jiter σ) (Last : σ → List JsonToken → Option Peek → Prop)
    (Next : σ → List JsonToken → Prop) (config : JiterConfig) (input : List UInt8) (c : CutDoc) :
    Prop where
  reads : Last (jiter.new config.allowInfNan config.allowTrailingStrings input) c.tokens c.kind
  goesOn : ∀ more,
    Next (jiter.new config.allowInfNan config.allowTrailingStrings (input ++ more)) c.shared
  unfinished : ∀ d, c = .whole d → ∃ s, d = .scalar s
  fits : ∀ d, c.closed = some d → d.Sized (2 ^ 64)

/-- The path of the value read last. -/
def boundary (c : CutDoc) : Option JsonPath := c.closed.bind fun d => (readLeaves d .root).getLast?

/-- What the hint promises of an input that ends in the document `c`. -/
def HintHolds (jiter : Jiter σ) (config : JiterConfig) (input : List UInt8) (c : CutDoc) : Prop :=
  ∀ m fuel result hint, parsePartial jiter config m fuel input = some (.ok result) →
    result.streamingHint = some hint →
    (∀ b, boundary c = some b → b ∉ hint.stablePaths) ∧
    ∀ p ∈ hint.stablePaths, ∀ more m' fuel' result',
      parsePartial jiter config m' fuel' (input ++ more) = some (.ok result') →
      get? p.segments result'.value = get? p.segments result.value

/-- An accepted input is blank, or has the result of its walk. -/
theorem parsePartial_eq_ok {fuel : ℕ} {result : PartialParseResult}
    (h : parsePartial jiter config m fuel input = some (.ok result)) :
    (input.all isAsciiWhitespace = true ∧ result = .empty) ∨
      ∃ r, walk jiter config fuel 0 .root
        (jiter.new config.allowInfNan config.allowTrailingStrings input) = some r ∧
        assemble jiter config m input r.1 = .ok result := by
  unfold parsePartial at h
  split_ifs at h with hsize hblank
  · cases h
  · cases h
    exact Or.inl ⟨hblank, rfl⟩
  · obtain ⟨r, hr, h⟩ := Option.map_eq_some_iff.mp h
    exact Or.inr ⟨r, hr, h⟩

theorem value_of_assemble {r : WalkOutcome × σ} {result : PartialParseResult}
    (h : assemble jiter config m input r.1 = .ok result) : outcomeValue r = some result.value := by
  obtain ⟨outcome, s⟩ := r
  cases outcome with
  | hard e => cases h
  | _ =>
    cases h
    rfl

theorem hint_of_scalar {r : WalkOutcome × σ} {result : PartialParseResult}
    (h : assemble jiter config m input r.1 = .ok result) {x : DataScalar}
    (hx : outcomeValue r = some (.scalar x)) : result.streamingHint = none := by
  obtain ⟨outcome, s⟩ := r
  cases outcome with
  | hard e => cases h
  | _ =>
    cases hx
    cases h
    exact ite_self none

/-- The hint of a walk that stops short leaves the last leaf out. -/
theorem hint_of_stops {v : JsonData} {r : WalkOutcome × σ} (hr : Stops v r)
    {result : PartialParseResult} (h : assemble jiter config m input r.1 = .ok result)
    {hint : StreamingHint} (hhint : result.streamingHint = some hint) :
    result.value = v ∧ hint.stablePaths = (collectLeaves m v .root).dropLast := by
  cases hr with
  | hard e s => cases h
  | truncated cursor ds s =>
    cases h
    refine ⟨rfl, ?_⟩
    change (if config.emitStreamingHint = true then buildStreamingHint m v .root true else none) =
      some hint at hhint
    split_ifs at hhint
    cases v with
    | scalar x => cases hhint
    | _ =>
      unfold buildStreamingHint at hhint
      simp only [Bool.true_and] at hhint
      split_ifs at hhint with hempty
      · cases hhint
        rfl
      · cases hhint
        have hnil := List.isEmpty_iff.mp (by simpa using hempty)
        simp only [hnil, List.dropLast_nil]

/-- Whether there is a hint does not depend on the order of the maps. -/
theorem exists_hint_of_stops {v : JsonData} {r : WalkOutcome × σ} (hr : Stops v r)
    {result : PartialParseResult} (h : assemble jiter config m input r.1 = .ok result)
    {hint : StreamingHint} (hhint : result.streamingHint = some hint) (m' : MapOrder) :
    ∃ result' hint', assemble jiter config m' input r.1 = .ok result' ∧
      result'.streamingHint = some hint' := by
  cases hr with
  | hard e s => cases h
  | truncated cursor ds s =>
    cases h
    change (if config.emitStreamingHint = true then buildStreamingHint m v .root true else none) =
      some hint at hhint
    split_ifs at hhint with hemit
    have hsome : ∃ hint', buildStreamingHint m' v .root true = some hint' := by
      cases v with
      | scalar x => cases hhint
      | _ =>
        unfold buildStreamingHint
        simp only
        split_ifs
        · exact ⟨_, rfl⟩
        · exact ⟨_, rfl⟩
    obtain ⟨hint', hhint'⟩ := hsome
    exact ⟨_, hint', rfl, (if_pos hemit).trans hhint'⟩

/-- The walk of a truncated input stops short, unless there is at most a scalar. -/
theorem walk_stops (hj : jiter.Ends Last) {s : σ} (hs : Last s c.tokens c.kind)
    (hc : ∀ d, c = .whole d → ∃ s, d = .scalar s) {fuel : ℕ} {r : WalkOutcome × σ}
    (h : walk jiter config fuel 0 .root s = some r) :
    (∃ x, outcomeValue r = some (.scalar x)) ∨ outcomeValue r = none ∨
      ∃ d, c.closed = some d ∧ Stops (dataOf jiter.parseF64 d) r := by
  unfold walk at h
  split_ifs at h
  · cases h
    exact Or.inr (Or.inl rfl)
  · rcases hj.peek_starts hs c.starts with ⟨-, e, s', hpeek, he⟩ | ⟨p, s', hp, hpeek, hs'⟩
    · simp only [hpeek, he, if_true] at h
      cases h
      exact Or.inl ⟨_, rfl⟩
    · simp only [hpeek] at h
      obtain ⟨d, hd⟩ := CutDoc.exists_closed hp
      by_cases hwhole : ∃ d', c = .whole d'
      · obtain ⟨d', rfl⟩ := hwhole
        obtain ⟨t, rfl⟩ := hc d' rfl
        cases hp
        have hread : ReadsTo (fun s ts => Last s ts none) [] (dataOf jiter.parseF64 (.scalar t))
            r :=
          walkValue_reads (hj.reads none) (.scalar t) (by rw [List.append_nil]; exact hs') h
        obtain ⟨x, hx⟩ := @exists_scalarData jiter.parseF64 t
        rw [dataOf, hx] at hread
        cases hread with
        | complete hs => exact Or.inl ⟨x, rfl⟩
        | hard e s => exact Or.inr (Or.inl rfl)
      · have hopen : ∀ d', c ≠ .whole d' := fun d' hd' => hwhole ⟨d', hd'⟩
        exact Or.inr (Or.inr ⟨d, hd, walkValue_stops hj hopen hp hd hs' h⟩)

/-- The walk of a longer input keeps what is settled. -/
theorem walk_follows (hj : jiter.Reads Next) {s : σ} (hne : c.shared ≠ []) (hs : Next s c.shared)
    {fuel : ℕ} {r : WalkOutcome × σ} (h : walk jiter config fuel 0 .root s = some r)
    {v : JsonData} (hv : outcomeValue r = some v) : Follows jiter.parseF64 c v := by
  unfold walk at h
  split_ifs at h
  · cases h
    cases hv
  · obtain ⟨t, ts, p, hts, ht, hp⟩ := CutDoc.exists_shared hne
    rw [hts] at hs
    obtain ⟨s', hpeek, hs'⟩ := hj.peek hs ht
    rw [← hts] at hs'
    simp only [hpeek] at h
    exact walkValue_follows hj hp hne hs' h hv

/-- What a hint of a truncated input says, and about which value. -/
theorem stops_of_hint (hend : jiter.Ends Last) (hc : IsTruncated jiter Last Next config input c)
    {fuel : ℕ} {result : PartialParseResult} {hint : StreamingHint}
    (hparse : parsePartial jiter config m fuel input = some (.ok result))
    (hhint : result.streamingHint = some hint) :
    ∃ d r, c.closed = some d ∧ Stops (dataOf jiter.parseF64 d) r ∧
      walk jiter config fuel 0 .root
        (jiter.new config.allowInfNan config.allowTrailingStrings input) = some r ∧
      assemble jiter config m input r.1 = .ok result := by
  rcases parsePartial_eq_ok hparse with ⟨-, rfl⟩ | ⟨r, hwalk, hresult⟩
  · cases hhint
  have hvalue := value_of_assemble hresult
  rcases walk_stops hend hc.reads hc.unfinished hwalk with ⟨x, hx⟩ | hnone | ⟨d, hd, hstops⟩
  · rw [hint_of_scalar hresult hx] at hhint
    cases hhint
  · rw [hnone] at hvalue
    cases hvalue
  · exact ⟨d, r, hd, hstops, hwalk, hresult⟩

/-- Blank inputs have no hint. -/
theorem not_blank_of_hint {fuel : ℕ} {result : PartialParseResult} {hint : StreamingHint}
    (hparse : parsePartial jiter config m fuel input = some (.ok result))
    (hhint : result.streamingHint = some hint) : input.all isAsciiWhitespace = false := by
  by_contra hblank
  rw [Bool.not_eq_false] at hblank
  unfold parsePartial at hparse
  rw [if_pos hblank] at hparse
  split_ifs at hparse
  · cases hparse
  · cases hparse
    cases hhint

/-- The value read last is never stable where it is reached on one way. -/
theorem boundary_not_stable (hend : jiter.Ends Last)
    (hc : IsTruncated jiter Last Next config input c)
    (hway : ∀ d, c.closed = some d → OneWay d .root) {fuel : ℕ} {result : PartialParseResult}
    {hint : StreamingHint} (hparse : parsePartial jiter config m fuel input = some (.ok result))
    (hhint : result.streamingHint = some hint) {b : JsonPath} (hb : boundary c = some b) :
    b ∉ hint.stablePaths := by
  obtain ⟨d, r, hd, hstops, -, hresult⟩ := stops_of_hint hend hc hparse hhint
  rw [boundary, hd, Option.bind_some] at hb
  obtain ⟨init, hinit, hnot⟩ :=
    @collectLeaves_endsWith m jiter.parseF64 _ _ _ (hc.fits d hd) (hway d hd) hb
  rwa [(hint_of_stops hstops hresult hhint).2, hinit, List.dropLast_concat]

/-- A stable path keeps its value where no object that is still open holds a second scalar. -/
theorem stable_kept (hend : jiter.Ends Last) (hnext : jiter.Reads Next)
    (hc : IsTruncated jiter Last Next config input c) (hfew : FewOpen c .root) {fuel : ℕ}
    {result : PartialParseResult} {hint : StreamingHint}
    (hparse : parsePartial jiter config m fuel input = some (.ok result))
    (hhint : result.streamingHint = some hint) {p : JsonPath} (hp : p ∈ hint.stablePaths)
    {more : List UInt8} {m' : MapOrder} {fuel' : ℕ} {result' : PartialParseResult}
    (hparse' : parsePartial jiter config m' fuel' (input ++ more) = some (.ok result')) :
    get? p.segments result'.value = get? p.segments result.value := by
  obtain ⟨d, r, hd, hstops, -, hresult⟩ := stops_of_hint hend hc hparse hhint
  obtain ⟨hv, hstable⟩ := hint_of_stops hstops hresult hhint
  rw [hstable] at hp
  have hne : c.shared ≠ [] := by
    intro hnil
    rcases closed_of_shared_nil hnil with hclosed | ⟨t, ht⟩
    · cases hd.symm.trans hclosed
    · obtain rfl : d = .scalar t := Option.some.inj (hd.symm.trans ht)
      obtain ⟨x, hx⟩ := @exists_scalarData jiter.parseF64 t
      rw [dataOf, hx, collectLeaves] at hp
      cases hp
  rcases parsePartial_eq_ok hparse' with ⟨hblank, -⟩ | ⟨r', hwalk', hresult'⟩
  · rw [List.all_append, not_blank_of_hint hparse hhint, Bool.false_and] at hblank
    cases hblank
  · have hf := walk_follows hnext hne (hc.goesOn more) hwalk' (value_of_assemble hresult')
    obtain ⟨rel, hrel, hget⟩ := get?_of_follows hf hd hfew (hc.fits d hd) hp
    have hroot : p.segments = rel := hrel
    rw [hv, hroot, hget]

/-- Where the value read last is not reached on one way, some order of the maps makes it stable. -/
theorem exists_boundary_stable (hend : jiter.Ends Last)
    (hc : IsTruncated jiter Last Next config input c) {fuel : ℕ} {result : PartialParseResult}
    {hint : StreamingHint} (hparse : parsePartial jiter config m fuel input = some (.ok result))
    (hhint : result.streamingHint = some hint) {d : TokenDoc} (hd : c.closed = some d)
    (hway : ¬OneWay d .root) :
    ∃ m' result' hint' b, parsePartial jiter config m' fuel input = some (.ok result') ∧
      result'.streamingHint = some hint' ∧ boundary c = some b ∧ b ∈ hint'.stablePaths := by
  obtain ⟨d', r, hd', hstops, hwalk, hresult⟩ := stops_of_hint hend hc hparse hhint
  obtain rfl : d' = d := Option.some.inj (hd'.symm.trans hd)
  cases hb : (readLeaves d' .root).getLast? with
  | none => exact absurd (.empty (List.getLast?_eq_none_iff.mp hb)) hway
  | some b =>
    obtain ⟨m', hm'⟩ := @exists_order_of_not_oneWay jiter.parseF64 _ _ _ hway hb
    obtain ⟨result', hint', hresult', hhint'⟩ := exists_hint_of_stops hstops hresult hhint m'
    refine ⟨m', result', hint', b, ?_, hhint', by rw [boundary, hd, Option.bind_some, hb], ?_⟩
    · have hblank := not_blank_of_hint hparse hhint
      unfold parsePartial at hparse ⊢
      split_ifs at hparse ⊢ with hsize hall
      · cases hparse
      · rw [hblank] at hall
        cases hall
      · rw [hwalk, Option.map_some, hresult']
    · rw [(hint_of_stops hstops hresult' hhint').2]
      exact hm'

/-- The hint keeps its promises where the value read last is reached on one way, and no object that
is still open holds a second scalar; where there is a hint, the first of the two is necessary. -/
theorem hintHolds_of_oneWay (hend : jiter.Ends Last) (hnext : jiter.Reads Next)
    (hc : IsTruncated jiter Last Next config input c) :
    ((∀ d, c.closed = some d → OneWay d .root) → FewOpen c .root →
      HintHolds jiter config input c) ∧
    ((∃ m fuel result hint, parsePartial jiter config m fuel input = some (.ok result) ∧
        result.streamingHint = some hint) →
      HintHolds jiter config input c → ∀ d, c.closed = some d → OneWay d .root) := by
  constructor
  · intro hway hfew m fuel result hint hparse hhint
    exact ⟨fun b hb => boundary_not_stable hend hc hway hparse hhint hb,
      fun p hp more m' fuel' result' hparse' =>
        stable_kept hend hnext hc hfew hparse hhint hp hparse'⟩
  · rintro ⟨m, fuel, result, hint, hparse, hhint⟩ hholds d hd
    by_contra hway
    obtain ⟨m', result', hint', b, hparse', hhint', hb, hstable⟩ :=
      exists_boundary_stable hend hc hparse hhint hd hway
    exact (hholds m' fuel result' hint' hparse' hhint').1 b hb hstable

end Result

section Tape

/-- A tokenizer that reads all of the tokens reads some of them. -/
theorem reads_before {σ : Type} {jiter : Jiter σ} {At : σ → List JsonToken → Prop}
    (hj : jiter.Reads At) (P : List JsonToken → Prop) :
    jiter.Reads fun s ts => ∃ rest, P rest ∧ At s (ts ++ rest) where
  peek := by
    rintro s t ts k ⟨rest, hrest, hs⟩ hk
    obtain ⟨s', h, hs'⟩ := hj.peek hs hk
    exact ⟨s', h, rest, hrest, hs'⟩
  knownNull := by
    rintro s ts ⟨rest, hrest, hs⟩
    obtain ⟨s', h, hs'⟩ := hj.knownNull hs
    exact ⟨s', h, rest, hrest, hs'⟩
  knownBool := by
    rintro s ts b ⟨rest, hrest, hs⟩
    obtain ⟨s', h, hs'⟩ := hj.knownBool hs
    exact ⟨s', h, rest, hrest, hs'⟩
  knownNumber := by
    rintro s ts n ⟨rest, hrest, hs⟩
    obtain ⟨s', h, hs'⟩ := hj.knownNumber hs
    exact ⟨s', h, rest, hrest, hs'⟩
  knownStr := by
    rintro s ts str ⟨rest, hrest, hs⟩
    obtain ⟨s', h, hs'⟩ := hj.knownStr hs
    exact ⟨s', h, rest, hrest, hs'⟩
  knownArray := by
    rintro s t ts k ⟨rest, hrest, hs⟩ hk
    obtain ⟨s', h, hs'⟩ := hj.knownArray hs hk
    exact ⟨s', h, rest, hrest, hs'⟩
  knownArray_close := by
    rintro s ts ⟨rest, hrest, hs⟩
    obtain ⟨s', h, hs'⟩ := hj.knownArray_close hs
    exact ⟨s', h, rest, hrest, hs'⟩
  arrayStep := by
    rintro s t ts k ⟨rest, hrest, hs⟩ hk
    obtain ⟨s', h, hs'⟩ := hj.arrayStep hs hk
    exact ⟨s', h, rest, hrest, hs'⟩
  arrayStep_close := by
    rintro s ts ⟨rest, hrest, hs⟩
    obtain ⟨s', h, hs'⟩ := hj.arrayStep_close hs
    exact ⟨s', h, rest, hrest, hs'⟩
  knownObject := by
    rintro s ts key ⟨rest, hrest, hs⟩
    obtain ⟨s', h, hs'⟩ := hj.knownObject hs
    exact ⟨s', h, rest, hrest, hs'⟩
  knownObject_close := by
    rintro s ts ⟨rest, hrest, hs⟩
    obtain ⟨s', h, hs'⟩ := hj.knownObject_close hs
    exact ⟨s', h, rest, hrest, hs'⟩
  nextKey := by
    rintro s ts key ⟨rest, hrest, hs⟩
    obtain ⟨s', h, hs'⟩ := hj.nextKey hs
    exact ⟨s', h, rest, hrest, hs'⟩
  nextKey_close := by
    rintro s ts ⟨rest, hrest, hs⟩
    obtain ⟨s', h, hs'⟩ := hj.nextKey_close hs
    exact ⟨s', h, rest, hrest, hs'⟩

/-- The tape has these tokens, and no other; its texts are cut between two tokens. -/
def tapeLast (s : Tape) (ts : List JsonToken) (kind : Option Peek) : Prop :=
  ∃ rest, (rest = [] ∧ kind = none) ∧ s.tokens = ts ++ rest

def tapeNext (s : Tape) (ts : List JsonToken) : Prop := ∃ rest, True ∧ s.tokens = ts ++ rest

theorem Tape.next_nil {s : Tape} (h : s.tokens = []) : s.next = none := by
  obtain ⟨index, rest⟩ := s
  cases rest with
  | nil => rfl
  | cons e rest => cases h

theorem tokens_of_tapeLast {s : Tape} {ts : List JsonToken} {kind : Option Peek}
    (h : tapeLast s ts kind) : s.tokens = ts ∧ kind = none := by
  obtain ⟨rest, ⟨rfl, hkind⟩, hs⟩ := h
  exact ⟨by rw [hs, List.append_nil], hkind⟩

theorem Tape.key_end {s : Tape} {key : KeyEnd} (h : s.tokens = key.tokens) :
    ∃ e s', s.key = (.error e, s') ∧ isPartialTolerated e = true := by
  cases key with
  | uncoloned k =>
    obtain ⟨s', hnext, hs'⟩ := Tape.next_eq h
    refine ⟨s'.fail .eofWhileParsingObject, s', ?_, rfl⟩
    simp only [Tape.key, hnext, Tape.next_nil hs']
  | _ =>
    refine ⟨s.fail .eofWhileParsingObject, s, ?_, rfl⟩
    simp only [Tape.key, Tape.next_nil h]

theorem ends_tapeJiter : tapeJiter.Ends tapeLast where
  reads kind := reads_before reads_tapeJiter fun rest => rest = [] ∧ kind = none
  peek_end {s} hs := by
    have hnext := Tape.next_nil (tokens_of_tapeLast hs).1
    exact ⟨s.fail .eofWhileParsingValue, s, by simp only [tapeJiter, Tape.peek, hnext], rfl⟩
  peek_broken hs := by cases (tokens_of_tapeLast hs).2
  knownNull_broken hs := by cases (tokens_of_tapeLast hs).2
  knownBool_broken hs := by cases (tokens_of_tapeLast hs).2
  knownNumber_broken hs := by cases (tokens_of_tapeLast hs).2
  knownStr_broken hs := by cases (tokens_of_tapeLast hs).2
  knownArray_end {s} hs := by
    obtain ⟨s', hnext, hs'⟩ := Tape.next_eq (tokens_of_tapeLast hs).1
    exact ⟨s'.fail .eofWhileParsingList, s',
      by simp only [tapeJiter, hnext, Tape.next_nil hs'], rfl⟩
  knownArray_broken hs := by cases (tokens_of_tapeLast hs).2
  arrayStep_end {s} hs := by
    have hnext := Tape.next_nil (tokens_of_tapeLast hs).1
    exact ⟨s.fail .eofWhileParsingList, s, by simp only [tapeJiter, hnext], rfl⟩
  arrayStep_comma {s} hs := by
    obtain ⟨s', hnext, hs'⟩ := Tape.next_eq (tokens_of_tapeLast hs).1
    exact ⟨s'.fail .eofWhileParsingValue, s',
      by simp only [tapeJiter, hnext, Tape.peek, Tape.next_nil hs']; rfl, rfl⟩
  arrayStep_broken hs := by cases (tokens_of_tapeLast hs).2
  knownObject_end {s} key hs := by
    obtain ⟨s', hnext, hs'⟩ := Tape.next_eq (tokens_of_tapeLast hs).1
    obtain ⟨e, s'', hkey, he⟩ := Tape.key_end hs'
    refine ⟨e, s'', ?_, he⟩
    cases key with
    | uncoloned k =>
      obtain ⟨s₁, hnext', -⟩ := Tape.next_eq hs'
      simp only [tapeJiter, hnext, hnext', hkey]
    | _ => simp only [tapeJiter, hnext, Tape.next_nil hs', hkey]
  nextKey_end {s} hs := by
    have hnext := Tape.next_nil (tokens_of_tapeLast hs).1
    exact ⟨s.fail .eofWhileParsingObject, s, by simp only [tapeJiter, hnext], rfl⟩
  nextKey_comma {s} key hs := by
    obtain ⟨s', hnext, hs'⟩ := Tape.next_eq (tokens_of_tapeLast hs).1
    obtain ⟨e, s'', hkey, he⟩ := Tape.key_end hs'
    exact ⟨e, s'', by simp only [tapeJiter, hnext, hkey], he⟩

theorem next_tapeJiter : tapeJiter.Reads tapeNext := reads_before reads_tapeJiter fun _ => True

end Tape

section Examples

def number (i : Int64) : TokenDoc := .scalar (.number (.int i))

/-- The text `[{"a":1,"c":2},{"b":3`. -/
def openArrayBytes : List UInt8 :=
  [0x5B, 0x7B, 0x22, 0x61, 0x22, 0x3A, 0x31, 0x2C, 0x22, 0x63, 0x22, 0x3A, 0x32, 0x7D, 0x2C, 0x7B,
    0x22, 0x62, 0x22, 0x3A, 0x33]

def openArrayCut : CutDoc :=
  .array [.object [("a", number 1), ("c", number 2)]] (.object [] "b" (.whole (number 3)))

theorem isTruncated_openArray :
    IsTruncated tapeJiter tapeLast tapeNext .default openArrayBytes openArrayCut where
  reads := ⟨[], ⟨rfl, rfl⟩, by decide +kernel⟩
  goesOn more := ⟨.scalar (.number (.int 3)) :: (Tape.lex 21 more).map Prod.fst, trivial, rfl⟩
  unfinished := nofun
  fits d hd := by
    cases hd
    refine .array (by decide) (List.forall_mem_cons.mpr ⟨.object fun k v h => ?_,
      List.forall_mem_singleton.mpr (.object fun k v h => ?_)⟩)
    · rcases List.mem_pair.mp h with h | h <;> cases h <;> exact .scalar _
    · cases List.mem_singleton.mp h
      exact .scalar _

theorem oneWay_openArray (d : TokenDoc) (hd : openArrayCut.closed = some d) : OneWay d .root := by
  cases hd
  refine @OneWay.array [.object [("a", number 1), ("c", number 2)]] []
    (.object [("b", number 3)]) .root (List.cons_ne_nil _ _) rfl ?_
  exact .object (List.mem_singleton_self _)
    (fun e he hne => absurd (List.mem_singleton.mp he) hne) (.scalar _ _)

theorem hintHolds_of_oneWay_openArray :
    HintHolds tapeJiter .default openArrayBytes openArrayCut :=
  (hintHolds_of_oneWay ends_tapeJiter next_tapeJiter isTruncated_openArray).1 oneWay_openArray
    le_rfl

/-- Maps that are listed from their end. -/
def reversed : MapOrder := ⟨fun _ => List.reverse, fun _ keys => List.reverse_perm keys⟩

/-- The stable paths of the hint. -/
def stablePathsOf : Option (Except PartialParseError PartialParseResult) → List JsonPath
  | some (.ok result) => (result.streamingHint.map StreamingHint.stablePaths).getD []
  | _ => []

/-- The text `{"a":1,"b":2`. -/
def openObjectBytes : List UInt8 :=
  [0x7B, 0x22, 0x61, 0x22, 0x3A, 0x31, 0x2C, 0x22, 0x62, 0x22, 0x3A, 0x32]

def openObjectCut : CutDoc := .object [("a", number 1)] "b" (.whole (number 2))

theorem isTruncated_openObject :
    IsTruncated tapeJiter tapeLast tapeNext .default openObjectBytes openObjectCut where
  reads := ⟨[], ⟨rfl, rfl⟩, by decide +kernel⟩
  goesOn more := ⟨.scalar (.number (.int 2)) :: (Tape.lex 12 more).map Prod.fst, trivial, rfl⟩
  unfinished := nofun
  fits d hd := by
    cases hd
    refine .object fun k v hkv => ?_
    rcases List.mem_cons.mp hkv with heq | hkv
    · cases heq
      exact .scalar _
    · cases List.mem_singleton.mp hkv
      exact .scalar _

/-- The value read last is reported stable where the map lists it first. -/
theorem boundary_stable :
    ¬∀ (σ : Type) (jiter : Jiter σ) (Last : σ → List JsonToken → Option Peek → Prop)
      (Next : σ → List JsonToken → Prop) (config : JiterConfig) (input : List UInt8) (c : CutDoc),
      jiter.Ends Last → jiter.Reads Next → IsTruncated jiter Last Next config input c →
      HintHolds jiter config input c := by
  intro h
  have hholds := h Tape tapeJiter tapeLast tapeNext .default openObjectBytes openObjectCut
    ends_tapeJiter next_tapeJiter isTruncated_openObject
  have hstable : childPath .root "b" ∈
      stablePathsOf (parsePartial tapeJiter .default reversed 10 openObjectBytes) := by
    decide +kernel
  cases hparse : parsePartial tapeJiter .default reversed 10 openObjectBytes with
  | none =>
    rw [hparse] at hstable
    cases hstable
  | some r =>
    cases r with
    | error e =>
      rw [hparse] at hstable
      cases hstable
    | ok result =>
      rw [hparse] at hstable
      cases hhint : result.streamingHint with
      | none =>
        simp only [stablePathsOf, hhint] at hstable
        cases hstable
      | some hint =>
        simp only [stablePathsOf, hhint] at hstable
        exact (hholds reversed 10 result hint hparse hhint).1 (childPath .root "b")
          (by decide +kernel) hstable

/-- The text `{"a":[1,2`. -/
def openFieldBytes : List UInt8 := [0x7B, 0x22, 0x61, 0x22, 0x3A, 0x5B, 0x31, 0x2C, 0x32]

def parsedValue : Option (Except PartialParseError PartialParseResult) → Option JsonData
  | some (.ok result) => some result.value
  | _ => none

-- a field of an open object: `],"a":5}` repeats the key and takes the stable value back
example : let p := (childPath .root "a").appendIndex 0
    p ∈ stablePathsOf (parsePartial tapeJiter .default inserted 10 openFieldBytes) ∧
      (parsedValue (parsePartial tapeJiter .default inserted 10 (openFieldBytes ++
        [0x5D, 0x2C, 0x22, 0x61, 0x22, 0x3A, 0x35, 0x7D]))).map (get? p.segments) = some none := by
  decide +kernel

end Examples

end JiterPartialParser

end PJS
