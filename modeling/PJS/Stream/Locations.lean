import PJS.Stream.Reconstruction
import PJS.Lib.Locations

/-! What a patch does at its location. A walk that ends in a key sets and removes what is there. A
walk that ends in an index works on the element that the last key of the path spells, so it reaches
the element the path leads to only where the two agree. -/
namespace PJS.JsonReconstructor
open Doc (get? modify? AgreeOutside Removed Level)

section Walks

/-- The walk is the edit of a document, up to what it says about failures. -/
theorem getMutAtPath_toOption (p : List PathSegment) (update : JsonValue → Except Error JsonValue)
    (s : JsonValue) :
    (getMutAtPath p update s).toOption = modify? p (fun c => (update c).toOption) s := by
  induction p generalizing s with
  | nil => rfl
  | cons seg p ih =>
    rcases seg with k | i <;> rcases s with a | xs | m
    case key.object =>
      rw [getMutAtPath, modify?]
      cases m.lookup k with
      | none => rfl
      | some c =>
        rw [Option.bind_eq_bind, Option.bind_some, ← ih c]
        dsimp only
        cases getMutAtPath p update c <;> rfl
    case index.array =>
      rw [getMutAtPath, modify?]
      cases xs[i]? with
      | none => rfl
      | some c =>
        rw [Option.bind_eq_bind, Option.bind_some, ← ih c]
        dsimp only
        cases getMutAtPath p update c <;> rfl
    all_goals rfl

theorem eq_ok_iff_toOption {α : Type} {r : Except Error α} {a : α} :
    r = .ok a ↔ r.toOption = some a := by
  cases r with
  | error e => simp [Except.toOption]
  | ok b => simp [Except.toOption]

/-- What a walk to the parent does, where it succeeds. -/
theorem getParentMut_eq_ok {path : JsonPath} {update : JsonValue → Except Error JsonValue}
    {s s' : JsonValue} (h : getParentMut path update s = .ok s') :
    ∃ c c', get? path.segments.dropLast s = some c ∧ update c = .ok c' ∧
      get? path.segments.dropLast s' = some c' ∧ AgreeOutside path.segments.dropLast s s' := by
  rw [getParentMut, eq_ok_iff_toOption, getMutAtPath_toOption] at h
  obtain ⟨c, c', hc, hu, hc', hag⟩ := Doc.modify?_eq_some h
  exact ⟨c, c', hc, eq_ok_iff_toOption.mpr hu, hc', hag⟩

theorem exists_getParentMut {path : JsonPath} {update : JsonValue → Except Error JsonValue}
    {s c c' : JsonValue} (hc : get? path.segments.dropLast s = some c) (hu : update c = .ok c') :
    ∃ s', getParentMut path update s = .ok s' := by
  obtain ⟨s', hs'⟩ := Doc.modify?_of_get? (f := fun c => (update c).toOption) hc
    (eq_ok_iff_toOption.mp hu)
  rw [← getMutAtPath_toOption, ← eq_ok_iff_toOption] at hs'
  exact ⟨s', hs'⟩

end Walks

section Paths

theorem lastKey_of_key {path : JsonPath} {p : List PathSegment} {k : String}
    (h : path.segments = p ++ [.key k]) : path.lastKey = some k := by
  unfold JsonPath.lastKey
  rw [h, List.reverse_append]
  rfl

/-- A path that leads somewhere, taken apart at its last step: the parent is an object that has the
key or an array that has the index. -/
theorem parent_cases {path : JsonPath} {d x : JsonValue} (h : get? path.segments d = some x) :
    path.segments = [] ∨
    (∃ p k m, path.segments = p ++ [.key k] ∧ path.segments.dropLast = p ∧
      get? p d = some (.object m) ∧ m.lookup k = some x) ∨
    (∃ p i xs, path.segments = p ++ [.index i] ∧ path.segments.dropLast = p ∧
      get? p d = some (.array xs) ∧ xs[i]? = some x) := by
  rcases List.eq_nil_or_concat path.segments with hnil | ⟨p, seg, hseg⟩
  · exact .inl hnil
  · right
    rw [List.concat_eq_append] at hseg
    have hdrop : path.segments.dropLast = p := by rw [hseg, List.dropLast_concat]
    rw [hseg, Doc.get?_append, Option.bind_eq_some_iff] at h
    obtain ⟨c, hc, hx⟩ := h
    rcases seg with k | i <;> rcases c with a | xs | m <;> try cases hx
    case key.object =>
      obtain ⟨e, he, hex⟩ := Option.bind_eq_some_iff.mp hx
      cases hex
      exact .inl ⟨p, k, m, hseg, hdrop, hc, he⟩
    case index.array =>
      obtain ⟨e, he, hex⟩ := Option.bind_eq_some_iff.mp hx
      cases hex
      exact .inr ⟨p, i, xs, hseg, hdrop, hc, he⟩

/-- The last step of the path is a key, or it is the index that the last key spells. -/
def Spelled (path : JsonPath) : Prop :=
  ∀ i, path.lastSegment = some (.index i) → path.lastKey.bind parseUsize = some i

theorem lastSegment_eq {path : JsonPath} {p : List PathSegment} {seg : PathSegment}
    (h : path.segments = p ++ [seg]) : path.lastSegment = some seg := by
  unfold JsonPath.lastSegment
  rw [h, List.getLast?_concat]

end Paths

section Sets

/-- What `set_at_path` does to the parent. -/
def setChild (targetKey : String) (value : JsonValue) : JsonValue → Except Error JsonValue
  | .object map => return .object (JsonMap.insert map targetKey value)
  | .array arr =>
    match parseUsize targetKey with
    | some index =>
      if index < arr.length then return .array (arr.set index value)
      else throw (.other "Array index out of bounds")
    | none => throw (.other "Invalid array index")
  | .scalar _ => throw (.other "Cannot set field on non-object/array")

theorem setAtPath_eq {path : JsonPath} {key : String} (hne : path.segments ≠ [])
    (hkey : path.lastKey = some key) (value state : JsonValue) :
    setAtPath path value state = getParentMut path (setChild key value) state := by
  have hempty : path.segments.isEmpty = false := by simpa using hne
  unfold setAtPath
  rw [hempty, hkey]
  rfl

theorem setAtPath_eq_error {path : JsonPath} (hne : path.segments ≠ [])
    (hkey : path.lastKey = none) (value state : JsonValue) :
    ∃ e, setAtPath path value state = .error e := by
  have hempty : path.segments.isEmpty = false := by simpa using hne
  unfold setAtPath
  rw [hempty, hkey]
  exact ⟨_, rfl⟩

/-- The value is put at the path, and nothing else changes. -/
def Puts (path : JsonPath) (value state : JsonValue) (result : Except Error JsonValue) : Prop :=
  ∃ state', result = .ok state' ∧ get? path.segments state' = some value ∧
    AgreeOutside path.segments state state'

/-- A set whose last step does what a put does there. -/
theorem puts_of_setChild {path : JsonPath} {p : List PathSegment} {seg : PathSegment}
    {key : String} {value state x c c' : JsonValue} (hseg : path.segments = p ++ [seg])
    (hx : get? path.segments state = some x) (hkey : path.lastKey = some key)
    (hc : get? p state = some c) (hset : setChild key value c = .ok c')
    (hput : modify? [seg] (fun _ => some value) c = some c') :
    Puts path value state (setAtPath path value state) := by
  have hne : path.segments ≠ [] := by simp [hseg]
  have hdrop : path.segments.dropLast = p := by rw [hseg, List.dropLast_concat]
  obtain ⟨state', hs⟩ := Doc.modify?_of_get? (f := fun _ => some value) hx rfl
  obtain ⟨y, y', -, hy, hget, hag⟩ := Doc.modify?_eq_some hs
  cases hy
  refine ⟨state', ?_, hget, hag⟩
  have hstep : (setChild key value c).toOption = modify? [seg] (fun _ => some value) c := by
    rw [hset, hput]
    rfl
  rw [setAtPath_eq hne hkey, getParentMut, hdrop, eq_ok_iff_toOption, getMutAtPath_toOption,
    Doc.modify?_congr hc hstep, ← Doc.modify?_append, ← hseg, hs]

theorem puts_of_spelled {path : JsonPath} {state x : JsonValue}
    (hx : get? path.segments state = some x) (h : Spelled path) (value : JsonValue) :
    Puts path value state (setAtPath path value state) := by
  rcases parent_cases hx with hnil | ⟨p, k, m, hseg, -, hc, hk⟩ | ⟨p, i, xs, hseg, -, hc, hi⟩
  · refine ⟨value, ?_, ?_, ?_⟩
    · unfold setAtPath
      rw [hnil]
      rfl
    · rw [hnil]
      rfl
    · rw [hnil]
      exact Doc.agreeOutside_nil state value
  · have hmem : k ∈ m.map Prod.fst := List.mem_map_of_mem (f := Prod.fst) (Assoc.mem_of_lookup hk)
    have hinsert : JsonMap.insert m k value = Assoc.replace k value m := if_pos hmem
    have hset : setChild k value (.object m) = .ok (.object (Assoc.replace k value m)) := by
      rw [← hinsert]
      rfl
    refine puts_of_setChild hseg hx (lastKey_of_key hseg) hc hset ?_
    simp only [modify?, hk, Option.bind_eq_bind, Option.bind_some]
  · obtain ⟨key, hkey, hparse⟩ := Option.bind_eq_some_iff.mp (h i (lastSegment_eq hseg))
    have hlt := (List.getElem?_eq_some_iff.mp hi).1
    have hset : setChild key value (.array xs) = .ok (.array (xs.set i value)) := by
      unfold setChild
      simp only [hparse, hlt, if_true]
      rfl
    refine puts_of_setChild hseg hx hkey hc hset ?_
    simp only [modify?, hi, Option.bind_eq_bind, Option.bind_some]

/-- Where the last key spells another index or none, some value is not put at the path. -/
theorem spelled_of_puts {path : JsonPath} {state x value : JsonValue}
    (hx : get? path.segments state = some x) (hne : value ≠ x)
    (h : Puts path value state (setAtPath path value state)) : Spelled path := by
  intro i hlast
  obtain ⟨state', hok, hget, -⟩ := h
  rcases parent_cases hx with hnil | ⟨p, k, m, hseg, -, -, -⟩ | ⟨p, j, xs, hseg, hdrop, hc, hi⟩
  · rw [JsonPath.lastSegment, hnil] at hlast
    cases hlast
  · rw [lastSegment_eq hseg] at hlast
    cases hlast
  · rw [lastSegment_eq hseg] at hlast
    cases hlast
    have hseg0 : path.segments ≠ [] := by simp [hseg]
    cases hkey : path.lastKey with
    | none =>
      obtain ⟨e, he⟩ := setAtPath_eq_error hseg0 hkey value state
      rw [he] at hok
      cases hok
    | some key =>
      rw [setAtPath_eq hseg0 hkey] at hok
      obtain ⟨c, c', hc1, hset, hc', -⟩ := getParentMut_eq_ok hok
      rw [hdrop] at hc1 hc'
      cases hc.symm.trans hc1
      rw [hseg, Doc.get?_append, hc', Option.bind_some] at hget
      rw [Option.bind_some]
      unfold setChild at hset
      cases hparse : parseUsize key with
      | none =>
        simp only [hparse] at hset
        cases hset
      | some n =>
        simp only [hparse] at hset
        split_ifs at hset with hlt
        · cases hset
          by_contra hni
          have hni' : n ≠ i := fun heq => hni (by rw [heq])
          rw [get?, List.getElem?_set_ne hni', hi] at hget
          exact hne (Option.some.inj hget).symm

/-- Every value set at the path, or replaced there, is put there. -/
def PutsEvery (path : JsonPath) (state : JsonValue) : Prop :=
  ∀ (value : JsonValue) (operation : PatchOperation) (priority : Priority),
    operation = .set value ∨ operation = .replace value →
      Puts path value state (applyPatch ⟨path, operation, priority⟩ state)

/-- Where a path leads somewhere, sets and replacements put their value there exactly if the last
step is a key or the index that the last key spells. -/
theorem putsEvery_iff {path : JsonPath} {state x : JsonValue}
    (hx : get? path.segments state = some x) : PutsEvery path state ↔ Spelled path := by
  constructor
  · intro h
    have hne : Doc.array [x] ≠ x := by
      intro heq
      have hnodes := congrArg Doc.nodes heq
      rw [Doc.nodes_array, List.map_singleton, List.sum_singleton] at hnodes
      omega
    exact spelled_of_puts hx hne (h _ (.set (.array [x])) .medium (.inl rfl))
  · intro h value operation priority hop
    rcases hop with rfl | rfl
    · exact puts_of_spelled hx h value
    · exact puts_of_spelled hx h value

/-- `$.a[0]` -/
def firstOfA : JsonPath := ⟨[.key "a", .index 0], by simp [ValidSegment, ValidKey]⟩

/-- An object with one field, an array that holds a null. -/
def nullInA : JsonValue := .object [("a", .array [JsonValue.null])]

theorem putsEvery_iff_firstOfA : PutsEvery firstOfA nullInA ↔ Spelled firstOfA :=
  putsEvery_iff (x := JsonValue.null) rfl

/-- Nothing is set in an array whose name is no number. -/
theorem not_putsEvery_firstOfA :
    ¬ ∀ (path : JsonPath) (state x : JsonValue),
      get? path.segments state = some x → PutsEvery path state := by
  intro h
  have hputs := h firstOfA nullInA .null rfl (.bool true) (.set (.bool true)) .medium (.inl rfl)
  have herr : applyPatch ⟨firstOfA, .set (.bool true), .medium⟩ nullInA =
      .error (.other "Invalid array index") := by rfl
  obtain ⟨state', hok, -, -⟩ := hputs
  rw [herr] at hok
  cases hok

end Sets

section Removals

/-- What `remove_at_path` does to the parent. -/
def removeChild (targetKey : String) : JsonValue → Except Error JsonValue
  | .object map => return .object (map.filter fun e => e.1 ≠ targetKey)
  | .array arr =>
    match parseUsize targetKey with
    | some index => return .array (if index < arr.length then arr.eraseIdx index else arr)
    | none => return .array arr
  | .scalar _ => throw (.other "Cannot remove from non-object/array")

theorem removeAtPath_eq {path : JsonPath} {key : String} (hkey : path.lastKey = some key)
    (state : JsonValue) :
    removeAtPath path state = getParentMut path (removeChild key) state := by
  unfold removeAtPath
  rw [hkey]
  rfl

theorem removeAtPath_eq_error {path : JsonPath} (hkey : path.lastKey = none) (state : JsonValue) :
    ∃ e, removeAtPath path state = .error e := by
  unfold removeAtPath
  rw [hkey]
  exact ⟨_, rfl⟩

/-- A removal at the path fails or removes what is there and nothing else. -/
def RemovesExactly (path : JsonPath) (state : JsonValue) : Prop :=
  ∀ (priority : Priority) (state' : JsonValue),
    applyPatch ⟨path, .remove, priority⟩ state = .ok state' → Removed path.segments state state'

/-- If the path ends in an index and has a key, its last key spells an index of the same array, and
from the one to the other all elements are equal. -/
def SpelledLevel (path : JsonPath) (state : JsonValue) : Prop :=
  ∀ i key, path.lastSegment = some (.index i) → path.lastKey = some key →
    ∃ j xs, parseUsize key = some j ∧ get? path.segments.dropLast state = some (.array xs) ∧
      j < xs.length ∧ Level xs i j

theorem removesExactly_of_spelledLevel {path : JsonPath} {state x : JsonValue}
    (hx : get? path.segments state = some x) (h : SpelledLevel path state) :
    RemovesExactly path state := by
  intro priority state' hok
  change removeAtPath path state = .ok state' at hok
  cases hkey : path.lastKey with
  | none =>
    obtain ⟨e, he⟩ := removeAtPath_eq_error hkey state
    rw [he] at hok
    cases hok
  | some key =>
    rw [removeAtPath_eq hkey] at hok
    obtain ⟨c, c', hc, hrem, hc', hag⟩ := getParentMut_eq_ok hok
    rcases parent_cases hx with hnil | ⟨p, k, m, hseg, hdrop, hm, hk⟩ |
      ⟨p, i, xs, hseg, hdrop, hxs, hi⟩
    · rw [JsonPath.lastKey, hnil] at hkey
      cases hkey
    · rw [hdrop] at hc hc' hag
      cases hm.symm.trans hc
      obtain rfl : key = k := Option.some.inj (hkey.symm.trans (lastKey_of_key hseg))
      cases hrem
      have hmem := List.mem_map_of_mem (f := Prod.fst) (Assoc.mem_of_lookup hk)
      exact ⟨p, .key key, _, _, hseg, hm, if_pos hmem, hc', hag⟩
    · rw [hdrop] at hc hc' hag
      cases hxs.symm.trans hc
      obtain ⟨j, ys, hparse, hys, hj, hlevel⟩ := h i key (lastSegment_eq hseg) hkey
      rw [hdrop] at hys
      cases hxs.symm.trans hys
      unfold removeChild at hrem
      simp only [hparse, hj, if_true] at hrem
      cases hrem
      refine ⟨p, .index i, _, _, hseg, hxs, ?_, hc', hag⟩
      rw [← Doc.eraseIdx_eq_iff.mpr hlevel]
      exact if_pos (List.getElem?_eq_some_iff.mp hi).1

theorem spelledLevel_of_removesExactly {path : JsonPath} {state x : JsonValue}
    (hx : get? path.segments state = some x) (h : RemovesExactly path state) :
    SpelledLevel path state := by
  intro i key hlast hkey
  rcases parent_cases hx with hnil | ⟨p, k, m, hseg, -, -, -⟩ | ⟨p, i', xs, hseg, hdrop, hxs, hi⟩
  · rw [JsonPath.lastSegment, hnil] at hlast
    cases hlast
  · rw [lastSegment_eq hseg] at hlast
    cases hlast
  · rw [lastSegment_eq hseg] at hlast
    cases hlast
    have hlt := (List.getElem?_eq_some_iff.mp hi).1
    -- what the removal makes of the array is what the location says
    have hresult : ∀ ys, removeChild key (.array xs) = .ok (.array ys) → ys = xs.eraseIdx i := by
      intro ys hrem
      have hparent : get? path.segments.dropLast state = some (.array xs) := by
        rw [hdrop]
        exact hxs
      obtain ⟨state', hok⟩ := exists_getParentMut hparent hrem
      obtain ⟨c, c', hc, hrem', hc', -⟩ := getParentMut_eq_ok hok
      rw [← removeAtPath_eq hkey] at hok
      obtain ⟨q, s, e, e', hq, he, herase, he', -⟩ := h .medium state' hok
      obtain ⟨rfl, hs⟩ := List.append_inj' (hseg.symm.trans hq) rfl
      cases hs
      rw [hdrop] at hc hc'
      cases hxs.symm.trans hc
      cases hxs.symm.trans he
      cases hc'.symm.trans he'
      cases hrem.symm.trans hrem'
      rw [Doc.eraseStep, if_pos hlt] at herase
      cases herase
      rfl
    have hshort : xs ≠ xs.eraseIdx i := by
      intro heq
      have hlen := congrArg List.length heq
      rw [List.length_eraseIdx_of_lt hlt] at hlen
      omega
    unfold removeChild at hresult
    cases hparse : parseUsize key with
    | none =>
      simp only [hparse] at hresult
      exact absurd (hresult xs rfl) hshort
    | some j =>
      simp only [hparse] at hresult
      by_cases hj : j < xs.length
      · simp only [hj, if_true] at hresult
        exact ⟨j, xs, rfl, by rw [hdrop]; exact hxs, hj,
          Doc.eraseIdx_eq_iff.mp (hresult _ rfl).symm⟩
      · simp only [hj, if_false] at hresult
        exact absurd (hresult xs rfl) hshort

/-- Where a path leads somewhere, a removal that succeeds removes what is there and nothing else
exactly if the path ends in a key, has none, or its last key spells an element that makes no
difference. -/
theorem removesExactly_iff {path : JsonPath} {state x : JsonValue}
    (hx : get? path.segments state = some x) :
    RemovesExactly path state ↔ SpelledLevel path state :=
  ⟨spelledLevel_of_removesExactly hx, removesExactly_of_spelledLevel hx⟩

theorem removesExactly_iff_firstOfA :
    RemovesExactly firstOfA nullInA ↔ SpelledLevel firstOfA nullInA :=
  removesExactly_iff (x := JsonValue.null) rfl

/-- A removal from an array whose name is no number succeeds and removes nothing. -/
theorem not_removesExactly_firstOfA :
    ¬ ∀ (path : JsonPath) (state x : JsonValue),
      path.segments ≠ [] → get? path.segments state = some x → RemovesExactly path state := by
  intro h
  have hsame : applyPatch ⟨firstOfA, .remove, .medium⟩ nullInA = .ok nullInA := by rfl
  obtain ⟨q, s, c, c', hq, hc, herase, hc', -⟩ :=
    h firstOfA nullInA .null (by decide) rfl .medium nullInA hsame
  have hsplit : [Doc.Step.key "a"] ++ [.index 0] = q ++ [s] := hq
  obtain ⟨rfl, hs⟩ := List.append_inj' hsplit rfl
  cases hs
  cases hc.symm.trans hc'
  cases (rfl : get? [.key "a"] nullInA = some (.array [JsonValue.null])).symm.trans hc
  cases herase

end Removals

end PJS.JsonReconstructor
