import PJS.Client.EndToEnd
import PJS.Lib.Locations

/-! Setting a value at a path on the client. The client splits the text of a path at its dots, and
reads at most one index in a piece. A piece with more indices is taken for a key. -/
namespace PJS.Client.JsonReconstructor

open Doc (get? modify? AgreeOutside Sized)
open JsonPath (segmentText)

section Hops

/-- A key and the indices that follow it. -/
structure Hop where
  key : String
  indices : List ℕ

namespace Hop

def segments (h : Hop) : List PathSegment := .key h.key :: h.indices.map .index

/-- The piece of a path's text between two dots. -/
def text (h : Hop) : String :=
  String.ofList (h.key.toList ++ h.indices.flatMap fun i => segmentText (.index i))

/-- The client reads the piece as it was meant. -/
def Plain (h : Hop) : Prop := h.key ∉ unsafeKeys ∧ h.indices.length ≤ 1

end Hop

/-- The path starts with a key, no key is refused, and no two indices follow each other. -/
def Plain (p : List PathSegment) : Prop :=
  ∃ hops : List Hop, hops ≠ [] ∧ (∀ h ∈ hops, h.Plain) ∧ hops.flatMap Hop.segments = p

/-- The path does not start with a key, or one of its keys is refused and no two indices follow each
other. -/
def Refused (p : List PathSegment) : Prop :=
  (∀ k rest, p ≠ .key k :: rest) ∨
    ∃ hops : List Hop, (∀ h ∈ hops, h.indices.length ≤ 1) ∧ (∃ h ∈ hops, h.key ∈ unsafeKeys) ∧
      hops.flatMap Hop.segments = p

/-- What starts with a key is a list of hops. -/
theorem exists_hops (k : String) (p : List PathSegment) :
    ∃ h hops, h.key = k ∧ (h :: hops).flatMap Hop.segments = .key k :: p := by
  induction p generalizing k with
  | nil => exact ⟨⟨k, []⟩, [], rfl, rfl⟩
  | cons s p ih =>
    cases s with
    | key k' =>
      obtain ⟨h, hops, -, hflat⟩ := ih k'
      refine ⟨⟨k, []⟩, h :: hops, rfl, ?_⟩
      rw [List.flatMap_cons, hflat]
      rfl
    | index i =>
      obtain ⟨h, hops, rfl, hflat⟩ := ih k
      refine ⟨⟨h.key, i :: h.indices⟩, hops, rfl, ?_⟩
      rw [List.flatMap_cons, Hop.segments] at hflat ⊢
      simp only [List.map_cons, List.cons_append, List.cons.injEq, true_and] at hflat ⊢
      exact hflat

theorem toList_text (h : Hop) :
    h.text.toList = h.key.toList ++ h.indices.flatMap fun i => segmentText (.index i) :=
  String.toList_ofList

theorem flatMap_segmentText (h : Hop) : h.segments.flatMap segmentText = '.' :: h.text.toList := by
  rw [toList_text, Hop.segments, List.flatMap_cons, List.flatMap_map]
  rfl

theorem isDigit_of_mem_repr {i : ℕ} {c : Char} (hc : c ∈ (Nat.repr i).toList) :
    c.isDigit = true := by
  rw [Nat.toList_repr] at hc
  exact Nat.isDigit_of_mem_toDigits (by decide) (by decide) hc

theorem dot_notMem_text {h : Hop} (hkey : ValidKey h.key) : '.' ∉ h.text.toList := by
  rw [toList_text, List.mem_append, List.mem_flatMap]
  rintro (hmem | ⟨i, -, hmem⟩)
  · exact hkey.2.1 hmem
  · simp only [segmentText, List.cons_append, List.mem_cons, List.mem_append, List.not_mem_nil,
      or_false] at hmem
    rcases hmem with h | h | h
    · cases h
    · exact absurd (isDigit_of_mem_repr h) (by decide)
    · cases h

/-- The client sees the hops of a path that starts with a key. -/
theorem pathSegments_hops {p : JsonPath} {h : Hop} {hops : List Hop}
    (hp : (h :: hops).flatMap Hop.segments = p.segments) (hkeys : ∀ g ∈ h :: hops, ValidKey g.key) :
    ['$', '.'].isPrefixOf p.toString.toList = true ∧
      pathSegments p.toString = (h :: hops).map Hop.text := by
  have htext : p.toString.toList =
      '$' :: '.' :: (h.text.toList ++ (hops.map Hop.text).flatMap fun k => '.' :: k.toList) := by
    rw [p.toList_toString, ← hp, List.flatMap_assoc, List.flatMap_cons, List.flatMap_map,
      flatMap_segmentText]
    simp only [flatMap_segmentText, List.cons_append]
  have hdots : ∀ k ∈ h.text :: hops.map Hop.text, '.' ∉ k.toList := by
    rw [← List.map_cons, List.forall_mem_map]
    exact fun g hg => dot_notMem_text (hkeys g hg)
  refine ⟨by rw [htext]; rfl, ?_⟩
  rw [pathSegments, htext]
  change ((h.text.toList ++ (hops.map Hop.text).flatMap fun k =>
    '.' :: k.toList).splitOn '.').map String.ofList = _
  rw [splitOn_keys hdots, List.map_map]
  exact List.map_id'' (fun k => String.ofList_toList) _

variable (showNumber : Float → String)

theorem span_text {h : Hop} (hkey : ValidKey h.key) :
    h.text.toList.span (fun c => c ≠ '[' && c ≠ ']') =
      (h.key.toList, h.indices.flatMap fun i => segmentText (.index i)) := by
  have hall : ∀ c ∈ h.key.toList, (c ≠ '[' && c ≠ ']') = true := by
    intro c hc
    have hopen : c ≠ '[' := fun he => hkey.2.2.1 (he ▸ hc)
    have hclose : c ≠ ']' := fun he => hkey.2.2.2 (he ▸ hc)
    simp [hopen, hclose]
  have hrest : (h.indices.flatMap fun i => segmentText (.index i)) = [] ∨
      ∃ c tail, (h.indices.flatMap fun i => segmentText (.index i)) = c :: tail ∧
        (c ≠ '[' && c ≠ ']') = false := by
    cases h.indices with
    | nil => exact Or.inl rfl
    | cons i is => exact Or.inr ⟨'[', _, rfl, rfl⟩
  obtain ⟨htake, hdrop⟩ := JsonPath.span_append _ hall hrest
  rw [List.span_eq_takeWhile_dropWhile, toList_text, htake, hdrop]

theorem parseSegment_key {h : Hop} (hkey : ValidKey h.key) (hi : h.indices = []) :
    parseSegment showNumber h.text = (h.key, none) := by
  have htext : h.text = h.key := by
    rw [Hop.text, hi, List.flatMap_nil, List.append_nil, String.ofList_toList]
  unfold parseSegment
  rw [span_text hkey, hi, htext]
  rfl

/-- The digits of an index end at its bracket. -/
theorem span_index (i : ℕ) (rest : List Char) :
    ((Nat.repr i).toList ++ ']' :: rest).span Char.isDigit = ((Nat.repr i).toList, ']' :: rest) := by
  obtain ⟨htake, hdrop⟩ := JsonPath.span_append Char.isDigit
    (fun c hc => isDigit_of_mem_repr hc) (Or.inr ⟨']', rest, rfl, rfl⟩)
  rw [List.span_eq_takeWhile_dropWhile, htake, hdrop]

theorem repr_ne_nil (i : ℕ) : (Nat.repr i).toList ≠ [] := by
  rw [Nat.toList_repr]
  exact Nat.toDigits_ne_nil

theorem parseSegment_index {h : Hop} (hkey : ValidKey h.key) {i : ℕ} (hi : h.indices = [i]) :
    parseSegment showNumber h.text = (h.key, some (showNumber (Float.ofNat i))) := by
  have hne : h.key.toList ≠ [] := fun he => hkey.1 (String.toList_eq_nil_iff.mp he)
  have hrest : (h.indices.flatMap fun i => segmentText (.index i)) =
      '[' :: ((Nat.repr i).toList ++ [']']) := by
    rw [hi, List.flatMap_singleton]
    rfl
  unfold parseSegment
  rw [span_text hkey, hrest]
  simp only [span_index i [], hne, repr_ne_nil i, ne_eq, not_false_eq_true, true_and, if_true,
    String.ofList_toList, Nat.toNat?_repr, Option.map_some]

/-- A piece with more indices is taken for a key. -/
theorem parseSegment_indices {h : Hop} (hkey : ValidKey h.key) {i j : ℕ} {is : List ℕ}
    (hi : h.indices = i :: j :: is) : parseSegment showNumber h.text = (h.text, none) := by
  have hrest : (h.indices.flatMap fun i => segmentText (.index i)) =
      '[' :: ((Nat.repr i).toList ++ ']' :: ('[' :: ((Nat.repr j).toList ++ ']' ::
        is.flatMap fun i => segmentText (.index i)))) := by
    rw [hi, List.flatMap_cons, List.flatMap_cons]
    simp [segmentText]
  unfold parseSegment
  rw [span_text hkey, hrest]
  simp only [span_index, List.cons.injEq, reduceCtorEq, and_false, if_false]

end Hops

section Properties

/-- An index that an array can have, as a property key. -/
theorem arrayIndex?_repr {i : ℕ} (h : i < 2 ^ 32 - 1) :
    JsValue.arrayIndex? (Nat.repr i) = some i := by
  unfold JsValue.arrayIndex?
  rw [Nat.toNat?_repr]
  exact if_pos ⟨rfl, h⟩

theorem repr_ne_length (i : ℕ) : Nat.repr i ≠ "length" := by
  intro h
  have hdigit := @isDigit_of_mem_repr i 'l' (by rw [h]; decide)
  exact absurd hdigit (by decide)

theorem own?_repr {xs : List JsValue} {i : ℕ} {x : JsValue} (hi : i < 2 ^ 32 - 1)
    (hx : xs[i]? = some x) (hhole : x ≠ .scalar .hole) :
    JsValue.own? (.array xs) (Nat.repr i) = some x := by
  simp only [JsValue.own?, if_neg (repr_ne_length i), arrayIndex?_repr hi, Option.bind_eq_bind,
    Option.bind_some, hx, if_neg hhole]

theorem defineProperty_repr {xs : List JsValue} {i : ℕ} (hi : i < 2 ^ 32 - 1)
    (hlt : i < xs.length) (v : JsValue) :
    JsValue.defineProperty v (.array xs) (Nat.repr i) = some (.array (xs.set i v)) := by
  simp only [JsValue.defineProperty, if_neg (repr_ne_length i), arrayIndex?_repr hi, if_pos hlt]

theorem writeBack_repr {xs : List JsValue} {i : ℕ} {x : JsValue} (hi : i < 2 ^ 32 - 1)
    (hx : xs[i]? = some x) (hhole : x ≠ .scalar .hole) (v : JsValue) :
    JsValue.writeBack (.array xs) (Nat.repr i) v = .array (xs.set i v) := by
  have hlt : i < xs.length := (List.getElem?_eq_some_iff.mp hx).1
  simp only [JsValue.writeBack, own?_repr hi hx hhole, Option.isSome_some, if_true,
    defineProperty_repr hi hlt, Option.getD_some]

theorem insert_of_lookup {m : List (String × JsValue)} {k : String} {c : JsValue}
    (hc : m.lookup k = some c) (v : JsValue) : Assoc.insert k v m = Assoc.replace k v m := by
  have hmem : k ∈ m.map Prod.fst := List.mem_map_of_mem (Assoc.mem_of_lookup hc)
  rw [Assoc.insert, if_pos hmem]

theorem writeBack_of_lookup {m : List (String × JsValue)} {k : String} {c : JsValue}
    (hc : m.lookup k = some c) (v : JsValue) :
    JsValue.writeBack (.object m) k v = .object (Assoc.replace k v m) := by
  simp only [JsValue.writeBack, JsValue.own?, hc, Option.isSome_some, if_true,
    JsValue.defineProperty, Option.getD_some, insert_of_lookup hc]

/-- Writing a property leaves the others as they were. -/
theorem lookup_writeBack {m : List (String × JsValue)} {k j : String} (h : k ≠ j) (v : JsValue) :
    ∃ m', JsValue.writeBack (.object m) j v = .object m' ∧ m'.lookup k = m.lookup k := by
  unfold JsValue.writeBack
  split_ifs with hown
  · refine ⟨Assoc.insert j v m, rfl, ?_⟩
    rw [Assoc.lookup_insert, if_neg h]
  · exact ⟨m, rfl, rfl⟩

end Properties

section Walk

variable {showNumber : Float → String} {edit : JsValue → String → JsValue × Bool}
  {segment key : String} {rest : List String} {m : List (String × JsValue)} {child : JsValue}

theorem editAt_unsafeKey {index : Option String} (hparse : parseSegment showNumber segment = (key, index))
    (hkey : key ∈ unsafeKeys) (current : JsValue) :
    editAt showNumber edit (segment :: rest) current = (current, false) := by
  cases rest with
  | nil =>
    rw [editAt, hparse]
    simp only [hkey, if_true]
  | cons next rest =>
    rw [editAt, hparse]
    · simp only [hkey, if_true]
    · simp

theorem editAt_key (hparse : parseSegment showNumber segment = (key, none))
    (hkey : key ∉ unsafeKeys) (current : JsValue) :
    editAt showNumber edit [segment] current = edit current key := by
  rw [editAt, hparse]
  simp only [hkey, if_false]

theorem editAt_key_cons (hparse : parseSegment showNumber segment = (key, none))
    (hkey : key ∉ unsafeKeys) (hrest : rest ≠ []) (hchild : m.lookup key = some child) :
    editAt showNumber edit (segment :: rest) (.object m) =
      (.object (Assoc.replace key (editAt showNumber edit rest child).1 m),
        (editAt showNumber edit rest child).2) := by
  have hown : JsValue.own? (.object m) key = some child := hchild
  rw [editAt, hparse]
  · simp only [hkey, if_false, hown, Option.isSome_some, if_true, Option.getD_some,
      writeBack_of_lookup hchild]
  · exact hrest

theorem editAt_index {index : String} {xs : List JsValue}
    (hparse : parseSegment showNumber segment = (key, some index)) (hkey : key ∉ unsafeKeys)
    (hchild : m.lookup key = some (.array xs)) :
    editAt showNumber edit [segment] (.object m) =
      (.object (Assoc.replace key (edit (.array xs) index).1 m), (edit (.array xs) index).2) := by
  have hown : JsValue.own? (.object m) key = some (.array xs) := hchild
  rw [editAt, hparse]
  simp only [hkey, if_false, hown, Option.getD_some, writeBack_of_lookup hchild]

theorem editAt_index_cons {index : String}
    (hparse : parseSegment showNumber segment = (key, some index)) (hkey : key ∉ unsafeKeys)
    (hrest : rest ≠ []) {element : JsValue} (hchild : m.lookup key = some child)
    (hown : child.own? index = some element) :
    editAt showNumber edit (segment :: rest) (.object m) =
      (.object (Assoc.replace key
        (child.writeBack index (editAt showNumber edit rest element).1) m),
        (editAt showNumber edit rest element).2) := by
  have hobject : JsValue.own? (.object m) key = some child := hchild
  rw [editAt, hparse]
  · simp only [hkey, if_false, hobject, hown, Option.getD_some, writeBack_of_lookup hchild]
  · exact hrest

/-- A walk through another key, whatever it finds there, leaves a field as it was. -/
theorem lookup_editAt_key {k : String} (hparse : parseSegment showNumber segment = (key, none))
    (hk : k ≠ key) (v : JsValue) :
    ∃ m', (editAt showNumber (assign v) (segment :: rest) (.object m)).1 = .object m' ∧
      m'.lookup k = m.lookup k := by
  by_cases hkey : key ∈ unsafeKeys
  · exact ⟨m, by rw [editAt_unsafeKey hparse hkey], rfl⟩
  · cases rest with
    | nil =>
      rw [editAt_key hparse hkey]
      refine ⟨Assoc.insert key v m, rfl, ?_⟩
      rw [Assoc.lookup_insert, if_neg hk]
    | cons next rest =>
      rw [editAt, hparse]
      · simp only [hkey, if_false]
        by_cases hown : (JsValue.own? (.object m) key).isSome = true
        · simp only [hown, if_true]
          exact lookup_writeBack hk _
        · have hdefine : JsValue.defineProperty (.object []) (.object m) key =
              some (.object (Assoc.insert key (.object []) m)) := rfl
          simp only [hown, hdefine]
          obtain ⟨m', hm', hlookup⟩ := @lookup_writeBack (Assoc.insert key (.object []) m) k key hk
            (editAt showNumber (assign v) (next :: rest)
              ((JsValue.own? (.object (Assoc.insert key (.object []) m)) key).getD (.object []))).1
          refine ⟨m', hm', ?_⟩
          rw [hlookup, Assoc.lookup_insert, if_neg hk]
      · simp

end Walk

section Put

/-- The most elements that an array can have. -/
def maxArrayLength : ℕ := 2 ^ 32 - 1

theorem sized_of_lookup {m : List (String × JsValue)} {k : String} {c : JsValue}
    (h : Sized maxArrayLength (.object m)) (hc : m.lookup k = some c) :
    Sized maxArrayLength c := by
  cases h with
  | object h => exact h k c (Assoc.mem_of_lookup hc)

theorem sized_of_getElem? {xs : List JsValue} {i : ℕ} {x : JsValue}
    (h : Sized maxArrayLength (.array xs)) (hx : xs[i]? = some x) :
    Sized maxArrayLength x ∧ i < 2 ^ 32 - 1 := by
  cases h with
  | array hlen h =>
    have hlt := (List.getElem?_eq_some_iff.mp hx).1
    exact ⟨h x (List.mem_of_getElem? hx), lt_of_lt_of_le hlt hlen⟩

/-- A path of hops leads on from objects only. -/
theorem get?_hops_hole {h : Hop} {hops : List Hop} {c x : JsValue}
    (hget : get? ((h :: hops).flatMap Hop.segments) x = some c) : x ≠ .scalar .hole := by
  rintro rfl
  cases hget

variable {showNumber : Float → String} {hops : List Hop}

/-- What the client needs to read the text of the hops. -/
structure Readable (showNumber : Float → String) (hops : List Hop) : Prop where
  key : ∀ h ∈ hops, ValidKey h.key
  index : ∀ h ∈ hops, ∀ i ∈ h.indices, showNumber (Float.ofNat i) = Nat.repr i

theorem Readable.tail {h : Hop} (hr : Readable showNumber (h :: hops)) :
    Readable showNumber hops :=
  ⟨fun g hg => hr.key g (List.mem_cons_of_mem h hg),
    fun g hg => hr.index g (List.mem_cons_of_mem h hg)⟩

theorem flatMap_key {h : Hop} (hi : h.indices = []) :
    (h :: hops).flatMap Hop.segments = .key h.key :: hops.flatMap Hop.segments := by
  rw [List.flatMap_cons, Hop.segments, hi]
  rfl

theorem flatMap_index {h : Hop} {i : ℕ} (hi : h.indices = [i]) :
    (h :: hops).flatMap Hop.segments = .key h.key :: .index i :: hops.flatMap Hop.segments := by
  rw [List.flatMap_cons, Hop.segments, hi]
  rfl

/-- What a plain hop leads to, and how the value there is written back. -/
structure HopStep (showNumber : Float → String) (h : Hop) (hops : List Hop) (s x : JsValue)
    (rebuild : JsValue → JsValue) : Prop where
  back : rebuild x = s
  get : ∀ y, get? ((h :: hops).flatMap Hop.segments) (rebuild y) = get? (hops.flatMap Hop.segments) y
  modify : ∀ f, modify? ((h :: hops).flatMap Hop.segments) f s =
    (modify? (hops.flatMap Hop.segments) f x).map rebuild
  walk : ∀ edit, editAt showNumber edit ((h :: hops).map Hop.text) s =
    (rebuild (editAt showNumber edit (hops.map Hop.text) x).1,
      (editAt showNumber edit (hops.map Hop.text) x).2)

theorem exists_hopStep {h : Hop} (hr : Readable showNumber (h :: hops)) (hplain : h.Plain)
    (hne : hops ≠ []) {s c : JsValue} (hsized : Sized maxArrayLength s)
    (hget : get? ((h :: hops).flatMap Hop.segments) s = some c) :
    ∃ x rebuild, Sized maxArrayLength x ∧ get? (hops.flatMap Hop.segments) x = some c ∧
      HopStep showNumber h hops s x rebuild := by
  obtain ⟨hsafe, hlen⟩ := hplain
  have hkey := hr.key h List.mem_cons_self
  have hrest : hops.map Hop.text ≠ [] := by simpa using hne
  rcases hi : h.indices with _ | ⟨i, _ | ⟨j, is⟩⟩
  · have hparse := parseSegment_key showNumber hkey hi
    rw [flatMap_key hi] at hget
    rcases s with a | xs | m <;> try cases hget
    obtain ⟨x, hx, hget⟩ := Option.bind_eq_some_iff.mp hget
    refine ⟨x, fun y => .object (Assoc.replace h.key y m), sized_of_lookup hsized hx, hget,
      ?_, fun y => ?_, fun f => ?_, fun edit => ?_⟩
    · exact congrArg Doc.object (Assoc.replace_of_lookup hx)
    · rw [flatMap_key hi, get?, Assoc.lookup_replace, if_pos rfl, hx]
      rfl
    · rw [flatMap_key hi, modify?, hx, Option.bind_eq_bind, Option.bind_some]
      cases modify? (hops.flatMap Hop.segments) f x <;> rfl
    · rw [List.map_cons, editAt_key_cons hparse hsafe hrest hx]
  · have hparse := parseSegment_index showNumber hkey hi
    rw [hr.index h List.mem_cons_self i (by rw [hi]; exact List.mem_cons_self)] at hparse
    rw [flatMap_index hi] at hget
    rcases s with a | xs | m <;> try cases hget
    obtain ⟨e, he, hget⟩ := Option.bind_eq_some_iff.mp hget
    rcases e with a | xs | m' <;> try cases hget
    obtain ⟨x, hx, hget⟩ := Option.bind_eq_some_iff.mp hget
    obtain ⟨hsizedx, hlt⟩ := sized_of_getElem? (sized_of_lookup hsized he) hx
    obtain ⟨g, gs, rfl⟩ := List.exists_cons_of_ne_nil hne
    have hhole := get?_hops_hole hget
    have hilt := (List.getElem?_eq_some_iff.mp hx).1
    refine ⟨x, fun y => .object (Assoc.replace h.key (.array (xs.set i y)) m), hsizedx, hget,
      ?_, fun y => ?_, fun f => ?_, fun edit => ?_⟩
    · obtain ⟨_, rfl⟩ := List.getElem?_eq_some_iff.mp hx
      simp only [List.set_getElem_self, Assoc.replace_of_lookup he]
    · rw [flatMap_index hi, get?, Assoc.lookup_replace, if_pos rfl, he, Option.map_some,
        Option.bind_some, get?, List.getElem?_set_self hilt, Option.bind_some]
    · rw [flatMap_index hi, modify?, he, Option.bind_eq_bind, Option.bind_some, modify?, hx,
        Option.bind_eq_bind, Option.bind_some]
      cases modify? ((g :: gs).flatMap Hop.segments) f x <;> rfl
    · rw [List.map_cons, editAt_index_cons hparse hsafe hrest he (own?_repr hlt hx hhole),
        writeBack_repr hlt hx hhole]
  · rw [hi, List.length_cons, List.length_cons] at hlen
    omega

/-- Along plain hops the client sets the value that the path addresses. -/
theorem editAt_plain (hne : hops ≠ []) (hr : Readable showNumber hops)
    (hplain : ∀ h ∈ hops, h.Plain) {v c s : JsValue} (hsized : Sized maxArrayLength s)
    (hget : get? (hops.flatMap Hop.segments) s = some c) :
    ∃ s', modify? (hops.flatMap Hop.segments) (fun _ => some v) s = some s' ∧
      editAt showNumber (assign v) (hops.map Hop.text) s = (s', true) := by
  induction hops generalizing s with
  | nil => exact absurd rfl hne
  | cons h hops ih =>
    obtain ⟨hh, hplain⟩ := List.forall_mem_cons.mp hplain
    by_cases hlast : hops = []
    · subst hlast
      obtain ⟨hsafe, hlen⟩ := hh
      have hkey := hr.key h List.mem_cons_self
      rcases hi : h.indices with _ | ⟨i, _ | ⟨j, is⟩⟩
      · have hparse := parseSegment_key showNumber hkey hi
        rw [flatMap_key hi] at hget ⊢
        rcases s with a | xs | m <;> try cases hget
        obtain ⟨e, he, -⟩ := Option.bind_eq_some_iff.mp hget
        refine ⟨.object (Assoc.replace h.key v m), by simp [modify?, he], ?_⟩
        rw [List.map_cons, List.map_nil, editAt_key hparse hsafe, assign, JsValue.defineProperty]
        simp only [insert_of_lookup he]
      · have hparse := parseSegment_index showNumber hkey hi
        rw [hr.index h List.mem_cons_self i (by rw [hi]; exact List.mem_cons_self)] at hparse
        rw [flatMap_index hi] at hget ⊢
        rcases s with a | xs | m <;> try cases hget
        obtain ⟨e, he, hget⟩ := Option.bind_eq_some_iff.mp hget
        rcases e with a | xs | m' <;> try cases hget
        obtain ⟨x, hx, -⟩ := Option.bind_eq_some_iff.mp hget
        obtain ⟨-, hlt⟩ := sized_of_getElem? (sized_of_lookup hsized he) hx
        refine ⟨.object (Assoc.replace h.key (.array (xs.set i v)) m),
          by simp [modify?, he, hx], ?_⟩
        rw [List.map_cons, List.map_nil, editAt_index hparse hsafe he, assign,
          defineProperty_repr hlt (List.getElem?_eq_some_iff.mp hx).1]
      · rw [hi, List.length_cons, List.length_cons] at hlen
        omega
    · obtain ⟨x, rebuild, hsizedx, hgetx, hstep⟩ := exists_hopStep hr hh hlast hsized hget
      obtain ⟨x', hmodify, hedit⟩ := ih hlast hr.tail hplain hsizedx hgetx
      refine ⟨rebuild x', ?_, ?_⟩
      · rw [hstep.modify, hmodify, Option.map_some]
      · rw [hstep.walk, hedit]

/-- A hop with at most one index is read with its own key. -/
theorem exists_parseSegment {h : Hop} (hkey : ValidKey h.key) (hlen : h.indices.length ≤ 1) :
    ∃ index, parseSegment showNumber h.text = (h.key, index) := by
  rcases hi : h.indices with _ | ⟨i, _ | ⟨j, is⟩⟩
  · exact ⟨_, parseSegment_key showNumber hkey hi⟩
  · exact ⟨_, parseSegment_index showNumber hkey hi⟩
  · rw [hi, List.length_cons, List.length_cons] at hlen
    omega

/-- A key that is refused stops the walk before anything is changed. -/
theorem editAt_refused (hr : Readable showNumber hops) (hsingle : ∀ h ∈ hops, h.indices.length ≤ 1)
    (hbad : ∃ h ∈ hops, h.key ∈ unsafeKeys) {v c s : JsValue} (hsized : Sized maxArrayLength s)
    (hget : get? (hops.flatMap Hop.segments) s = some c) :
    editAt showNumber (assign v) (hops.map Hop.text) s = (s, false) := by
  induction hops generalizing s with
  | nil =>
    obtain ⟨h, hmem, -⟩ := hbad
    cases hmem
  | cons h hops ih =>
    obtain ⟨hlen, hsingle⟩ := List.forall_mem_cons.mp hsingle
    by_cases hsafe : h.key ∈ unsafeKeys
    · obtain ⟨index, hparse⟩ :=
        @exists_parseSegment showNumber h (hr.key h List.mem_cons_self) hlen
      exact editAt_unsafeKey hparse hsafe s
    · obtain ⟨g, hg, hgbad⟩ := hbad
      have hg' : g ∈ hops := (List.mem_cons.mp hg).resolve_left fun heq => hsafe (heq ▸ hgbad)
      obtain ⟨x, rebuild, hsizedx, hgetx, hstep⟩ :=
        exists_hopStep hr ⟨hsafe, hlen⟩ (List.ne_nil_of_mem hg') hsized hget
      rw [hstep.walk, ih hr.tail hsingle ⟨g, hg', hgbad⟩ hsizedx hgetx, hstep.back]

/-- Along any other hops the client throws, or leaves what the path addresses as it was. -/
theorem editAt_not_plain (hr : Readable showNumber hops) (hbad : ∃ h ∈ hops, ¬h.Plain)
    {v c s : JsValue} (hsized : Sized maxArrayLength s)
    (hget : get? (hops.flatMap Hop.segments) s = some c) :
    (editAt showNumber (assign v) (hops.map Hop.text) s).2 = false ∨
      get? (hops.flatMap Hop.segments)
        (editAt showNumber (assign v) (hops.map Hop.text) s).1 = some c := by
  induction hops generalizing s with
  | nil =>
    obtain ⟨h, hmem, -⟩ := hbad
    cases hmem
  | cons h hops ih =>
    have hkey := hr.key h List.mem_cons_self
    by_cases hplain : h.Plain
    · obtain ⟨g, hg, hgbad⟩ := hbad
      have hg' : g ∈ hops := (List.mem_cons.mp hg).resolve_left fun heq => hgbad (heq ▸ hplain)
      obtain ⟨x, rebuild, hsizedx, hgetx, hstep⟩ :=
        exists_hopStep hr hplain (List.ne_nil_of_mem hg') hsized hget
      rw [hstep.walk, hstep.get]
      exact ih hr.tail ⟨g, hg', hgbad⟩ hsizedx hgetx
    · by_cases hlen : h.indices.length ≤ 1
      · have hsafe : h.key ∈ unsafeKeys := by
          by_contra hsafe
          exact hplain ⟨hsafe, hlen⟩
        obtain ⟨index, hparse⟩ := @exists_parseSegment showNumber h hkey hlen
        exact Or.inl (by rw [List.map_cons, editAt_unsafeKey hparse hsafe])
      · -- more indices, taken for a key of their own
        obtain ⟨i, j, is, hi⟩ : ∃ i j is, h.indices = i :: j :: is := by
          rcases hi : h.indices with _ | ⟨i, _ | ⟨j, is⟩⟩
          · exact absurd (by rw [hi]; exact Nat.zero_le 1) hlen
          · exact absurd (by rw [hi]; exact le_rfl) hlen
          · exact ⟨i, j, is, rfl⟩
        have hparse := parseSegment_indices showNumber hkey hi
        have hne : h.key ≠ h.text := by
          intro heq
          have hmem : '[' ∈ h.key.toList := by
            rw [heq, toList_text, hi, List.flatMap_cons]
            simp [segmentText]
          exact hkey.2.2.1 hmem
        have hflat : (h :: hops).flatMap Hop.segments =
            .key h.key :: (h.indices.map .index ++ hops.flatMap Hop.segments) := by
          rw [List.flatMap_cons, Hop.segments, List.cons_append]
        rw [hflat] at hget ⊢
        rcases s with a | xs | m <;> try cases hget
        obtain ⟨m', hm', hlookup⟩ :=
          @lookup_editAt_key showNumber h.text h.text (hops.map Hop.text) m h.key hparse hne v
        rw [List.map_cons, hm', get?, hlookup]
        exact Or.inr hget

end Put

section Set

variable (showNumber : Float → String)

/-- A patch frame with one patch, that sets a value at a path. -/
def setFrame (p : JsonPath) (v : JsValue) : JsValue :=
  .object [("payload", .object [("patches", .array [.object
    [("path", .scalar (.string p.toString)), ("operation", .scalar (.string "set")),
      ("value", v)]])])]

/-- The patch is applied, the path holds the value afterwards, and everything else is as it was. -/
structure PutsAt (reconstructor : JsonReconstructor) (p : JsonPath) (v : JsValue) : Prop where
  applied : (applyPatch showNumber reconstructor (setFrame p v)).1.appliedPatches = 1
  skipped : (applyPatch showNumber reconstructor (setFrame p v)).1.skippedPatches = 0
  holds : get? p.segments (applyPatch showNumber reconstructor (setFrame p v)).2.state = some v
  agree : AgreeOutside p.segments reconstructor.state
    (applyPatch showNumber reconstructor (setFrame p v)).2.state

/-- What a frame with one patch that sets a value comes to. -/
theorem applyPatch_setFrame {reconstructor : JsonReconstructor}
    (hinit : reconstructor.initialized = true) (p : JsonPath) (v : JsValue) :
    let r := if ['$', '.'].isPrefixOf p.toString.toList then
      editAt showNumber (assign v) (pathSegments p.toString) reconstructor.state
      else (reconstructor.state, false)
    (applyPatch showNumber reconstructor (setFrame p v)).2.state = r.1 ∧
      (applyPatch showNumber reconstructor (setFrame p v)).1.appliedPatches = r.2.toNat ∧
      (applyPatch showNumber reconstructor (setFrame p v)).1.skippedPatches = (!r.2).toNat := by
  intro r
  have hone : applyOne showNumber reconstructor.state (.object
      [("path", .scalar (.string p.toString)), ("operation", .scalar (.string "set")),
        ("value", v)]) = r := by
    rw [applyOne]
    simp only [JsValue.property_object, List.lookup, Option.getD_some, beq_self_eq_true,
      show ("operation" == "path") = false from rfl, show ("value" == "path") = false from rfl,
      show ("value" == "operation") = false from rfl, setPatchValue]
    rfl
  have hall : applyAll showNumber [.object
      [("path", .scalar (.string p.toString)), ("operation", .scalar (.string "set")),
        ("value", v)]] reconstructor.state = (r.1, r.2.toNat, (!r.2).toNat) := by
    simp only [applyAll, hone]
    cases r.2 <;> rfl
  have happly : applyPatch showNumber reconstructor (setFrame p v) =
      (⟨r.2.toNat > 0 || (!r.2).toNat == 0, r.2.toNat, (!r.2).toNat, 1, none⟩,
        { reconstructor with
          state := r.1
          patchesApplied := reconstructor.patchesApplied + r.2.toNat }) := by
    unfold applyPatch
    simp only [setFrame, JsValue.property_object, List.lookup, Option.getD_some, beq_self_eq_true,
      hinit, Bool.not_true, Bool.false_eq_true, if_false, hall]
    rfl
  rw [happly]
  exact ⟨rfl, rfl, rfl⟩

/-- A value other than the given one. -/
theorem exists_ne (c : JsValue) : ∃ v : JsValue, v ≠ c := by
  by_cases hc : c = .scalar .null
  · exact ⟨.scalar (.bool true), by rw [hc]; nofun⟩
  · exact ⟨.scalar .null, fun h => hc h.symm⟩

section Location

variable {reconstructor : JsonReconstructor} {p : JsonPath}
  (hinit : reconstructor.initialized = true) (hsized : Sized maxArrayLength reconstructor.state)
  (hshow : ∀ i, .index i ∈ p.segments → showNumber (Float.ofNat i) = Nat.repr i)

include hshow in
theorem readable_of_flatMap {hops : List Hop} (hflat : hops.flatMap Hop.segments = p.segments) :
    Readable showNumber hops := by
  have hmem : ∀ h ∈ hops, ∀ s ∈ h.segments, s ∈ p.segments := fun h hh s hs => by
    rw [← hflat]
    exact List.mem_flatMap.mpr ⟨h, hh, hs⟩
  refine ⟨fun h hh => p.valid _ (hmem h hh _ List.mem_cons_self), fun h hh i hi => ?_⟩
  exact hshow i (hmem h hh _ (List.mem_cons_of_mem _ (List.mem_map_of_mem hi)))

include hinit in
/-- A path that does not start with a key is passed over. -/
theorem skipped_of_no_key (h : ∀ k rest, p.segments ≠ .key k :: rest) (v : JsValue) :
    (applyPatch showNumber reconstructor (setFrame p v)).2.state = reconstructor.state ∧
      (applyPatch showNumber reconstructor (setFrame p v)).1.appliedPatches = 0 ∧
      (applyPatch showNumber reconstructor (setFrame p v)).1.skippedPatches = 1 := by
  have hfirst : ['$', '.'].isPrefixOf p.toString.toList = false := by
    rw [p.toList_toString]
    cases hsegments : p.segments with
    | nil => rfl
    | cons s rest =>
      cases s with
      | key k => exact absurd hsegments (h k rest)
      | index i => rfl
  have happly := applyPatch_setFrame showNumber hinit p v
  rw [hfirst] at happly
  exact happly

include hinit hsized hshow in
theorem putsAt_of_plain {c : JsValue} (hget : get? p.segments reconstructor.state = some c)
    (hplain : Plain p.segments) (v : JsValue) : PutsAt showNumber reconstructor p v := by
  obtain ⟨hops, hne, hplain, hflat⟩ := hplain
  obtain ⟨h, hops, rfl⟩ := List.exists_cons_of_ne_nil hne
  have hreadable := readable_of_flatMap showNumber hshow hflat
  obtain ⟨hstart, hpieces⟩ := pathSegments_hops hflat hreadable.key
  obtain ⟨hstate, happlied, hskipped⟩ := applyPatch_setFrame showNumber hinit p v
  rw [← hflat] at hget
  obtain ⟨s', hmodify, hedit⟩ := editAt_plain hne hreadable hplain hsized hget
  rw [hstart, if_pos rfl, hpieces, hedit] at hstate happlied hskipped
  obtain ⟨_, c', -, hc', hnew, hagree⟩ := Doc.modify?_eq_some hmodify
  cases hc'
  rw [hflat] at hnew hagree
  exact ⟨happlied, hskipped, by rw [hstate, hnew], by rw [hstate]; exact hagree⟩

include hinit hsized hshow in
theorem skipped_of_refused {c : JsValue} (hget : get? p.segments reconstructor.state = some c)
    (hrefused : Refused p.segments) (v : JsValue) :
    (applyPatch showNumber reconstructor (setFrame p v)).2.state = reconstructor.state ∧
      (applyPatch showNumber reconstructor (setFrame p v)).1.appliedPatches = 0 ∧
      (applyPatch showNumber reconstructor (setFrame p v)).1.skippedPatches = 1 := by
  rcases hrefused with hfirst | ⟨hops, hsingle, hbad, hflat⟩
  · exact skipped_of_no_key showNumber hinit hfirst v
  · have hreadable := readable_of_flatMap showNumber hshow hflat
    cases hops with
    | nil =>
      obtain ⟨h, hmem, -⟩ := hbad
      cases hmem
    | cons h hops =>
      obtain ⟨hstart, hpieces⟩ := pathSegments_hops hflat hreadable.key
      have happly := applyPatch_setFrame showNumber hinit p v
      rw [← hflat] at hget
      rw [hstart, if_pos rfl, hpieces, editAt_refused hreadable hsingle hbad hsized hget] at happly
      exact happly

include hinit hsized hshow in
/-- Where the client puts every value, the path is plain. -/
theorem plain_of_putsAt {c : JsValue} (hget : get? p.segments reconstructor.state = some c)
    (hputs : ∀ v, PutsAt showNumber reconstructor p v) : Plain p.segments := by
  obtain ⟨v, hv⟩ := exists_ne c
  have happlied := (hputs v).applied
  have hnew := (hputs v).holds
  by_cases hfirst : ∃ k rest, p.segments = .key k :: rest
  · obtain ⟨k, rest, hsegments⟩ := hfirst
    obtain ⟨h, hops, -, hflat⟩ := exists_hops k rest
    rw [← hsegments] at hflat
    have hreadable := readable_of_flatMap showNumber hshow hflat
    obtain ⟨hstart, hpieces⟩ := pathSegments_hops hflat hreadable.key
    obtain ⟨hstate, hcount, -⟩ := applyPatch_setFrame showNumber hinit p v
    rw [hcount, hstart, if_pos rfl, hpieces] at happlied
    rw [hstate, hstart, if_pos rfl, hpieces, ← hflat] at hnew
    refine ⟨h :: hops, List.cons_ne_nil h hops, ?_, hflat⟩
    by_contra hbad
    push Not at hbad
    rw [← hflat] at hget
    rcases editAt_not_plain hreadable hbad hsized hget with hfail | hold
    · rw [hfail] at happlied
      cases happlied
    · rw [hold] at hnew
      exact hv (Option.some.inj hnew).symm
  · push Not at hfirst
    rw [(skipped_of_no_key showNumber hinit hfirst v).2.1] at happlied
    cases happlied

include hinit hsized hshow in
/-- A value set at an existing location is put there, and changes nothing else, where the path is
plain; where it is refused the patch is skipped and changes nothing at all. -/
theorem applyPatch_set (hexists : (get? p.segments reconstructor.state).isSome = true) :
    (Plain p.segments → ∀ v, PutsAt showNumber reconstructor p v) ∧
      (Refused p.segments → ∀ v,
        (applyPatch showNumber reconstructor (setFrame p v)).2.state = reconstructor.state ∧
        (applyPatch showNumber reconstructor (setFrame p v)).1.appliedPatches = 0 ∧
        (applyPatch showNumber reconstructor (setFrame p v)).1.skippedPatches = 1) := by
  obtain ⟨c, hget⟩ := Option.isSome_iff_exists.mp hexists
  exact ⟨putsAt_of_plain showNumber hinit hsized hshow hget,
    skipped_of_refused showNumber hinit hsized hshow hget⟩

end Location

/-- The client after the skeleton of a document with one field. -/
def afterSkeleton (value : JsValue) : JsonReconstructor :=
  (processSkeleton .new (.object [("payload", .object [("a", value)])])).2

theorem sized_field {value : JsValue} (h : Sized maxArrayLength value) :
    Sized maxArrayLength (.object [("a", value)] : JsValue) :=
  .object fun k v hkv => by
    cases List.mem_singleton.mp hkv
    exact h

theorem sized_singleton {value : JsValue} (h : Sized maxArrayLength value) :
    Sized maxArrayLength (.array [value] : JsValue) :=
  .array (show 1 ≤ maxArrayLength by decide) (List.forall_mem_singleton.mpr h)

/-- The path `$.a[0]`. -/
def firstElement : JsonPath :=
  ⟨[.key "a", .index 0], List.forall_mem_cons.mpr ⟨show ValidKey "a" by decide,
    List.forall_mem_singleton.mpr (show 0 < 2 ^ 64 by decide)⟩⟩

/-- The path `$.a[0][0]`. -/
def firstOfFirst : JsonPath :=
  ⟨[.key "a", .index 0, .index 0], List.forall_mem_cons.mpr ⟨show ValidKey "a" by decide,
    List.forall_mem_cons.mpr ⟨show 0 < 2 ^ 64 by decide,
      List.forall_mem_singleton.mpr (show 0 < 2 ^ 64 by decide)⟩⟩⟩

theorem applyPatch_set_firstElement : PutsAt (fun _ => "0")
    (afterSkeleton (.array [.scalar (.string "x")])) firstElement (.scalar (.string "y")) :=
  (applyPatch_set (fun _ => "0") rfl (sized_field (sized_singleton (.scalar _)))
    (fun i hi => by
      obtain rfl : i = 0 := by simpa [firstElement] using hi
      rfl) rfl).1
    ⟨[⟨"a", [0]⟩], by decide, List.forall_mem_singleton.mpr ⟨by decide, by decide⟩, rfl⟩ _

-- two indices in a row are taken for a key, and the location keeps its value
example : get? firstOfFirst.segments (applyPatch (fun _ => "0")
    (afterSkeleton (.array [.array [.scalar (.string "x")]]))
    (setFrame firstOfFirst (.scalar (.string "y")))).2.state =
      some (.scalar (.string "x")) := by decide +kernel

/-- A value for the root is passed over. -/
theorem root_skipped :
    ¬∀ (showNumber : Float → String) (reconstructor : JsonReconstructor) (p : JsonPath)
      (v : JsValue), reconstructor.initialized = true → Sized maxArrayLength reconstructor.state →
      (get? p.segments reconstructor.state).isSome = true →
      (∀ i, .index i ∈ p.segments → showNumber (Float.ofNat i) = Nat.repr i) →
      PutsAt showNumber reconstructor p v := by
  intro h
  have hputs := h (fun _ => "0") (afterSkeleton (.scalar .null)) .root (.scalar .null) rfl
    (sized_field (.scalar _)) rfl nofun
  exact absurd hputs.holds (by decide +kernel)

end Set

end PJS.Client.JsonReconstructor
