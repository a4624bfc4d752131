import PJS.Domain.PathText

/-! The texts that the parser of paths reads. An index is read with a sign, with leading zeros and
without the last closing bracket too, so a path has spellings besides its textual form. -/
namespace PJS

section Digits

theorem digit_bounds {c : Char} (h : c.isDigit = true) : 48 ≤ c.toNat ∧ c.toNat ≤ 57 := by
  rw [Char.isDigit, Bool.and_eq_true, decide_eq_true_eq, decide_eq_true_eq] at h
  exact h

theorem digitChar_toNat {c : Char} (h : c.isDigit = true) :
    Nat.digitChar (c.toNat - '0'.toNat) = c := by
  obtain ⟨hlow, hhigh⟩ := digit_bounds h
  have hzero : '0'.toNat = 48 := rfl
  apply Char.toNat_inj.mp
  rw [Nat.toNat_digitChar_of_lt_ten (by omega)]
  omega

/-- Digits after a number that is not zero are the last digits of its decimal form. -/
theorem toDigits_ofDigitChars_append {digits : List Char} (h : ∀ c ∈ digits, c.isDigit = true)
    {n : ℕ} (hn : 0 < n) :
    Nat.toDigits 10 (Nat.ofDigitChars 10 digits n) = Nat.toDigits 10 n ++ digits := by
  induction digits generalizing n with
  | nil => simp
  | cons c digits ih =>
    rw [List.forall_mem_cons] at h
    obtain ⟨hc, hdigits⟩ := h
    have hzero : '0'.toNat = 48 := rfl
    have hlt : c.toNat - '0'.toNat < 10 := by
      have hbounds := digit_bounds hc
      omega
    rw [Nat.ofDigitChars_cons, ih hdigits (by omega),
      ← Nat.toDigits_append_toDigits (by decide) hn hlt, Nat.toDigits_of_lt_base hlt,
      digitChar_toNat hc, List.append_assoc]
    rfl

theorem head?_toDigits {n : ℕ} (h : 0 < n) : (Nat.toDigits 10 n).head? ≠ some '0' := by
  induction n using Nat.strong_induction_on with
  | _ n ih =>
    rw [Nat.toDigits_eq_if (by decide)]
    split_ifs with hlt
    · rw [List.head?_cons]
      intro hc
      have hzero := Nat.digitChar_eq_zero.mp (Option.some.inj hc)
      omega
    · rw [List.head?_append_of_ne_nil _ Nat.toDigits_ne_nil]
      exact ih (n / 10) (by omega) (by omega)

/-- An index text with a sign or with leading zeros. -/
def Respelled (digits : List Char) : Prop :=
  digits.head? = some '+' ∨ digits.head? = some '0' ∧ 1 < digits.length

instance (digits : List Char) : Decidable (Respelled digits) := inferInstanceAs (Decidable (_ ∨ _))

theorem parseUsize_cases {digits : List Char} {i : ℕ}
    (h : parseUsize (String.ofList digits) = some i) :
    i < 2 ^ 64 ∧ ∃ tail, (digits = '+' :: tail ∨ digits.head? ≠ some '+' ∧ digits = tail) ∧
      tail ≠ [] ∧ (∀ c ∈ tail, c.isDigit = true) ∧ i = Nat.ofDigitChars 10 tail 0 := by
  unfold parseUsize at h
  rw [String.toList_ofList] at h
  have hrest : ∀ tail : List Char, (if tail.isEmpty || !tail.all Char.isDigit then none
      else if tail.foldl (fun acc c => 10 * acc + (c.toNat - '0'.toNat)) 0 < 2 ^ 64 then
        some (tail.foldl (fun acc c => 10 * acc + (c.toNat - '0'.toNat)) 0)
      else none) = some i →
      i < 2 ^ 64 ∧ tail ≠ [] ∧ (∀ c ∈ tail, c.isDigit = true) ∧
        i = Nat.ofDigitChars 10 tail 0 := by
    intro tail h
    split_ifs at h with hbad hlt
    rw [Bool.or_eq_true, not_or, List.isEmpty_iff, Bool.not_eq_true', Bool.not_eq_false,
      List.all_eq_true] at hbad
    have hi := Option.some.inj h
    rw [hi] at hlt
    exact ⟨hlt, hbad.1, hbad.2, hi.symm⟩
  split at h
  · rename_i tail
    obtain ⟨hlt, hne, hall, hi⟩ := hrest tail h
    exact ⟨hlt, tail, Or.inl rfl, hne, hall, hi⟩
  · rename_i hsign
    obtain ⟨hlt, hne, hall, hi⟩ := hrest digits h
    refine ⟨hlt, digits, Or.inr ⟨fun hhead => ?_, rfl⟩, hne, hall, hi⟩
    obtain ⟨tail, rfl⟩ := List.head?_eq_some_iff.mp hhead
    exact hsign tail rfl

/-- An index text is that of its number, or respelled. -/
theorem eq_repr_iff_of_parseUsize {digits : List Char} {i : ℕ}
    (h : parseUsize (String.ofList digits) = some i) :
    digits = (Nat.repr i).toList ↔ ¬ Respelled digits := by
  rw [Nat.toList_repr]
  constructor
  · rintro hdigits (hplus | ⟨hzero, hlength⟩)
    · rw [hdigits] at hplus
      have hdigit := Nat.isDigit_of_mem_toDigits (b := 10) (by decide) (by decide)
        (List.mem_of_head? hplus)
      exact absurd hdigit (by decide)
    · rcases Nat.eq_zero_or_pos i with rfl | hpos
      · rw [hdigits, Nat.toDigits_zero] at hlength
        exact absurd hlength (by decide)
      · rw [hdigits] at hzero
        exact head?_toDigits hpos hzero
  · intro hrespelled
    obtain ⟨-, tail, hsign, hne, hall, rfl⟩ := parseUsize_cases h
    have htail : digits = tail := by
      rcases hsign with rfl | ⟨-, htail⟩
      · exact absurd (Or.inl rfl) hrespelled
      · exact htail
    subst htail
    cases digits with
    | nil => exact absurd rfl hne
    | cons c tail =>
      rw [List.forall_mem_cons] at hall
      have hzero : '0'.toNat = 48 := rfl
      obtain ⟨hlow, hhigh⟩ := digit_bounds hall.1
      rw [Nat.ofDigitChars_cons, Nat.mul_zero, Nat.zero_add]
      by_cases hc : c.toNat - '0'.toNat = 0
      · -- a zero in front is alone
        have hchar : c = '0' := Char.toNat_inj.mp (by omega)
        cases tail with
        | nil =>
          rw [hchar]
          rfl
        | cons d tail =>
          refine absurd (Or.inr ⟨?_, ?_⟩) hrespelled
          · rw [hchar]
            rfl
          · simp
      · rw [toDigits_ofDigitChars_append hall.2 (by omega),
          Nat.toDigits_of_lt_base (by omega), digitChar_toNat hall.1]
        rfl

/-- An index text has no delimiter. -/
theorem notMem_of_parseUsize {digits : List Char} {i : ℕ}
    (h : parseUsize (String.ofList digits) = some i) : ']' ∉ digits := by
  obtain ⟨-, tail, hsign, -, hall, -⟩ := parseUsize_cases h
  have htail : ']' ∉ tail := fun hmem => absurd (hall _ hmem) (by decide)
  rcases hsign with rfl | ⟨-, rfl⟩
  · simp [htail]
  · exact htail

end Digits

namespace JsonPath

/-- The texts after the `$` that are read, and the segments that they are read as. -/
inductive Reads : List Char → List PathSegment → Prop
  | nil : Reads [] []
  | key {k : String} {rest : List Char} {segments : List PathSegment} (hkey : ValidKey k)
    (hrest : Reads rest segments) : Reads ('.' :: k.toList ++ rest) (.key k :: segments)
  | index {digits rest : List Char} {i : ℕ} {segments : List PathSegment}
    (hindex : parseUsize (String.ofList digits) = some i) (hrest : Reads rest segments) :
    Reads ('[' :: digits ++ ']' :: rest) (.index i :: segments)
  | unclosed {digits : List Char} {i : ℕ}
    (hindex : parseUsize (String.ofList digits) = some i) : Reads ('[' :: digits) [.index i]

variable {chars : List Char} {segments : List PathSegment} {path p : JsonPath} {s : String}

theorem Reads.delimited (h : Reads chars segments) :
    chars = [] ∨ ∃ c rest, chars = c :: rest ∧ decide (c ≠ '.' ∧ c ≠ '[') = false := by
  cases h with
  | nil => exact Or.inl rfl
  | key => exact Or.inr ⟨'.', _, rfl, rfl⟩
  | index | unclosed => exact Or.inr ⟨'[', _, rfl, rfl⟩

theorem Reads.valid (h : Reads chars segments) : ∀ s ∈ segments, ValidSegment s := by
  induction h with
  | nil => simp
  | key hkey _ ih =>
    rw [List.forall_mem_cons]
    exact ⟨hkey, ih⟩
  | index hindex _ ih =>
    rw [List.forall_mem_cons]
    exact ⟨(parseUsize_cases hindex).1, ih⟩
  | unclosed hindex =>
    rw [List.forall_mem_singleton]
    exact (parseUsize_cases hindex).1

theorem ofList_ne_empty {digits : List Char} {i : ℕ}
    (h : parseUsize (String.ofList digits) = some i) : (String.ofList digits).isEmpty = false := by
  obtain ⟨-, tail, hsign, hne, -⟩ := parseUsize_cases h
  rw [← Bool.not_eq_true, String.isEmpty_iff, ← String.toList_eq_nil_iff, String.toList_ofList]
  rcases hsign with rfl | ⟨-, rfl⟩
  · simp
  · exact hne

/-- The parser reads the key in front. -/
theorem parseSegments_cons_key (path : JsonPath) {key : String} (hkey : ValidKey key)
    (hrest : Reads chars segments) : ∃ p : JsonPath, p.segments = path.segments ++ [.key key] ∧
      path.parseSegments ('.' :: key.toList ++ chars) = p.parseSegments chars := by
  obtain ⟨p, happend, hsegments⟩ := path.appendKey_of_valid hkey
  obtain ⟨-, hdot, hopen, -⟩ := hkey
  have htext : ∀ c ∈ key.toList, decide (c ≠ '.' ∧ c ≠ '[') = true := by
    intro c hc
    rw [decide_eq_true_eq]
    exact ⟨fun h => hdot (h ▸ hc), fun h => hopen (h ▸ hc)⟩
  have hspan := span_append _ htext hrest.delimited
  refine ⟨p, hsegments, ?_⟩
  rw [List.cons_append, parseSegments]
  simp only [hspan, if_true, String.ofList_toList, happend]

/-- The parser reads the index in front, up to a closing bracket or to the end. -/
theorem parseSegments_cons_index (path : JsonPath) {digits : List Char} {i : ℕ}
    (hindex : parseUsize (String.ofList digits) = some i)
    (hrest : chars = [] ∨ ∃ rest, chars = ']' :: rest) :
    ∃ p : JsonPath, p.segments = path.segments ++ [.index i] ∧
      path.parseSegments ('[' :: digits ++ chars) = p.parseSegments (chars.drop 1) := by
  have htext : ∀ c ∈ digits, decide (c ≠ ']') = true := by
    intro c hc
    rw [decide_eq_true_eq]
    rintro rfl
    exact notMem_of_parseUsize hindex hc
  have hdelimited : chars = [] ∨ ∃ c rest, chars = c :: rest ∧ decide (c ≠ ']') = false := by
    rcases hrest with h | ⟨rest, h⟩
    · exact Or.inl h
    · exact Or.inr ⟨']', rest, h, rfl⟩
  have hspan := span_append _ htext hdelimited
  have hi : (UInt64.ofNat i).toNat = i := UInt64.toNat_ofNat_of_lt (parseUsize_cases hindex).1
  refine ⟨path.appendIndex (UInt64.ofNat i), by simp [appendIndex, hi], ?_⟩
  rw [List.cons_append, parseSegments]
  simp only [hspan, ofList_ne_empty hindex, hindex]
  rfl

theorem Reads.parseSegments (h : Reads chars segments) (path : JsonPath) :
    ∃ p, path.parseSegments chars = .ok p ∧ p.segments = path.segments ++ segments := by
  induction h generalizing path with
  | nil => exact ⟨path, by rw [JsonPath.parseSegments], (List.append_nil _).symm⟩
  | key hkey hrest ih =>
    obtain ⟨path', hsegments, hparse⟩ := parseSegments_cons_key path hkey hrest
    obtain ⟨p, hp, hps⟩ := ih path'
    refine ⟨p, hparse.trans hp, ?_⟩
    rw [hps, hsegments, List.append_assoc]
    rfl
  | index hindex hrest ih =>
    obtain ⟨path', hsegments, hparse⟩ :=
      parseSegments_cons_index path hindex (Or.inr ⟨_, rfl⟩)
    obtain ⟨p, hp, hps⟩ := ih path'
    refine ⟨p, hparse.trans hp, ?_⟩
    rw [hps, hsegments, List.append_assoc]
    rfl
  | unclosed hindex =>
    obtain ⟨path', hsegments, hparse⟩ :=
      parseSegments_cons_index path hindex (Or.inl rfl)
    rw [List.append_nil] at hparse
    refine ⟨path', hparse.trans ?_, hsegments⟩
    rw [List.drop_nil, JsonPath.parseSegments]

theorem reads_of_parseSegments (h : path.parseSegments chars = .ok p) :
    ∃ segments, Reads chars segments ∧ p.segments = path.segments ++ segments := by
  fun_induction parseSegments path chars with
  | case1 path =>
    cases h
    exact ⟨[], .nil, (List.append_nil _).symm⟩
  | case2 | case4 | case5 | case7 => cases h
  | case3 path rest key path' happend ih =>
    obtain ⟨segments, hreads, hsegments⟩ := ih h
    have hkey : ValidKey (String.ofList key) := exists_appendKey_eq_ok_iff.mp ⟨path', happend⟩
    have htext : (String.ofList key).toList ++
        rest.dropWhile (fun c => decide (c ≠ '.' ∧ c ≠ '[')) = rest := by
      rw [String.toList_ofList]
      exact List.takeWhile_append_dropWhile
    have hcons := Reads.key hkey hreads
    rw [List.cons_append, htext] at hcons
    refine ⟨_, hcons, ?_⟩
    rw [hsegments, segments_of_appendKey happend, List.append_assoc]
    rfl
  | case6 path rest indexStr hne i hindex hdot ih =>
    obtain ⟨segments, hreads, hsegments⟩ := ih h
    have hi : (UInt64.ofNat i).toNat = i := UInt64.toNat_ofNat_of_lt (parseUsize_cases hindex).1
    have htext : rest.takeWhile (fun c => decide (c ≠ ']')) ++
        rest.dropWhile (fun c => decide (c ≠ ']')) = rest := List.takeWhile_append_dropWhile
    simp only [appendIndex, hi] at hsegments
    rw [List.append_assoc, List.singleton_append] at hsegments
    cases hdrop : rest.dropWhile fun c => decide (c ≠ ']') with
    | nil =>
      rw [hdrop, List.drop_nil] at hreads
      rw [hdrop, List.append_nil] at htext
      cases hreads
      refine ⟨_, ?_, hsegments⟩
      rw [← htext]
      exact .unclosed hindex
    | cons c tail =>
      have hc : c = ']' := by
        have hfirst := List.head?_dropWhile_not (fun c => decide (c ≠ ']')) rest
        rw [hdrop] at hfirst
        simpa using hfirst
      rw [hdrop, List.drop_one, List.tail_cons] at hreads
      rw [hdrop, hc] at htext
      refine ⟨_, ?_, hsegments⟩
      rw [← htext, ← List.cons_append]
      exact .index hindex hreads

theorem fromStr_of_dollar {rest : List Char} (h : s.toList = '$' :: rest) :
    fromStr s = root.parseSegments rest := by
  have hs : s = "$" ++ String.ofList rest := by
    apply String.ext
    rw [h, String.toList_append, String.toList_ofList]
    simp
  have hempty : s.isEmpty = false := by
    rw [← Bool.not_eq_true, String.isEmpty_iff, ← String.toList_eq_nil_iff, h]
    simp
  unfold fromStr
  rw [hempty, h]
  simp only [List.head?_cons, List.drop_one, List.tail_cons, ne_eq, not_true, Bool.false_eq_true,
    if_false]
  split_ifs with hsize
  · -- one byte is the `$` alone
    rw [hs, String.utf8ByteSize_append] at hsize
    have hzero : (String.ofList rest).utf8ByteSize = 0 :=
      Nat.add_left_cancel (hsize.trans (Nat.add_zero 1).symm)
    rw [String.utf8ByteSize_eq_zero_iff, ← String.toList_eq_nil_iff, String.toList_ofList] at hzero
    rw [hzero, JsonPath.parseSegments]
  · rfl

theorem fromStr_eq_ok_iff : fromStr s = .ok p ↔
    ∃ rest, s.toList = '$' :: rest ∧ Reads rest p.segments := by
  constructor
  · intro h
    have hdollar : s.toList.head? = some '$' := by
      by_contra hne
      unfold fromStr at h
      split_ifs at h
    obtain ⟨rest, hrest⟩ := List.head?_eq_some_iff.mp hdollar
    rw [fromStr_of_dollar hrest] at h
    obtain ⟨segments, hreads, hsegments⟩ := reads_of_parseSegments h
    rw [hsegments]
    exact ⟨rest, hrest, hreads⟩
  · rintro ⟨rest, hrest, hreads⟩
    obtain ⟨q, hq, hsegments⟩ := hreads.parseSegments root
    rw [fromStr_of_dollar hrest, hq, show q = p from JsonPath.ext hsegments]

/-- A text is read in one way. -/
theorem Reads.unique (h : Reads chars segments) {segments' : List PathSegment}
    (h' : Reads chars segments') : segments = segments' := by
  obtain ⟨p, hp, hsegments⟩ := h.parseSegments root
  obtain ⟨q, hq, hsegments'⟩ := h'.parseSegments root
  have hpq : p = q := Except.ok.inj (hp.symm.trans hq)
  exact (hsegments.symm.trans (congrArg JsonPath.segments hpq)).trans hsegments'

/-- The textual form is read. -/
theorem reads_segmentText (hvalid : ∀ s ∈ segments, ValidSegment s) :
    Reads (segments.flatMap segmentText) segments := by
  induction segments with
  | nil => exact .nil
  | cons segment segments ih =>
    rw [List.forall_mem_cons] at hvalid
    rw [List.flatMap_cons]
    cases segment with
    | key k => exact .key hvalid.1 (ih hvalid.2)
    | index i =>
      have hindex : parseUsize (String.ofList (Nat.repr i).toList) = some i := by
        rw [String.ofList_toList]
        exact parseUsize_repr hvalid.1
      have hcons := Reads.index hindex (ih hvalid.2)
      rw [segmentText, List.append_assoc]
      exact hcons

/-- Texts that are read although they are no textual form: an index is respelled, or the last
bracket is not closed. -/
inductive Misspelled : List Char → Prop
  | unclosed {digits : List Char} {i : ℕ}
    (hindex : parseUsize (String.ofList digits) = some i) : Misspelled ('[' :: digits)
  | respelled {digits rest : List Char} {i : ℕ} {segments : List PathSegment}
    (hindex : parseUsize (String.ofList digits) = some i) (h : Respelled digits)
    (hrest : Reads rest segments) : Misspelled ('[' :: digits ++ ']' :: rest)
  | afterKey {k : String} {rest : List Char} (hkey : ValidKey k) (hrest : Misspelled rest) :
    Misspelled ('.' :: k.toList ++ rest)
  | afterIndex {digits rest : List Char} {i : ℕ}
    (hindex : parseUsize (String.ofList digits) = some i) (hrest : Misspelled rest) :
    Misspelled ('[' :: digits ++ ']' :: rest)

theorem Reads.cases (h : Reads chars segments) :
    chars = segments.flatMap segmentText ∨ Misspelled chars := by
  induction h with
  | nil => exact Or.inl rfl
  | key hkey hrest ih =>
    rcases ih with h | h
    · left
      rw [h, List.flatMap_cons]
      rfl
    · exact Or.inr (.afterKey hkey h)
  | @index digits rest i segments hindex hrest ih =>
    rcases ih with h | h
    · by_cases hrespelled : Respelled digits
      · exact Or.inr (.respelled hindex hrespelled hrest)
      · left
        rw [← eq_repr_iff_of_parseUsize hindex] at hrespelled
        rw [h, hrespelled, List.flatMap_cons, segmentText, List.append_assoc]
        rfl
    · exact Or.inr (.afterIndex hindex h)
  | unclosed hindex => exact Or.inr (.unclosed hindex)

/-- Texts up to a closing bracket are the same when they have none. -/
theorem eq_of_bracketed {digits digits' rest rest' : List Char} (h : ']' ∉ digits)
    (h' : ']' ∉ digits') (heq : digits ++ ']' :: rest = digits' ++ ']' :: rest') :
    digits = digits' ∧ rest = rest' := by
  have hspan : ∀ {digits : List Char}, ']' ∉ digits → ∀ rest,
      (digits ++ ']' :: rest).takeWhile (fun c => decide (c ≠ ']')) = digits ∧
        (digits ++ ']' :: rest).dropWhile (fun c => decide (c ≠ ']')) = ']' :: rest := by
    intro digits h rest
    refine span_append _ (fun c hc => decide_eq_true ?_) (Or.inr ⟨']', rest, rfl, rfl⟩)
    rintro rfl
    exact h hc
  obtain ⟨htake, hdrop⟩ := hspan h rest
  obtain ⟨htake', hdrop'⟩ := hspan h' rest'
  rw [heq] at htake hdrop
  exact ⟨htake.symm.trans htake', (List.cons.inj (hdrop.symm.trans hdrop')).2⟩

theorem Misspelled.reads (h : Misspelled chars) :
    ∃ segments, Reads chars segments ∧ chars ≠ segments.flatMap segmentText := by
  have hrepr : ∀ {digits : List Char} {i : ℕ}, parseUsize (String.ofList digits) = some i →
      ']' ∉ (Nat.repr i).toList := by
    intro digits i h
    apply notMem_of_parseUsize (i := i)
    rw [String.ofList_toList]
    exact parseUsize_repr (parseUsize_cases h).1
  induction h with
  | @unclosed digits i hindex =>
    refine ⟨_, .unclosed hindex, fun heq => ?_⟩
    have hmem : ']' ∈ '[' :: digits := by
      rw [heq]
      simp [segmentText]
    exact notMem_of_parseUsize hindex (by simpa using hmem)
  | respelled hindex hrespelled hrest =>
    refine ⟨_, .index hindex hrest, fun heq => ?_⟩
    rw [List.flatMap_cons, segmentText, List.append_assoc, List.cons_append, List.cons_append,
      List.singleton_append] at heq
    have hdigits := (eq_of_bracketed (notMem_of_parseUsize hindex) (hrepr hindex)
      (List.cons.inj heq).2).1
    exact (eq_repr_iff_of_parseUsize hindex).mp hdigits hrespelled
  | afterKey hkey _ ih =>
    obtain ⟨segments, hreads, hne⟩ := ih
    refine ⟨_, .key hkey hreads, fun heq => hne ?_⟩
    rw [List.flatMap_cons] at heq
    exact List.append_cancel_left heq
  | afterIndex hindex _ ih =>
    obtain ⟨segments, hreads, hne⟩ := ih
    refine ⟨_, .index hindex hreads, fun heq => hne ?_⟩
    rw [List.flatMap_cons, segmentText, List.append_assoc, List.cons_append, List.cons_append,
      List.singleton_append] at heq
    exact (eq_of_bracketed (notMem_of_parseUsize hindex) (hrepr hindex) (List.cons.inj heq).2).2

/-- The grammar of paths: a `$`, and the textual form of each segment. -/
def Grammar (s : String) : Prop :=
  ∃ segments : List PathSegment, (∀ segment ∈ segments, ValidSegment segment) ∧
    s.toList = '$' :: segments.flatMap segmentText

/-- The parser accepts the grammar, and the misspelled texts. -/
theorem exists_fromStr_iff : (∃ path, fromStr s = .ok path) ↔
    Grammar s ∨ ∃ rest, s.toList = '$' :: rest ∧ Misspelled rest := by
  constructor
  · rintro ⟨path, hpath⟩
    obtain ⟨rest, hrest, hreads⟩ := fromStr_eq_ok_iff.mp hpath
    rcases hreads.cases with h | h
    · exact Or.inl ⟨path.segments, path.valid, h ▸ hrest⟩
    · exact Or.inr ⟨rest, hrest, h⟩
  · rintro (⟨segments, hvalid, hs⟩ | ⟨rest, hrest, hmisspelled⟩)
    · exact ⟨⟨segments, hvalid⟩, fromStr_eq_ok_iff.mpr ⟨_, hs, reads_segmentText hvalid⟩⟩
    · obtain ⟨segments, hreads, -⟩ := hmisspelled.reads
      exact ⟨⟨segments, hreads.valid⟩, fromStr_eq_ok_iff.mpr ⟨rest, hrest, hreads⟩⟩

theorem not_grammar_of_misspelled {rest : List Char} (hrest : s.toList = '$' :: rest)
    (h : Misspelled rest) : ¬ Grammar s := by
  rintro ⟨segments, hvalid, hs⟩
  obtain ⟨segments', hreads, hne⟩ := h.reads
  have htext : rest = segments.flatMap segmentText := (List.cons.inj (hrest.symm.trans hs)).2
  rw [htext] at hreads hne
  rw [hreads.unique (reads_segmentText hvalid)] at hne
  exact hne rfl

/-- A text is accepted exactly when it is in the grammar, and reads back as itself, unless it is
misspelled. -/
theorem accepts_iff (s : String) :
    (((∃ path, fromStr s = .ok path) ↔ Grammar s) ↔
      ¬ ∃ rest, s.toList = '$' :: rest ∧ Misspelled rest) ∧
    ((∀ path, fromStr s = .ok path → path.toString = s) ↔
      ¬ ∃ rest, s.toList = '$' :: rest ∧ Misspelled rest) := by
  constructor
  · constructor
    · rintro haccepts ⟨rest, hrest, h⟩
      exact not_grammar_of_misspelled hrest h
        (haccepts.mp (exists_fromStr_iff.mpr (Or.inr ⟨rest, hrest, h⟩)))
    · intro h
      rw [exists_fromStr_iff]
      exact ⟨fun haccepts => haccepts.resolve_right h, Or.inl⟩
  · constructor
    · rintro hreads ⟨rest, hrest, h⟩
      obtain ⟨path, hpath⟩ := exists_fromStr_iff.mpr (Or.inr ⟨rest, hrest, h⟩)
      refine not_grammar_of_misspelled hrest h ⟨path.segments, path.valid, ?_⟩
      rw [← toList_toString, hreads path hpath]
    · intro h path hpath
      obtain ⟨rest, hrest, hreads⟩ := fromStr_eq_ok_iff.mp hpath
      rcases hreads.cases with htext | hmisspelled
      · apply String.ext
        rw [toList_toString, hrest, htext]
      · exact absurd ⟨rest, hrest, hmisspelled⟩ h

/-- A sign, a leading zero and a missing bracket are read as the path `$[1]`. -/
theorem accepts_misspelled : ["$[+1]", "$[01]", "$[1"].Forall fun s =>
    ¬ Grammar s ∧ ∃ path, fromStr s = .ok path ∧ path.toString = "$[1]" ∧ path.toString ≠ s := by
  let path : JsonPath := ⟨[.index 1], by simp [ValidSegment]⟩
  have htext : path.toString = "$[1]" := by decide +kernel
  have hplus : parseUsize (String.ofList ['+', '1']) = some 1 := by decide +kernel
  have hzero : parseUsize (String.ofList ['0', '1']) = some 1 := by decide +kernel
  have hone : parseUsize (String.ofList ['1']) = some 1 := by decide +kernel
  have hread : ∀ {s : String} (rest : List Char), s.toList = '$' :: rest → Misspelled rest →
      Reads rest [.index 1] → path.toString ≠ s →
      ¬ Grammar s ∧ ∃ path, fromStr s = .ok path ∧ path.toString = "$[1]" ∧ path.toString ≠ s :=
    fun _ hs hmisspelled hreads hne => ⟨not_grammar_of_misspelled hs hmisspelled,
      path, fromStr_eq_ok_iff.mpr ⟨_, hs, hreads⟩, htext, hne⟩
  refine List.forall_iff_forall_mem.mpr fun s hs => ?_
  simp only [List.mem_cons, List.not_mem_nil, or_false] at hs
  rcases hs with rfl | rfl | rfl
  · exact hread ['[', '+', '1', ']'] (by decide +kernel)
      (.respelled hplus (by decide) .nil) (.index hplus .nil) (by decide +kernel)
  · exact hread ['[', '0', '1', ']'] (by decide +kernel)
      (.respelled hzero (by decide) .nil) (.index hzero .nil) (by decide +kernel)
  · exact hread ['[', '1'] (by decide +kernel) (.unclosed hone) (.unclosed hone)
      (by decide +kernel)

end JsonPath

end PJS
