import PJS.Domain.JsonPath

/-! Reading a path back from its textual form. A valid key holds no delimiter, so a segment ends
where the next one begins. -/
namespace PJS

/-- A number that fits is read back from its digits. -/
theorem parseUsize_repr {n : ℕ} (h : n < 2 ^ 64) : parseUsize (Nat.repr n) = some n := by
  have hdigit : ∀ c ∈ Nat.toDigits 10 n, c.isDigit = true :=
    fun c hc => Nat.isDigit_of_mem_toDigits (by decide) (by decide) hc
  have hvalue : (Nat.toDigits 10 n).foldl (fun acc c => 10 * acc + (c.toNat - '0'.toNat)) 0 = n :=
    Nat.ofDigitChars_ten_toDigits
  have hne : Nat.toDigits 10 n ≠ [] := Nat.toDigits_ne_nil
  unfold parseUsize
  rw [Nat.toList_repr]
  generalize Nat.toDigits 10 n = digits at hdigit hvalue hne
  split
  · -- a number starts with a digit, not with a sign
    exact absurd (hdigit '+' (by simp)) (by decide)
  · have hempty : digits.isEmpty = false := by simpa using hne
    have hall : digits.all Char.isDigit = true := by simpa using hdigit
    simp only [hempty, hall, hvalue, h]
    rfl

/-- Check every key among segments. -/
def validateSegments : List PathSegment → DomainResult Unit
  | [] => .ok ()
  | .key k :: segments =>
    match validateKey k with
    | .error e => .error e
    | .ok () => validateSegments segments
  | .index _ :: segments => validateSegments segments

theorem validateSegments_eq_ok_iff {segments : List PathSegment} :
    validateSegments segments = .ok () ↔ ∀ k, .key k ∈ segments → ValidKey k := by
  induction segments with
  | nil => simp [validateSegments]
  | cons segment segments ih =>
    cases segment with
    | index i => simpa [validateSegments] using ih
    | key k =>
      unfold validateSegments
      by_cases hk : ValidKey k
      · rw [validateKey_eq_ok_iff.mpr hk, ih]
        simp [hk]
      · have herr : validateKey k ≠ .ok () := fun h => hk (validateKey_eq_ok_iff.mp h)
        cases hv : validateKey k with
        | error e => simp [hk]
        | ok u => exact absurd hv herr

namespace JsonPath

/-- Build a path directly from segments, whose indices are machine integers already. -/
def fromSegments (segments : List PathSegment) (usize : ∀ i, .index i ∈ segments → i < 2 ^ 64) :
    DomainResult JsonPath :=
  match h : validateSegments segments with
  | .error e => .error e
  | .ok () => .ok ⟨segments, by
      intro s hs
      cases s with
      | key k => exact validateSegments_eq_ok_iff.mp h k hs
      | index i => exact usize i hs⟩

/-- Every path is built from its segments. -/
theorem fromSegments_segments (path : JsonPath) :
    fromSegments path.segments (fun _ h => path.valid _ h) = .ok path := by
  have hvalid : validateSegments path.segments = .ok () :=
    validateSegments_eq_ok_iff.mpr fun _ h => path.valid _ h
  unfold fromSegments
  split
  · rename_i e he
    cases he.symm.trans hvalid
  · rfl

/-- The character loop of the parser: the segments read so far, and the text left. -/
def parseSegments (path : JsonPath) (chars : List Char) : DomainResult JsonPath :=
  match chars with
  | [] => .ok path
  | ch :: chars =>
    if ch = '.' then
      let key := chars.takeWhile fun c => c ≠ '.' ∧ c ≠ '['
      match path.appendKey (String.ofList key) with
      | .error e => .error e
      | .ok path => parseSegments path (chars.dropWhile fun c => c ≠ '.' ∧ c ≠ '[')
    else if ch = '[' then
      let indexStr := String.ofList (chars.takeWhile fun c => c ≠ ']')
      if indexStr.isEmpty then .error (.invalidPath "Empty array index")
      else
        match parseUsize indexStr with
        | none => .error (.invalidPath s!"Invalid array index '{indexStr}'")
        | some index =>
          -- the closing bracket is consumed, and a missing one is not noticed
          parseSegments (path.appendIndex (UInt64.ofNat index))
            ((chars.dropWhile fun c => c ≠ ']').drop 1)
    else .error (.invalidPath s!"Unexpected character '{ch}' in path")
termination_by chars.length
decreasing_by
  · exact Nat.lt_succ_of_le (List.dropWhile_sublist _).length_le
  · exact Nat.lt_succ_of_le ((List.drop_sublist 1 _).trans (List.dropWhile_sublist _)).length_le

/-- Parse a path from its textual form. -/
def fromStr (path : String) : DomainResult JsonPath :=
  if path.isEmpty then .error (.invalidPath "Path cannot be empty")
  else if path.toList.head? ≠ some '$' then .error (.invalidPath "Path must start with '$'")
  else if path.utf8ByteSize = 1 then .ok .root
  else parseSegments .root (path.toList.drop 1)

/-- The textual form of a segment. -/
def segmentText : PathSegment → List Char
  | .key k => '.' :: k.toList
  | .index i => '[' :: (Nat.repr i).toList ++ [']']

theorem toString_eq (path : JsonPath) :
    path.toString = "$" ++ String.ofList (path.segments.flatMap segmentText) := by
  have hfold : ∀ (segments : List PathSegment) (acc : String),
      (segments.foldl (fun acc segment => acc ++ match segment with
        | .key k => "." ++ k
        | .index i => "[" ++ Nat.repr i ++ "]") acc) =
      acc ++ String.ofList (segments.flatMap segmentText) := by
    intro segments
    induction segments with
    | nil => simp
    | cons segment segments ih =>
      intro acc
      rw [List.foldl_cons, ih, List.flatMap_cons]
      apply String.ext
      cases segment <;> simp [segmentText]
  exact hfold path.segments "$"

theorem toList_toString (path : JsonPath) :
    path.toString.toList = '$' :: path.segments.flatMap segmentText := by
  rw [toString_eq, String.toList_append, String.toList_ofList, String.toList_ofList]
  rfl

/-- Text after a key starts with a delimiter or is missing. -/
theorem scan_segmentText (segments : List PathSegment) :
    segments.flatMap segmentText = [] ∨
      ∃ c rest, segments.flatMap segmentText = c :: rest ∧ decide (c ≠ '.' ∧ c ≠ '[') = false := by
  cases segments with
  | nil => exact Or.inl rfl
  | cons segment segments =>
    right
    cases segment with
    | key k => exact ⟨'.', _, rfl, rfl⟩
    | index i => exact ⟨'[', _, rfl, rfl⟩

/-- Scanning up to a delimiter finds a text that does not hold it. -/
theorem span_append (p : Char → Bool) {text rest : List Char} (htext : ∀ c ∈ text, p c = true)
    (hrest : rest = [] ∨ ∃ c tail, rest = c :: tail ∧ p c = false) :
    (text ++ rest).takeWhile p = text ∧ (text ++ rest).dropWhile p = rest := by
  rw [List.takeWhile_append_of_pos htext, List.dropWhile_append_of_pos htext]
  rcases hrest with rfl | ⟨c, tail, rfl, hc⟩
  · simp
  · simp [hc]

/-- A key is read up to the delimiter after it. -/
theorem parseSegments_key {path p : JsonPath} {key : String} (hkey : ValidKey key)
    (happend : path.appendKey key = .ok p) (segments : List PathSegment) :
    path.parseSegments (segmentText (.key key) ++ segments.flatMap segmentText) =
      p.parseSegments (segments.flatMap segmentText) := by
  obtain ⟨-, hdot, hopen, -⟩ := hkey
  have htext : ∀ c ∈ key.toList, decide (c ≠ '.' ∧ c ≠ '[') = true := by
    intro c hc
    rw [decide_eq_true_eq]
    exact ⟨fun h => hdot (h ▸ hc), fun h => hopen (h ▸ hc)⟩
  have hspan := span_append _ htext (scan_segmentText segments)
  rw [segmentText, List.cons_append, parseSegments]
  simp only [hspan, if_true, String.ofList_toList, happend]

/-- An index is read up to its closing bracket. -/
theorem parseSegments_index (path : JsonPath) {index : ℕ} (h : index < 2 ^ 64)
    (segments : List PathSegment) :
    path.parseSegments (segmentText (.index index) ++ segments.flatMap segmentText) =
      (path.appendIndex (UInt64.ofNat index)).parseSegments (segments.flatMap segmentText) := by
  have htext : ∀ c ∈ (Nat.repr index).toList, decide (c ≠ ']') = true := by
    intro c hc
    rw [Nat.toList_repr] at hc
    have hdigit := Nat.isDigit_of_mem_toDigits (by decide) (by decide) hc
    rw [decide_eq_true_eq]
    rintro rfl
    exact absurd hdigit (by decide)
  have hspan := span_append _ htext
    (Or.inr ⟨']', segments.flatMap segmentText, rfl, by decide⟩)
  have hempty : (Nat.repr index).isEmpty = false := by
    rw [← Bool.not_eq_true, String.isEmpty_iff, ← String.toList_eq_nil_iff, Nat.toList_repr]
    exact Nat.toDigits_ne_nil
  rw [segmentText, List.cons_append, List.cons_append, List.append_assoc, parseSegments]
  simp only [List.singleton_append, hspan, String.ofList_toList, hempty, parseUsize_repr h]
  rfl

theorem parseSegments_segmentText (path : JsonPath) (segments : List PathSegment)
    (hvalid : ∀ s ∈ segments, ValidSegment s) :
    ∃ p, path.parseSegments (segments.flatMap segmentText) = .ok p ∧
      p.segments = path.segments ++ segments := by
  induction segments generalizing path with
  | nil => exact ⟨path, by simp [parseSegments], by simp⟩
  | cons segment segments ih =>
    rw [List.forall_mem_cons] at hvalid
    obtain ⟨hsegment, hrest⟩ := hvalid
    rw [List.flatMap_cons]
    cases segment with
    | key k =>
      obtain ⟨path', happend, hsegments⟩ := path.appendKey_of_valid hsegment
      obtain ⟨p, hp, hps⟩ := ih path' hrest
      refine ⟨p, (parseSegments_key hsegment happend segments).trans hp, ?_⟩
      rw [hps, hsegments, List.append_assoc]
      rfl
    | index i =>
      obtain ⟨p, hp, hps⟩ := ih (path.appendIndex (UInt64.ofNat i)) hrest
      refine ⟨p, (parseSegments_index path hsegment segments).trans hp, ?_⟩
      have hi : (UInt64.ofNat i).toNat = i := UInt64.toNat_ofNat_of_lt hsegment
      rw [hps]
      simp [appendIndex, hi]

theorem flatMap_segmentText_eq_nil {segments : List PathSegment}
    (h : segments.flatMap segmentText = []) : segments = [] := by
  cases segments with
  | nil => rfl
  | cons segment segments => cases segment <;> simp [segmentText] at h

theorem parse_text (path : JsonPath) : fromStr path.toString = .ok path := by
  obtain ⟨p, hp, hsegments⟩ := root.parseSegments_segmentText path.segments path.valid
  have hpath : p = path := JsonPath.ext hsegments
  have hlist : path.toString.toList = '$' :: path.segments.flatMap segmentText := by
    rw [toString_eq]
    simp
  have hempty : path.toString.isEmpty = false := by
    rw [← Bool.not_eq_true, String.isEmpty_iff, ← String.toList_eq_nil_iff, hlist]
    simp
  unfold fromStr
  rw [hempty, hlist]
  simp only [List.head?_cons, List.drop_one, List.tail_cons, hp, hpath, ne_eq, not_true,
    Bool.false_eq_true, if_false]
  split_ifs with hsize
  · -- one byte is the `$` alone
    rw [toString_eq, String.utf8ByteSize_append] at hsize
    have hzero : (String.ofList (path.segments.flatMap segmentText)).utf8ByteSize = 0 :=
      Nat.add_left_cancel (hsize.trans (Nat.add_zero 1).symm)
    rw [String.utf8ByteSize_eq_zero_iff, ← String.toList_eq_nil_iff, String.toList_ofList] at hzero
    rw [show path = root from JsonPath.ext (flatMap_segmentText_eq_nil hzero)]
  · rfl

theorem toString_injective : Function.Injective toString := by
  intro p q h
  have hq := q.parse_text
  rw [← h, p.parse_text] at hq
  cases hq
  rfl

/-- Every path is built from its segments and read back from its textual form, so that the textual
form tells paths apart. -/
theorem fromStr_toString :
    (∀ path : JsonPath,
      fromSegments path.segments (fun _ h => path.valid _ h) = .ok path ∧
      fromStr path.toString = .ok path) ∧
    Function.Injective toString := by
  exact ⟨fun path => ⟨path.fromSegments_segments, path.parse_text⟩, toString_injective⟩

end JsonPath

end PJS
