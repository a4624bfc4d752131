import PJS.Domain.Basic
import PJS.Lib.Document

/-! Segmented JSON paths. A path can only hold keys its textual form can express: every
constructor goes through `validateKey`, and the type records the outcome. -/
namespace PJS

abbrev PathSegment := Doc.Step String

/-- A key is valid iff it is non-empty and contains none of `.`, `[`, `]`. -/
def ValidKey (key : String) : Prop :=
  key ≠ "" ∧ '.' ∉ key.toList ∧ '[' ∉ key.toList ∧ ']' ∉ key.toList

instance (key : String) : Decidable (ValidKey key) := inferInstanceAs (Decidable (_ ∧ _))

def validateKey (key : String) : DomainResult Unit :=
  if key = "" then .error (.invalidPath "Key cannot be empty")
  else if '.' ∈ key.toList ∨ '[' ∈ key.toList ∨ ']' ∈ key.toList then
    .error (.invalidPath s!"Key '{key}' contains invalid characters")
  else .ok ()

theorem validateKey_eq_ok_iff {key : String} : validateKey key = .ok () ↔ ValidKey key := by
  unfold validateKey ValidKey
  split_ifs with he hc
  · simp [he]
  · constructor
    · intro h
      cases h
    · rintro ⟨-, hd, hl, hr⟩
      rcases hc with h | h | h <;> contradiction
  · simp only [not_or] at hc
    exact ⟨fun _ => ⟨he, hc⟩, fun _ => rfl⟩

/-- `str::parse::<usize>`: decimal digits after an optional `+`, without overflow. -/
def parseUsize (s : String) : Option ℕ :=
  let digits := match s.toList with
    | '+' :: rest => rest
    | chars => chars
  if digits.isEmpty || !digits.all Char.isDigit then none
  else
    let n := digits.foldl (fun acc c => 10 * acc + (c.toNat - '0'.toNat)) 0
    if n < 2 ^ 64 then some n else none

/-- A key segment holds a valid key, an index segment a `usize`. -/
def ValidSegment : PathSegment → Prop
  | .key k => ValidKey k
  | .index i => i < 2 ^ 64

structure JsonPath where
  segments : List PathSegment
  valid : ∀ s ∈ segments, ValidSegment s
deriving DecidableEq

namespace JsonPath

@[ext] theorem ext {p q : JsonPath} (h : p.segments = q.segments) : p = q := by
  cases p
  cases q
  cases h
  rfl

def root : JsonPath := ⟨[], by simp⟩

/-- Append a key segment, producing a new path. -/
def appendKey (path : JsonPath) (key : String) : DomainResult JsonPath :=
  match h : validateKey key with
  | .error e => .error e
  | .ok () => .ok ⟨path.segments ++ [.key key], by
      intro s hs
      rcases List.mem_append.mp hs with hs | hs
      · exact path.valid s hs
      · rw [List.mem_singleton.mp hs]
        exact validateKey_eq_ok_iff.mp h⟩

/-- Append an array index segment, producing a new path. -/
def appendIndex (path : JsonPath) (index : UInt64) : JsonPath :=
  ⟨path.segments ++ [.index index.toNat], by
    intro s hs
    rcases List.mem_append.mp hs with hs | hs
    · exact path.valid s hs
    · rw [List.mem_singleton.mp hs]
      exact index.toNat_lt⟩

/-- Number of segments in the path. -/
def depth (path : JsonPath) : ℕ := path.segments.length

/-- The literal final segment, whether it is a key or an index. -/
def lastSegment (path : JsonPath) : Option PathSegment := path.segments.getLast?

/-- The last key segment, skipping any trailing index segments. -/
def lastKey (path : JsonPath) : Option String :=
  path.segments.reverse.findSome? fun
    | .key k => some k
    | .index _ => none

/-- Whether `path` is a strict prefix of `other`. -/
def isPrefixOf (path other : JsonPath) : Bool :=
  path.segments.length < other.segments.length && path.segments.isPrefixOf other.segments

/-- The textual form, `$.key[0]`. -/
def toString (path : JsonPath) : String :=
  path.segments.foldl (fun acc segment => acc ++ match segment with
    | .key k => "." ++ k
    | .index i => "[" ++ Nat.repr i ++ "]") "$"

theorem isPrefixOf_eq_false {p q : JsonPath} (h : ¬ p.segments <+: q.segments) :
    p.isPrefixOf q = false := by
  rw [← List.isPrefixOf_iff_prefix] at h
  simp [isPrefixOf, h]

theorem appendKey_of_valid (path : JsonPath) {key : String} (h : ValidKey key) :
    ∃ p, path.appendKey key = .ok p ∧ p.segments = path.segments ++ [.key key] := by
  have hv := validateKey_eq_ok_iff.mpr h
  unfold appendKey
  split
  · rename_i e he
    rw [hv] at he
    cases he
  · exact ⟨_, rfl, rfl⟩

theorem appendKey_of_not_valid (path : JsonPath) {key : String} (h : ¬ ValidKey key) :
    ∃ e, path.appendKey key = .error e := by
  unfold appendKey
  split
  · exact ⟨_, rfl⟩
  · rename_i hok
    exact absurd (validateKey_eq_ok_iff.mp hok) h

theorem segments_of_appendKey {path p : JsonPath} {key : String} (h : path.appendKey key = .ok p) :
    p.segments = path.segments ++ [.key key] := by
  unfold appendKey at h
  split at h
  · cases h
  · cases h
    rfl

/-- The rule does not depend on the path a key is appended to. -/
theorem exists_appendKey_eq_ok_iff {path : JsonPath} {key : String} :
    (∃ p, path.appendKey key = .ok p) ↔ ValidKey key := by
  by_cases h : ValidKey key
  · obtain ⟨p, hp, -⟩ := path.appendKey_of_valid h
    exact ⟨fun _ => h, fun _ => ⟨p, hp⟩⟩
  · obtain ⟨e, he⟩ := path.appendKey_of_not_valid h
    refine ⟨fun ⟨p, hp⟩ => ?_, fun h' => absurd h' h⟩
    rw [he] at hp
    cases hp

theorem exists_appendKey_eq_error_iff {path : JsonPath} {key : String} :
    (∃ e, path.appendKey key = .error e) ↔ ¬ ValidKey key := by
  rw [← exists_appendKey_eq_ok_iff]
  cases path.appendKey key <;> simp

end JsonPath

end PJS
