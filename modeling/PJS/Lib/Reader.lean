import Mathlib

/-! Readers that take characters off the front of a text, or fail and take none. -/
namespace PJS

abbrev Reader (α : Type) := StateT (List Char) Option α

namespace Reader
variable {α β : Type}

/-- Take the given character. -/
def char (c : Char) : Reader Unit := fun cs =>
  match cs with
  | c' :: rest => if c' = c then some ((), rest) else none
  | [] => none

/-- Take characters while `p` holds, possibly none. -/
def takeWhile (p : Char → Bool) : Reader (List Char) := fun cs =>
  some (cs.takeWhile p, cs.dropWhile p)

/-- Try the first reader, then the second at the same place. -/
def either (r r' : Reader α) : Reader α := fun cs =>
  match r cs with
  | some x => some x
  | none => r' cs

/-- Read everything or fail. -/
def all (r : Reader α) (cs : List Char) : Option α :=
  match r cs with
  | some (a, []) => some a
  | _ => none

/-- What the reader takes is made of such characters. -/
def Takes (ok : Char → Prop) (r : Reader α) : Prop :=
  ∀ cs a rest, r cs = some (a, rest) → ∃ used, cs = used ++ rest ∧ ∀ c ∈ used, ok c

variable {ok : Char → Prop}

theorem takes_pure (a : α) : Takes ok (pure a) := by
  rintro cs b rest h
  cases h
  exact ⟨[], rfl, by simp⟩

theorem takes_failure : Takes ok (failure : Reader α) := by
  intro cs a rest h
  cases h

theorem Takes.bind {r : Reader α} {f : α → Reader β} (hr : Takes ok r) (hf : ∀ a, Takes ok (f a)) :
    Takes ok (r >>= f) := by
  intro cs b rest h
  obtain ⟨⟨a, mid⟩, ha, hb⟩ := Option.bind_eq_some_iff.mp h
  obtain ⟨used, rfl, hused⟩ := hr cs a mid ha
  obtain ⟨used', rfl, hused'⟩ := hf a mid b rest hb
  refine ⟨used ++ used', by rw [List.append_assoc], fun c hc => ?_⟩
  rcases List.mem_append.mp hc with hc | hc
  · exact hused c hc
  · exact hused' c hc

theorem Takes.map {r : Reader α} (hr : Takes ok r) (f : α → β) : Takes ok (f <$> r) := by
  rw [map_eq_pure_bind]
  exact hr.bind fun a => takes_pure (f a)

theorem Takes.either {r r' : Reader α} (hr : Takes ok r) (hr' : Takes ok r') :
    Takes ok (either r r') := by
  intro cs a rest h
  rw [Reader.either] at h
  cases hc : r cs with
  | none =>
    rw [hc] at h
    exact hr' cs a rest h
  | some x =>
    rw [hc] at h
    cases h
    exact hr cs a rest hc

theorem takes_char {c : Char} (hc : ok c) : Takes ok (char c) := by
  intro cs a rest h
  cases cs with
  | nil => cases h
  | cons c' cs =>
    rw [char] at h
    split_ifs at h with heq
    cases h
    exact ⟨[c'], rfl, by simpa [heq] using hc⟩

theorem takes_takeWhile {p : Char → Bool} (hp : ∀ c, p c = true → ok c) :
    Takes ok (takeWhile p) := by
  intro cs a rest h
  cases h
  exact ⟨cs.takeWhile p, List.takeWhile_append_dropWhile.symm,
    fun c hc => hp c (List.mem_takeWhile_imp hc)⟩

theorem forall_mem_of_all {r : Reader α} (hr : Takes ok r) {cs : List Char} {a : α}
    (h : r.all cs = some a) : ∀ c ∈ cs, ok c := by
  unfold all at h
  split at h
  · rename_i b hb
    obtain ⟨used, rfl, hused⟩ := hr cs b [] hb
    rwa [List.append_nil]
  · cases h

end Reader

end PJS
