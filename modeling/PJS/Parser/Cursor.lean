import PJS.Parser.Scan

/-! The cursor follows the scanner: where the scanner returns a value the cursor returns it and has
moved over what was consumed, and where the scanner fails the cursor returns an error and stays
within the input. A panic or an exhausted budget is not an error, so neither happens. -/
namespace PJS.ZeroCopyParser
open Check
open JsonText (quote backslash comma colon openBrace closeBrace openBracket closeBracket
  isWhitespace isDigit hexDigit hex4 simpleEscape)

section States

/-- What is left of the input at the cursor. -/
def rest (s : ZeroCopyParser) : List UInt8 := s.input.drop s.position

def moved (s : ZeroCopyParser) (n : ℕ) : ZeroCopyParser := { s with position := s.position + n }

/-- The cursor stands in the input, with so many levels of nesting to go. -/
structure Ready (levels : ℕ) (s : ZeroCopyParser) : Prop where
  inside : s.position ≤ s.input.length
  levels : s.depth + levels = s.limits.maxDepth

/-- Where a failure may leave the cursor: never before where it started, at most one byte past the
end, and never too deep. -/
structure Within (s t : ZeroCopyParser) : Prop where
  input : t.input = s.input
  limits : t.limits = s.limits
  forward : s.position ≤ t.position
  position : t.position ≤ s.input.length + 1
  depth : t.depth ≤ s.limits.maxDepth

variable {s t : ZeroCopyParser} {levels n : ℕ} {text w : List UInt8}

theorem rest_moved (h : s.rest = text ++ w) : (s.moved text.length).rest = w := by
  unfold rest at h
  show s.input.drop (s.position + text.length) = w
  rw [← List.drop_drop, h, List.drop_left]

theorem length_rest (s : ZeroCopyParser) : s.rest.length = s.input.length - s.position :=
  List.length_drop

theorem Ready.moved (hs : s.Ready levels) (h : s.rest = text ++ w) :
    (s.moved text.length).Ready levels := by
  have hlen := congrArg List.length h
  rw [length_rest, List.length_append] at hlen
  have hin := hs.inside
  constructor
  · show s.position + text.length ≤ s.input.length
    omega
  · exact hs.levels

theorem moved_moved (s : ZeroCopyParser) (m n : ℕ) : (s.moved m).moved n = s.moved (m + n) := by
  unfold ZeroCopyParser.moved
  simp only [Nat.add_assoc]

theorem Ready.within (hs : s.Ready levels) : Within s s := by
  have hin := hs.inside
  have hlv := hs.levels
  exact ⟨rfl, rfl, le_rfl, by omega, by omega⟩

theorem Within.of_moved (h : Within (s.moved n) t) : Within s t :=
  ⟨h.input, h.limits, le_trans (Nat.le_add_right _ _) h.forward, h.position, h.depth⟩

end States

section Follows
variable {α β : Type}

/-- From this state the cursor does what the scanner does. -/
def Follows (f : Parser α) (g : Scan α) (s : ZeroCopyParser) : Prop :=
  match g s.rest with
  | some (a, w) => ∃ text, s.rest = text ++ w ∧ exec f s = (.ok a, s.moved text.length)
  | none => ∃ e t, exec f s = (.error (.error e), t) ∧ Within s t

/-- With so many levels to go, the cursor does what the scanner does. -/
def Tracks (levels : ℕ) (f : Parser α) (g : Scan α) : Prop :=
  ∀ s : ZeroCopyParser, s.Ready levels → Follows f g s

variable {s : ZeroCopyParser} {levels : ℕ} {f : Parser α} {g : Scan α}

theorem Follows.of_some {a : α} {text w : List UInt8} (hg : g s.rest = some (a, w))
    (hw : s.rest = text ++ w) (hf : exec f s = (.ok a, s.moved text.length)) : Follows f g s := by
  unfold Follows
  rw [hg]
  exact ⟨text, hw, hf⟩

theorem Follows.of_none {e : ParseError} {t : ZeroCopyParser} (hg : g s.rest = none)
    (hf : exec f s = (.error (.error e), t)) (ht : Within s t) : Follows f g s := by
  unfold Follows
  rw [hg]
  exact ⟨e, t, hf, ht⟩

theorem Follows.eq_ok {a : α} {w : List UInt8} (h : Follows f g s) (hg : g s.rest = some (a, w)) :
    ∃ text, s.rest = text ++ w ∧ exec f s = (.ok a, s.moved text.length) := by
  unfold Follows at h
  rwa [hg] at h

theorem Follows.eq_error (h : Follows f g s) (hg : g s.rest = none) :
    ∃ e t, exec f s = (.error (.error e), t) ∧ Within s t := by
  unfold Follows at h
  rwa [hg] at h

theorem Follows.bind {h : α → Parser β} {k : α → Scan β} (hs : s.Ready levels)
    (hf : Follows f g s)
    (hk : ∀ a t, t.Ready levels → g s.rest = some (a, t.rest) → Follows (h a) (k a) t) :
    Follows (f >>= h) (g >>= k) s := by
  have happ : (g >>= k) s.rest = (g s.rest).bind fun r => k r.1 r.2 := rfl
  cases hg : g s.rest with
  | none =>
    obtain ⟨e, t, he, ht⟩ := hf.eq_error hg
    refine .of_none (e := e) (t := t) ?_ ?_ ht
    · rw [happ, hg, Option.bind_none]
    · rw [exec_bind, he]
  | some r =>
    obtain ⟨a, w⟩ := r
    obtain ⟨text, hw, he⟩ := hf.eq_ok hg
    have hrest := rest_moved hw
    have hnext := hk a (s.moved text.length) (hs.moved hw) (by rw [hrest, hg])
    rw [hg, Option.bind_some] at happ
    cases hk' : k a w with
    | none =>
      obtain ⟨e, t, he', ht⟩ := hnext.eq_error (by rw [hrest, hk'])
      refine .of_none (e := e) (t := t) ?_ ?_ ht.of_moved
      · rw [happ, hk']
      · rw [exec_bind, he]
        exact he'
    | some q =>
      obtain ⟨b, w'⟩ := q
      obtain ⟨text', hw', he'⟩ := hnext.eq_ok (by rw [hrest, hk'])
      rw [hrest] at hw'
      have htext : (s.rest : List UInt8) = (text ++ text') ++ w' := by
        rw [hw, hw', List.append_assoc]
      refine .of_some (by rw [happ, hk']) htext ?_
      · rw [exec_bind, he]
        show exec (h a) (s.moved text.length) = _
        rw [he', moved_moved, List.length_append]

theorem Tracks.bind {h : α → Parser β} {k : α → Scan β} (hf : Tracks levels f g)
    (hk : ∀ a, Tracks levels (h a) (k a)) : Tracks levels (f >>= h) (g >>= k) :=
  fun s hs => (hf s hs).bind hs fun a t ht _ => hk a t ht

theorem tracks_pure (a : α) : Tracks levels (pure a : Parser α) (pure a) :=
  fun s _ => .of_some rfl (List.nil_append s.rest).symm rfl

theorem tracks_throw (e : ParseError) : Tracks levels (throw (.error e) : Parser α) Scan.fail :=
  fun _ hs => .of_none rfl rfl hs.within

theorem Tracks.ite {c : Prop} [Decidable c] {f' : Parser α} {g' : Scan α}
    (hf : Tracks levels f g) (hf' : Tracks levels f' g') :
    Tracks levels (if c then f else f') (if c then g else g') := by
  split
  · exact hf
  · exact hf'

end Follows

end PJS.ZeroCopyParser
