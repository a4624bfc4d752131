import PJS.Parser.Tracking

/-! Totality of the parser, and what it returns for a container or a number: the slice it has
consumed, which parses to itself. -/
namespace PJS
open Check
open JsonText (quote backslash isWhitespace Blank)

/-- The bytes of the lazy variants that are parsed again. -/
def LazyJsonValue.slice? : LazyJsonValue → Option (List UInt8)
  | .objectSlice bytes | .arraySlice bytes | .numberSlice bytes => some bytes
  | .stringBorrowed _ | .stringOwned _ | .boolean _ | .null => none

namespace ZeroCopyParser
variable (utf8Error : List UInt8 → String) {s t : ZeroCopyParser} {input : List UInt8}
  {v : LazyJsonValue}

/-- The state in which `parse_lazy` starts on its input. -/
def loaded (s : ZeroCopyParser) (input : List UInt8) : ZeroCopyParser :=
  { s with input, position := 0, depth := 0 }

theorem loaded_ready (s : ZeroCopyParser) (input : List UInt8) :
    (s.loaded input).Ready s.limits.maxDepth :=
  ⟨Nat.zero_le _, Nat.zero_add _⟩

theorem exec_parseLazy (hsize : input.length ≤ s.limits.maxInputSize) :
    exec (parseLazy utf8Error input) s =
      exec (parseValue utf8Error s.limits.maxDepth) (s.loaded input) := by
  unfold parseLazy
  rw [exec_bind, exec_get]
  simp only
  rw [if_neg (by omega)]
  rfl

/-- What `parse_lazy` answers, by the scanner: the value and the state after what was consumed. -/
theorem parseLazy_of_some {w : List UInt8} (hsize : input.length ≤ s.limits.maxInputSize)
    (h : Scan.value s.limits.maxDepth input = some (v, w)) :
    ∃ text, input = text ++ w ∧
      exec (parseLazy utf8Error input) s = (.ok v, (s.loaded input).moved text.length) := by
  have hfollows := tracks_value utf8Error s.limits.maxDepth (s.loaded input) (loaded_ready s input)
  obtain ⟨text, hw, he⟩ := hfollows.eq_ok h
  exact ⟨text, hw, (exec_parseLazy utf8Error hsize).trans he⟩

theorem parseLazy_of_none (hsize : input.length ≤ s.limits.maxInputSize)
    (h : Scan.value s.limits.maxDepth input = none) :
    ∃ e t, exec (parseLazy utf8Error input) s = (.error (.error e), t) ∧
      Within (s.loaded input) t := by
  have hfollows := tracks_value utf8Error s.limits.maxDepth (s.loaded input) (loaded_ready s input)
  obtain ⟨e, t, he, ht⟩ := hfollows.eq_error h
  exact ⟨e, t, (exec_parseLazy utf8Error hsize).trans he, ht⟩

theorem parseLazy_too_large (hsize : s.limits.maxInputSize < input.length) :
    ∃ e, exec (parseLazy utf8Error input) s = (.error (.error e), s) := by
  unfold parseLazy
  rw [exec_bind, exec_get]
  simp only
  rw [if_pos hsize]
  exact ⟨_, rfl⟩

/-- A value is returned only for a text of the grammar, after white space. -/
theorem parseLazy_ok (h : exec (parseLazy utf8Error input) s = (.ok v, t)) :
    input.length ≤ s.limits.maxInputSize ∧ ∃ ws text w, input = ws ++ (text ++ w) ∧ Blank ws ∧
      Scan.Accepted s.limits.maxDepth text ∧ Scan.lazyOf text = some v ∧
      t = (s.loaded input).moved (ws.length + text.length) := by
  rcases Nat.lt_or_ge s.limits.maxInputSize input.length with hsize | hsize
  · obtain ⟨e, he⟩ := parseLazy_too_large utf8Error hsize
    rw [he] at h
    cases h
  refine ⟨hsize, ?_⟩
  cases hscan : Scan.value s.limits.maxDepth input with
  | none =>
    obtain ⟨e, t', he, -⟩ := parseLazy_of_none utf8Error hsize hscan
    rw [he] at h
    cases h
  | some q =>
    obtain ⟨v', w⟩ := q
    obtain ⟨used, hused, he⟩ := parseLazy_of_some utf8Error hsize hscan
    rw [he] at h
    cases h
    obtain ⟨ws, u, hw, hws, text, rfl, htext, hv⟩ := Scan.value_sound hscan
    refine ⟨ws, text, w, hw, hws, htext, hv, ?_⟩
    have hlen : used = ws ++ text := by
      rw [hw, ← List.append_assoc] at hused
      exact (List.append_cancel_right hused).symm
    rw [hlen, List.length_append]

/-- A text of the grammar is parsed, with white space before it and something that may follow
after it. -/
theorem parseLazy_accepted {ws text w : List UInt8}
    (hsize : (ws ++ (text ++ w)).length ≤ s.limits.maxInputSize) (hws : Blank ws)
    (h : Scan.Accepted s.limits.maxDepth text) (hv : Scan.lazyOf text = some v)
    (hw : ∀ b ∈ w.head?, Scan.Follower b) :
    exec (parseLazy utf8Error (ws ++ (text ++ w))) s =
      (.ok v, (s.loaded (ws ++ (text ++ w))).moved (ws.length + text.length)) := by
  have hscan : Scan.value s.limits.maxDepth (ws ++ (text ++ w)) = some (v, w) := by
    rw [Scan.value_blank hws]
    exact Scan.value_complete h v w hv hw
  obtain ⟨used, hused, he⟩ := parseLazy_of_some utf8Error hsize hscan
  have hlen : used = ws ++ text := by
    rw [← List.append_assoc] at hused
    exact (List.append_cancel_right hused).symm
  rw [he, hlen, List.length_append]

theorem remaining_eq_rest (s : ZeroCopyParser) : s.remaining = s.rest := by
  unfold remaining
  split_ifs with h
  · rfl
  · exact (rest_eq_nil_iff.mpr (not_lt.mp h)).symm

theorem remaining_moved {text w : List UInt8} (s : ZeroCopyParser) :
    ((s.loaded (text ++ w)).moved text.length).remaining = w := by
  rw [remaining_eq_rest]
  exact @rest_moved (s.loaded (text ++ w)) text w rfl

/-- A slice is the text it was returned for. -/
theorem slice_eq {text slice : List UInt8} (hv : Scan.lazyOf text = some v)
    (hslice : v.slice? = some slice) : slice = text := by
  have hbody : ∀ body, Scan.readBody body = some v → v.slice? = none := by
    intro body h
    unfold Scan.readBody at h
    split_ifs at h
    · obtain ⟨cs, -, rfl⟩ := Option.map_eq_some_iff.mp h
      rfl
    · cases h
      rfl
  cases text with
  | nil => cases hv
  | cons b rest =>
    unfold Scan.lazyOf at hv
    simp only at hv
    split_ifs at hv
    · rw [hbody _ hv] at hslice
      cases hslice
    -- a container, a boolean or null, a number
    · cases hv
      exact (Option.some.inj hslice).symm
    · cases hv
      exact (Option.some.inj hslice).symm
    · cases hv
      cases hslice
    · cases hv
      cases hslice
    · cases hv
      cases hslice
    · cases hv
      exact (Option.some.inj hslice).symm

/-- The state after any number of earlier parses. -/
def after (limits : JsonLimits) (inputs : List (List UInt8)) : ZeroCopyParser :=
  inputs.foldl (fun s input => (exec (parseLazy utf8Error input) s).2) (.new limits)

/-- The cursor is in its input or one byte past the end, and no deeper than configured. -/
structure Bounded (limits : JsonLimits) (s : ZeroCopyParser) : Prop where
  limits_eq : s.limits = limits
  position : s.position ≤ s.input.length + 1
  depth : s.depth ≤ limits.maxDepth

theorem Bounded.parseLazy {limits : JsonLimits} (hs : Bounded limits s) (input : List UInt8) :
    Bounded limits (exec (parseLazy utf8Error input) s).2 := by
  obtain ⟨rfl, hposition, hdepth⟩ := hs
  rcases Nat.lt_or_ge s.limits.maxInputSize input.length with hsize | hsize
  · obtain ⟨e, he⟩ := parseLazy_too_large utf8Error hsize
    rw [he]
    exact ⟨rfl, hposition, hdepth⟩
  cases hscan : Scan.value s.limits.maxDepth input with
  | none =>
    obtain ⟨e, t, he, ht⟩ := parseLazy_of_none utf8Error hsize hscan
    rw [he]
    refine ⟨ht.limits, ?_, ht.depth⟩
    rw [ht.input]
    exact ht.position
  | some q =>
    obtain ⟨v, w⟩ := q
    obtain ⟨used, hused, he⟩ := parseLazy_of_some utf8Error hsize hscan
    rw [he]
    refine ⟨rfl, ?_, Nat.zero_le _⟩
    have hlen := congrArg List.length hused
    rw [List.length_append] at hlen
    show 0 + used.length ≤ input.length + 1
    omega

theorem bounded_after (limits : JsonLimits) (inputs : List (List UInt8)) :
    Bounded limits (after utf8Error limits inputs) := by
  have hfold : ∀ (inputs : List (List UInt8)) (s : ZeroCopyParser), Bounded limits s →
      Bounded limits (inputs.foldl (fun s input => (exec (parseLazy utf8Error input) s).2) s) := by
    intro inputs
    induction inputs with
    | nil => exact fun s hs => hs
    | cons input inputs ih => exact fun s hs => ih _ (hs.parseLazy utf8Error input)
  exact hfold inputs _ ⟨rfl, Nat.zero_le _, Nat.zero_le _⟩

/-- A slice that was returned is what was consumed after white space, and parses to itself. -/
theorem parseLazy_slice {slice : List UInt8}
    (h : exec (parseLazy utf8Error input) s = (.ok v, t)) (hslice : v.slice? = some slice) :
    input = input.takeWhile isWhitespace ++ (slice ++ t.remaining) ∧
      t.position = (input.takeWhile isWhitespace).length + slice.length ∧
      ∀ s' : ZeroCopyParser, s'.limits = s.limits → ∃ t',
        exec (parseLazy utf8Error slice) s' = (.ok v, t') ∧ t'.position = slice.length ∧
          t'.remaining = [] := by
  obtain ⟨hsize, ws, text, w, rfl, hws, htext, hv, rfl⟩ := parseLazy_ok utf8Error h
  obtain rfl := slice_eq hv hslice
  obtain ⟨b, rest, hb, hblank, -⟩ := Scan.Accepted.head htext
  have htake : (ws ++ (slice ++ w)).takeWhile isWhitespace = ws := by
    rw [List.takeWhile_append_of_pos hws, hb, List.cons_append,
      List.takeWhile_cons_of_neg (by rw [hblank]; exact Bool.false_ne_true), List.append_nil]
  have hremaining : ((s.loaded (ws ++ (slice ++ w))).moved (ws.length + slice.length)).remaining =
      w := by
    rw [← List.append_assoc, ← List.length_append]
    exact remaining_moved s
  rw [htake, hremaining]
  refine ⟨rfl, Nat.zero_add _, fun s' hs' => ?_⟩
  rw [← hs'] at hsize htext
  have hsize' : ([] ++ (slice ++ [])).length ≤ s'.limits.maxInputSize := by
    simp only [List.length_append, List.length_nil] at hsize ⊢
    omega
  have hexec := parseLazy_accepted utf8Error hsize' nofun htext hv nofun
  rw [List.nil_append, List.append_nil] at hexec
  refine ⟨_, hexec, ?_, ?_⟩
  · show 0 + ([].length + slice.length) = slice.length
    rw [List.length_nil]
    omega
  · have hend := @remaining_moved slice [] s'
    rw [List.append_nil] at hend
    rw [List.length_nil, Nat.zero_add]
    exact hend

/-- A value is read forwards, and inside the input. -/
theorem within_parseValue {levels : ℕ} (hs : s.Ready levels) :
    Within s (exec (parseValue utf8Error levels) s).2 := by
  have hfollows := tracks_value utf8Error levels s hs
  cases hscan : Scan.value levels s.rest with
  | none =>
    obtain ⟨e, t, he, ht⟩ := hfollows.eq_error hscan
    rw [he]
    exact ht
  | some q =>
    obtain ⟨text, hw, he⟩ := hfollows.eq_ok (a := q.1) (w := q.2) hscan
    have hmoved := (hs.moved hw).within
    rw [he]
    exact hmoved.of_moved

/-- `parse_lazy` on any input, from the state that any earlier parses left: it returns a value or
an error of the parser, and neither panics nor needs more levels of recursion than configured; the
cursor stays where it may be, and in every value read, nested or not, it only moves forward; and a
slice that is returned is what was consumed, and parses to itself. -/
theorem parse_lazy_total (limits : JsonLimits) (earlier : List (List UInt8)) (input : List UInt8) :
    ((∃ v, (exec (parseLazy utf8Error input) (after utf8Error limits earlier)).1 = .ok v) ∨
      ∃ e, (exec (parseLazy utf8Error input) (after utf8Error limits earlier)).1 =
        .error (.error e)) ∧
    Bounded limits (exec (parseLazy utf8Error input) (after utf8Error limits earlier)).2 ∧
    (∀ (levels : ℕ) (s : ZeroCopyParser), s.Ready levels →
      Within s (exec (parseValue utf8Error levels) s).2) ∧
    ∀ v t slice, exec (parseLazy utf8Error input) (after utf8Error limits earlier) = (.ok v, t) →
      v.slice? = some slice →
      input = input.takeWhile isWhitespace ++ (slice ++ t.remaining) ∧
      t.position = (input.takeWhile isWhitespace).length + slice.length ∧
      ∀ s' : ZeroCopyParser, s'.limits = limits → ∃ t',
        exec (parseLazy utf8Error slice) s' = (.ok v, t') ∧ t'.position = slice.length ∧
          t'.remaining = [] := by
  have hbounded := bounded_after utf8Error limits earlier
  generalize after utf8Error limits earlier = s at hbounded
  obtain ⟨rfl, -, -⟩ := id hbounded
  refine ⟨?_, hbounded.parseLazy utf8Error input, fun _ _ hs => within_parseValue utf8Error hs,
    fun v t slice h hslice => parseLazy_slice utf8Error h hslice⟩
  rcases Nat.lt_or_ge s.limits.maxInputSize input.length with hsize | hsize
  · obtain ⟨e, he⟩ := parseLazy_too_large utf8Error hsize
    exact Or.inr ⟨e, by rw [he]⟩
  cases hscan : Scan.value s.limits.maxDepth input with
  | none =>
    obtain ⟨e, t, he, -⟩ := parseLazy_of_none utf8Error hsize hscan
    exact Or.inr ⟨e, by rw [he]⟩
  | some q =>
    obtain ⟨used, -, he⟩ := parseLazy_of_some utf8Error hsize hscan
    exact Or.inl ⟨q.1, by rw [he]⟩

/-- The text `[1,2]` after a blank and before a stray byte, to a parser that an unclosed `[` has
stopped before. -/
theorem parse_lazy_total_array :
    let slice : List UInt8 := [0x5B, 0x31, 0x2C, 0x32, 0x5D]
    let input := 0x20 :: (slice ++ [0x78])
    let s := after (fun _ => "") ⟨100, 8⟩ [[0x5B]]
    s.position = 1 ∧ ∃ t, exec (parseLazy (fun _ => "") input) s = (.ok (.arraySlice slice), t) ∧
      t.position = 6 ∧ t.remaining = [0x78] ∧
      ∃ t', exec (parseLazy (fun _ => "") slice) t = (.ok (.arraySlice slice), t') ∧
        t'.remaining = [] := by
  intro slice input s
  obtain ⟨-, hbounded, -, hslice⟩ := parse_lazy_total (fun _ => "") ⟨100, 8⟩ [[0x5B]] input
  have hexec : exec (parseLazy (fun _ => "") input) s =
      (.ok (.arraySlice slice), (s.loaded input).moved 6) := by decide +kernel
  rw [hexec] at hbounded
  obtain ⟨hinput, hposition, hagain⟩ := hslice _ _ slice hexec rfl
  obtain ⟨t', hexec', -, hend⟩ := hagain _ hbounded.limits_eq
  exact ⟨by decide +kernel, _, hexec, rfl, rfl, t', hexec', hend⟩

end ZeroCopyParser
end PJS
