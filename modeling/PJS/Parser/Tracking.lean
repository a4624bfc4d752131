import PJS.Parser.Cursor
import PJS.Parser.Grammar
import PJS.Parser.Unescape

/-! Every function of the parser follows its scanner, so a parse never panics and never runs out
of its budget. -/
namespace PJS.ZeroCopyParser
open Check
open JsonText (quote backslash comma colon openBrace closeBrace openBracket closeBracket
  isWhitespace isDigit)

variable {α β : Type} {s : ZeroCopyParser} {levels : ℕ}

section Primitives

theorem rest_eq_nil_iff : s.rest = [] ↔ s.input.length ≤ s.position := List.drop_eq_nil_iff

theorem getElem_of_rest {b : UInt8} {w : List UInt8} (h : s.rest = b :: w) :
    s.input[s.position]? = some b := by
  rw [← List.head?_drop]
  exact congrArg List.head? h

theorem exec_current {b : UInt8} {w : List UInt8} (h : s.rest = b :: w) :
    exec current s = (.ok b, s) := by
  unfold current
  rw [exec_bind, exec_get]
  simp only [getElem_of_rest h]
  rfl

theorem exec_atEnd (s : ZeroCopyParser) : exec atEnd s = (.ok s.rest.isEmpty, s) := by
  have hend : s.rest.isEmpty = decide (s.input.length ≤ s.position) := by
    rw [Bool.eq_iff_iff, decide_eq_true_iff, List.isEmpty_iff, rest_eq_nil_iff]
  rw [hend]
  rfl

theorem exec_nextIs (p : UInt8 → Bool) (s : ZeroCopyParser) :
    exec (nextIs p) s = (.ok (s.rest.head?.any p), s) := by
  unfold nextIs
  rw [exec_bind, exec_atEnd]
  cases hr : s.rest with
  | nil => rfl
  | cons b w =>
    show exec (current >>= fun b => pure (p b)) s = _
    rw [exec_bind, exec_current hr]
    rfl

theorem exec_advance (n : ℕ) (s : ZeroCopyParser) : exec (advance n) s = (.ok (), s.moved n) := rfl

theorem rest_moved_one {b : UInt8} {w : List UInt8} (h : s.rest = b :: w) :
    (s.moved 1).rest = w :=
  @rest_moved s [b] w h

theorem exec_skipLoop (p : UInt8 → Bool) (fuel : ℕ) (s : ZeroCopyParser)
    (hf : s.rest.length < fuel) :
    exec (skipLoop p fuel) s = (.ok (), s.moved (s.rest.takeWhile p).length) := by
  induction fuel generalizing s with
  | zero => omega
  | succ fuel ih =>
    unfold skipLoop
    rw [exec_bind, exec_nextIs]
    cases hr : s.rest with
    | nil => rfl
    | cons b w =>
      rw [hr, List.length_cons] at hf
      have hnext := rest_moved_one hr
      cases hp : p b with
      | false =>
        rw [List.takeWhile_cons_of_neg (by rw [hp]; exact Bool.false_ne_true)]
        simp only [List.head?_cons, Option.any_some, hp]
        rfl
      | true =>
        rw [List.takeWhile_cons_of_pos hp]
        simp only [List.head?_cons, Option.any_some, hp, if_true]
        rw [exec_bind, exec_advance]
        simp only
        rw [ih (s.moved 1) (by rw [hnext]; omega), hnext, moved_moved, List.length_cons,
          Nat.add_comm]

theorem tracks_skipWhile (p : UInt8 → Bool) : Tracks levels (skipWhile p) (Scan.skipWhile p) := by
  intro s hs
  have hsplit : s.rest = s.rest.takeWhile p ++ s.rest.dropWhile p :=
    List.takeWhile_append_dropWhile.symm
  refine .of_some rfl hsplit ?_
  have hlen := length_rest s
  unfold skipWhile
  rw [exec_bind]
  exact exec_skipLoop p (s.input.length + 1) s (by omega)

theorem tracks_skipWhitespace : Tracks levels skipWhitespace Scan.skipWhitespace :=
  tracks_skipWhile isWhitespace

/-- After a look at the next byte the cursor stands where it did. -/
theorem follows_nextIs_bind {p : UInt8 → Bool} {k : Bool → Parser α} {k' : Bool → Scan α}
    (h : Follows (k (s.rest.head?.any p)) (k' (s.rest.head?.any p)) s) :
    Follows (nextIs p >>= k) (Scan.nextIs p >>= k') s := by
  unfold Follows at h ⊢
  rw [Scan.nextIs_bind, exec_bind, exec_nextIs]
  exact h

theorem follows_advance {n : ℕ} (h : n ≤ s.rest.length) : Follows (advance n) (Scan.take n) s := by
  refine .of_some (if_pos h) (List.take_append_drop n s.rest).symm ?_
  rw [List.length_take, min_eq_left h]
  rfl

theorem follows_advance_one {b : UInt8} {w : List UInt8} (h : s.rest = b :: w) :
    Follows (advance 1) (Scan.take 1) s :=
  follows_advance (by rw [h, List.length_cons]; omega)

theorem exists_of_any {p : UInt8 → Bool} {w : List UInt8} (h : w.head?.any p = true) :
    ∃ b w', w = b :: w' ∧ p b = true := by
  cases w with
  | nil => cases h
  | cons b w => exact ⟨b, w, rfl, h⟩

theorem tracks_expectChar (ch : UInt8) : Tracks levels (expectChar ch) (Scan.expect ch) := by
  intro s hs
  refine follows_nextIs_bind ?_
  cases hnext : s.rest.head?.any (· == ch) with
  | true =>
    obtain ⟨b, w, hr, -⟩ := exists_of_any hnext
    exact follows_advance_one hr
  | false => exact tracks_throw _ s hs

end Primitives

section Leaves
variable (utf8Error : List UInt8 → String)

/-- The slice grows by what the cursor moves over. -/
theorem slice_moved {start : ℕ} {text w : List UInt8} (hstart : start ≤ s.position)
    (h : s.rest = text ++ w) (hin : s.position ≤ s.input.length) :
    (s.input.take (s.position + text.length)).drop start =
      (s.input.take s.position).drop start ++ text := by
  have htake : s.input.take (s.position + text.length) = s.input.take s.position ++ text := by
    rw [List.take_add, show s.input.drop s.position = text ++ w from h, List.take_left]
  rw [htake, List.drop_append_of_le_length]
  rw [List.length_take]
  omega

theorem exec_sliceFrom {start : ℕ} (hstart : start ≤ s.position)
    (hin : s.position ≤ s.input.length) :
    exec (sliceFrom start) s = (.ok ((s.input.take s.position).drop start), s) := by
  unfold sliceFrom
  rw [exec_bind, exec_get]
  simp only
  rw [if_pos ⟨hstart, hin⟩]
  rfl

theorem position_lt {b : UInt8} {w : List UInt8} (h : s.rest = b :: w) :
    s.position < s.input.length := by
  have hlen := length_rest s
  rw [h, List.length_cons] at hlen
  omega

/-- What the end of a string makes of its body. -/
theorem exec_readBody (body : List UInt8) (s : ZeroCopyParser) :
    Answers (exec (do
        if body.contains backslash then
          let unescaped ← ofExcept (unescapeString utf8Error body)
          pure (.stringOwned unescaped)
        else pure (.stringBorrowed body) : Parser LazyJsonValue) s).1 (Scan.readBody body) ∧
      (exec (do
        if body.contains backslash then
          let unescaped ← ofExcept (unescapeString utf8Error body)
          pure (.stringOwned unescaped)
        else pure (.stringBorrowed body) : Parser LazyJsonValue) s).2 = s := by
  unfold Scan.readBody
  have hanswers := unescapeString_answers utf8Error body
  split_ifs with hescape
  · cases hu : Scan.unescapeString body with
    | none =>
      obtain ⟨e, he⟩ := hanswers.eq_error hu
      rw [he]
      exact ⟨⟨e, rfl⟩, rfl⟩
    | some t =>
      rw [hanswers.eq_ok hu]
      exact ⟨rfl, rfl⟩
  · exact ⟨rfl, rfl⟩

/-- The loop finds the closing quote that the scanner finds. Stepping over an escape it may step
past the end. -/
theorem stringLoop_follows {start : ℕ} (fuel : ℕ) (hstart : start ≤ s.position)
    (hin : s.position ≤ s.input.length + 1) (hdepth : s.depth ≤ s.limits.maxDepth)
    (hf : s.rest.length < fuel) :
    match Scan.closeQuote s.rest with
    | some (body, w) => ∃ text, s.rest = text ++ w ∧
        ∃ r, Answers r (Scan.readBody ((s.input.take s.position).drop start ++ body)) ∧
          exec (stringLoop utf8Error start fuel) s = (r, s.moved text.length)
    | none => ∃ e t, exec (stringLoop utf8Error start fuel) s = (.error (.error e), t) ∧
        Within s t := by
  induction fuel generalizing s with
  | zero => omega
  | succ fuel ih =>
    unfold stringLoop
    rw [exec_bind, exec_atEnd]
    cases hr : s.rest with
    | nil => exact ⟨_, s, rfl, rfl, rfl, le_rfl, hin, hdepth⟩
    | cons b w =>
      have hlt := position_lt hr
      have hnext := rest_moved_one hr
      rw [hr, List.length_cons] at hf
      show match Scan.closeQuote (b :: w) with
        | some (body, w') => ∃ text, b :: w = text ++ w' ∧
            ∃ r, Answers r (Scan.readBody ((s.input.take s.position).drop start ++ body)) ∧
              exec (current >>= _) s = (r, s.moved text.length)
        | none => ∃ e t, exec (current >>= _) s = (.error (.error e), t) ∧ Within s t
      rw [exec_bind, exec_current hr]
      simp only
      by_cases hq : b = quote
      · subst hq
        rw [Scan.closeQuote_quote, if_pos rfl, exec_bind, exec_sliceFrom hstart hlt.le]
        simp only
        rw [exec_bind, exec_advance]
        simp only [List.append_nil]
        obtain ⟨hanswers, hstate⟩ := exec_readBody utf8Error
          ((s.input.take s.position).drop start) (s.moved 1)
        exact ⟨[quote], rfl, _, hanswers, Prod.ext rfl hstate⟩
      · by_cases hs : b = backslash
        · subst hs
          rw [if_neg hq, if_pos rfl, exec_bind, exec_advance]
          simp only
          cases w with
          | nil =>
            have hend : (s.moved 2).rest = [] := by
              rw [rest_eq_nil_iff] at hnext ⊢
              exact Nat.le_succ_of_le hnext
            have hrec := @ih (s.moved 2) (Nat.le_add_right_of_le hstart)
              (Nat.succ_le_succ hlt) hdepth (by rw [hend, List.length_nil]; omega)
            rw [hend] at hrec
            obtain ⟨e, t, he, ht⟩ := hrec
            exact ⟨e, t, he, ht.of_moved⟩
          | cons c w =>
            have hend : (s.moved 2).rest = w := @rest_moved s [backslash, c] w hr
            have hslice := @slice_moved s start [backslash, c] w hstart hr hlt.le
            have hlen := length_rest s
            rw [hr, List.length_cons, List.length_cons] at hlen
            rw [List.length_cons] at hf
            have hrec := @ih (s.moved 2) (Nat.le_add_right_of_le hstart)
              (show s.position + 2 ≤ s.input.length + 1 by omega) hdepth (by rw [hend]; omega)
            rw [hend] at hrec
            rw [Scan.closeQuote_escape]
            cases hclose : Scan.closeQuote w with
            | none =>
              rw [hclose] at hrec
              obtain ⟨e, t, he, ht⟩ := hrec
              exact ⟨e, t, he, ht.of_moved⟩
            | some q =>
              obtain ⟨body, w'⟩ := q
              rw [hclose] at hrec
              obtain ⟨text, rfl, r, hr', he⟩ := hrec
              refine ⟨backslash :: c :: text, rfl, r, ?_, ?_⟩
              · have hbody : (s.input.take (s.moved 2).position).drop start ++ body =
                    (s.input.take s.position).drop start ++ backslash :: c :: body := by
                  show (s.input.take (s.position + 2)).drop start ++ body = _
                  rw [show s.position + 2 = s.position + [backslash, c].length from rfl, hslice,
                    List.append_assoc]
                  rfl
                rw [← hbody]
                exact hr'
              · rw [he, moved_moved, List.length_cons, List.length_cons, Nat.add_comm]
        · rw [Scan.closeQuote_plain hq hs, if_neg hq, if_neg hs, exec_bind, exec_advance]
          simp only
          have hslice := @slice_moved s start [b] w hstart hr hlt.le
          have hrec := @ih (s.moved 1) (Nat.le_add_right_of_le hstart)
            (show s.position + 1 ≤ s.input.length + 1 by omega) hdepth (by rw [hnext]; omega)
          rw [hnext] at hrec
          cases hclose : Scan.closeQuote w with
          | none =>
            rw [hclose] at hrec
            obtain ⟨e, t, he, ht⟩ := hrec
            exact ⟨e, t, he, ht.of_moved⟩
          | some q =>
            obtain ⟨body, w'⟩ := q
            rw [hclose] at hrec
            obtain ⟨text, rfl, r, hr', he⟩ := hrec
            refine ⟨b :: text, rfl, r, ?_, ?_⟩
            · have hbody : (s.input.take (s.moved 1).position).drop start ++ body =
                  (s.input.take s.position).drop start ++ b :: body := by
                show (s.input.take (s.position + 1)).drop start ++ body = _
                rw [show s.position + 1 = s.position + [b].length from rfl, hslice,
                  List.append_assoc]
                rfl
              rw [← hbody]
              exact hr'
            · rw [he, moved_moved, List.length_cons, Nat.add_comm]

theorem follows_string (hs : s.Ready levels) {w : List UInt8} (hr : s.rest = quote :: w) :
    Follows (parseString utf8Error) Scan.string s := by
  have hlt := position_lt hr
  have hnext := rest_moved_one hr
  have hlen := length_rest s
  have hexec : exec (parseString utf8Error) s =
      exec (stringLoop utf8Error (s.position + 1) (s.input.length + 1)) (s.moved 1) := by
    unfold parseString
    rw [exec_bind, exec_nextIs, hr]
    rfl
  have hloop := @stringLoop_follows (s.moved 1) utf8Error (s.position + 1) (s.input.length + 1)
    le_rfl (show s.position + 1 ≤ s.input.length + 1 by omega)
    (show s.depth ≤ s.limits.maxDepth by have hlv := hs.levels; omega)
    (by rw [hnext]; rw [hr, List.length_cons] at hlen; omega)
  have hslice : (s.input.take (s.moved 1).position).drop (s.position + 1) = [] := by
    rw [List.drop_eq_nil_iff, List.length_take]
    exact Nat.min_le_left _ _
  have hscan : Scan.string (quote :: w) = (Scan.closeQuote w).bind fun r =>
      (Scan.readBody r.1).bind fun v => some (v, r.2) := rfl
  rw [hnext] at hloop
  cases hclose : Scan.closeQuote w with
  | none =>
    rw [hclose] at hloop
    obtain ⟨e, t, he, ht⟩ := hloop
    exact .of_none (by rw [hr, hscan, hclose]; rfl) (hexec.trans he) ht.of_moved
  | some q =>
    obtain ⟨body, w'⟩ := q
    rw [hclose] at hloop
    obtain ⟨text, rfl, r, hanswers, he⟩ := hloop
    rw [show (s.moved 1).input = s.input from rfl, hslice, List.nil_append] at hanswers
    have hready := @Ready.moved s levels (quote :: text) w' hs hr
    have htext : (s.moved 1).moved text.length = s.moved (quote :: text).length := by
      rw [moved_moved, Nat.add_comm]
      rfl
    rw [htext] at he
    cases hv : Scan.readBody body with
    | none =>
      obtain ⟨e, rfl⟩ := hanswers.eq_error hv
      refine .of_none (by rw [hr, hscan, hclose, Option.bind_some, hv]; rfl) (hexec.trans he) ?_
      exact hready.within.of_moved
    | some v =>
      obtain rfl := hanswers.eq_ok hv
      refine .of_some ?_ hr (hexec.trans he)
      rw [hr, hscan, hclose, Option.bind_some, hv]
      rfl

theorem exec_startsWith (text : List UInt8) (hs : s.Ready levels) :
    exec (startsWith text) s = (.ok (s.rest.take text.length == text), s) := by
  have hlen := length_rest s
  have hin := hs.inside
  have hbound : (s.rest.take text.length == text) = true →
      s.position + text.length ≤ s.input.length := by
    intro h
    have hle := congrArg List.length (eq_of_beq h)
    rw [List.length_take] at hle
    omega
  unfold startsWith
  rw [exec_bind, exec_get]
  show (Except.ok (decide (s.position + text.length ≤ s.input.length) &&
    (s.rest.take text.length == text)), s) = _
  cases h : s.rest.take text.length == text with
  | false => rw [Bool.and_false]
  | true => rw [decide_eq_true (hbound h), Bool.and_true]

/-- A literal is there as a whole or not at all. -/
theorem follows_literal {text : List UInt8} {v : LazyJsonValue} {f' : Parser LazyJsonValue}
    {g' : Scan LazyJsonValue} (hs : s.Ready levels) (h : Tracks levels f' g') :
    Follows (do
        if ← startsWith text then
          advance text.length
          pure v
        else f')
      (do
        if ← Scan.startsWith text then
          Scan.take text.length
          pure v
        else g') s := by
  have hstart : Follows (startsWith text) (Scan.startsWith text) s :=
    .of_some rfl (List.nil_append s.rest).symm (exec_startsWith text hs)
  refine hstart.bind hs fun b t ht hb => ?_
  have hb' : b = (t.rest.take text.length == text) := by
    simp only [Scan.startsWith, Option.some.injEq, Prod.mk.injEq] at hb
    rw [← hb.2, ← hb.1]
  by_cases hstarts : b = true
  · rw [if_pos hstarts, if_pos hstarts]
    refine Follows.bind ht (follows_advance ?_) fun _ t ht _ => tracks_pure v t ht
    have hle := congrArg List.length (eq_of_beq (hb'.symm.trans hstarts))
    rw [List.length_take] at hle
    omega
  · rw [if_neg hstarts, if_neg hstarts]
    exact h t ht

theorem tracks_boolean : Tracks levels parseBoolean Scan.boolean := fun _ hs =>
  follows_literal hs fun _ ht => follows_literal ht (tracks_throw _)

theorem tracks_null : Tracks levels parseNull Scan.null := fun _ hs =>
  follows_literal hs (tracks_throw _)

theorem follows_sign {b : UInt8} {w : List UInt8} (hs : s.Ready levels) (hr : s.rest = b :: w) :
    Follows parseSign Scan.sign s := by
  have hcurrent : Follows current Scan.current s :=
    .of_some (by rw [hr]; rfl) (List.nil_append s.rest).symm (exec_current hr)
  refine hcurrent.bind hs fun c t ht hc => ?_
  have hrest : t.rest = b :: w := by
    rw [hr] at hc
    simp only [Scan.current, Option.some.injEq, Prod.mk.injEq] at hc
    exact hc.2.symm
  split_ifs
  · exact follows_advance_one hrest
  · exact tracks_pure () t ht

/-- A look at the next byte, once there is one. -/
theorem tracks_dispatch {k : UInt8 → Parser α} {k' : UInt8 → Scan α} {e : ParseError}
    (h : ∀ s b w, s.Ready levels → s.rest = b :: w → Follows (k b) (k' b) s) :
    Tracks levels
      (do
        if ← atEnd then throw (.error e)
        else
          let b ← current
          k b)
      (do
        if ← Scan.atEnd then Scan.fail
        else
          let b ← Scan.current
          k' b) := by
  intro s hs
  cases hr : s.rest with
  | nil =>
    refine .of_none (e := e) ?_ ?_ hs.within
    · rw [hr]
      rfl
    · rw [exec_bind, exec_atEnd, hr]
      rfl
  | cons b w =>
    have hfollows := h s b w hs hr
    unfold Follows at hfollows ⊢
    have hexec : exec (do
        if ← atEnd then throw (.error e)
        else
          let b ← current
          k b) s = exec (k b) s := by
      rw [exec_bind, exec_atEnd, hr]
      show exec (current >>= k) s = _
      rw [exec_bind, exec_current hr]
    rw [hexec]
    rw [hr] at hfollows ⊢
    exact hfollows

theorem tracks_integer : Tracks levels parseInteger Scan.integer := by
  refine tracks_dispatch fun s b w hs hr => ?_
  split_ifs
  · exact follows_advance_one hr
  · exact tracks_skipWhile isDigit s hs
  · exact tracks_throw _ s hs

theorem tracks_digits (msg : String) : Tracks levels (parseDigits msg) Scan.digits := by
  intro s hs
  refine follows_nextIs_bind ?_
  split_ifs
  · exact tracks_skipWhile isDigit s hs
  · exact tracks_throw _ s hs

/-- Something optional that the next byte announces. -/
theorem tracks_optional {p : UInt8 → Bool} {f : Parser Unit} {g : Scan Unit}
    (h : Tracks levels f g) :
    Tracks levels
      (do
        if ← nextIs p then
          advance 1
          f
        else pure ())
      (do
        if ← Scan.nextIs p then
          Scan.take 1
          g
        else pure ()) := by
  intro s hs
  refine follows_nextIs_bind ?_
  cases hnext : s.rest.head?.any p with
  | true =>
    obtain ⟨b, w, hr, -⟩ := exists_of_any hnext
    exact Follows.bind hs (follows_advance_one hr) fun _ t ht _ => h t ht
  | false => exact tracks_pure () s hs

theorem tracks_fraction : Tracks levels parseFraction Scan.fraction :=
  tracks_optional (tracks_digits _)

theorem tracks_exponent : Tracks levels parseExponent Scan.exponent := by
  refine tracks_optional (Tracks.bind (fun s hs => ?_) fun _ => tracks_digits _)
  refine follows_nextIs_bind ?_
  cases hnext : s.rest.head?.any fun b => b == 0x2B || b == 0x2D with
  | true =>
    obtain ⟨b, w, hr, -⟩ := exists_of_any hnext
    exact follows_advance_one hr
  | false => exact tracks_pure () s hs

/-- What was moved over is the slice. -/
theorem Follows.slice {f : Parser Unit} {g : Scan Unit} (hs : s.Ready levels) (h : Follows f g s) :
    Follows (do
        let start ← currentPosition
        f
        sliceFrom start)
      (Scan.consumed g) s := by
  have hexec : exec (do
      let start ← currentPosition
      f
      sliceFrom start : Parser (List UInt8)) s = exec (do f; sliceFrom s.position) s := rfl
  cases hg : g s.rest with
  | none =>
    obtain ⟨e, t, he, ht⟩ := h.eq_error hg
    refine .of_none (e := e) ?_ ?_ ht
    · rw [Scan.consumed, hg]
      rfl
    · rw [hexec, exec_bind, he]
  | some q =>
    obtain ⟨_, w⟩ := q
    obtain ⟨text, hw, he⟩ := h.eq_ok hg
    have hready := hs.moved hw
    refine .of_some ?_ hw ?_ (a := text)
    · rw [hw] at hg ⊢
      exact Scan.consumed_append hg
    · rw [hexec, exec_bind, he]
      simp only
      rw [exec_sliceFrom (Nat.le_add_right _ _) hready.inside]
      have hslice := slice_moved le_rfl hw hs.inside
      rw [show (s.input.take s.position).drop s.position = [] by
        rw [List.drop_eq_nil_iff, List.length_take]; exact Nat.min_le_left _ _,
        List.nil_append] at hslice
      exact congrArg (fun x => (Except.ok x, s.moved text.length)) hslice

theorem follows_number {b : UInt8} {w : List UInt8} (hs : s.Ready levels) (hr : s.rest = b :: w) :
    Follows parseNumber Scan.number s := by
  have hparts : Follows (do parseSign; parseInteger; parseFraction; parseExponent)
      (do Scan.sign; Scan.integer; Scan.fraction; Scan.exponent) s :=
    (follows_sign hs hr).bind hs fun _ t ht _ => (tracks_integer.bind fun _ =>
      tracks_fraction.bind fun _ => tracks_exponent) t ht
  have hassoc : parseNumber = (do
      let start ← currentPosition
      (do parseSign; parseInteger; parseFraction; parseExponent : Parser Unit)
      sliceFrom start : Parser (List UInt8)) >>= fun slice => pure (.numberSlice slice) := by
    unfold parseNumber
    simp only [bind_assoc]
  rw [hassoc]
  exact (hparts.slice hs).bind hs fun slice t ht _ => tracks_pure _ t ht

end Leaves

section Containers

/-- One level further down. -/
def deeper (s : ZeroCopyParser) : ZeroCopyParser := { s with depth := s.depth + 1 }

theorem Ready.deeper (hs : s.Ready (levels + 1)) : s.deeper.Ready levels := by
  have hlv := hs.levels
  exact ⟨hs.inside, show s.depth + 1 + levels = s.limits.maxDepth by omega⟩

variable {item : Parser Unit} {itemScan : Scan Unit} {close : UInt8}

/-- One entry of a container, as the scanner has it. -/
def parseEntry (item : Parser Unit) (close : UInt8) (first : Bool) : Parser Bool := do
  if ← nextIs (· != close) then
    (if first then pure ()
      else do
        expectChar comma
        skipWhitespace : Parser Unit)
    item
    pure true
  else pure false

theorem entriesLoop_succ (fuel : ℕ) (first : Bool) :
    entriesLoop item close (fuel + 1) first =
      (do
        if ← parseEntry item close first then entriesLoop item close fuel false
        else pure ()) := by
  unfold parseEntry
  rw [entriesLoop, bind_assoc]
  congr 1
  funext b
  cases b with
  | true => simp only [if_true, bind_assoc, pure_bind]
  | false => simp only [Bool.false_eq_true, if_false, pure_bind]

theorem tracks_entry (hitem : Tracks levels item itemScan) (first : Bool) :
    Tracks levels (parseEntry item close first) (Scan.entry itemScan close first) := by
  intro s hs
  refine follows_nextIs_bind ?_
  cases s.rest.head?.any (· != close) with
  | false => exact tracks_pure false s hs
  | true =>
    have hbefore : Tracks levels
        (if first then pure () else do expectChar comma; skipWhitespace : Parser Unit)
        (if first then pure () else do Scan.expect comma; Scan.skipWhitespace : Scan Unit) :=
      (tracks_pure ()).ite ((tracks_expectChar comma).bind fun _ => tracks_skipWhitespace)
    exact (hbefore.bind fun _ => hitem.bind fun _ => tracks_pure true) s hs

/-- The loop ends within its budget, as every entry moves the cursor. -/
theorem follows_entries (hitem : Tracks levels item itemScan)
    (heats : ∀ w r, itemScan w = some ((), r) → r.length < w.length) (fuel : ℕ) (first : Bool)
    (hs : s.Ready levels) (hf : s.rest.length < fuel) :
    Follows (entriesLoop item close fuel first) (Scan.entries itemScan close first) s := by
  induction fuel generalizing s first with
  | zero => omega
  | succ fuel ih =>
    have hentry := @tracks_entry levels item itemScan close hitem first s hs
    rw [entriesLoop_succ]
    cases hg : Scan.entry itemScan close first s.rest with
    | none =>
      obtain ⟨e, t, he, ht⟩ := hentry.eq_error hg
      refine .of_none (e := e) ?_ ?_ ht
      · rw [Scan.entries, hg]
      · rw [exec_bind, he]
    | some q =>
      obtain ⟨more, w⟩ := q
      obtain ⟨text, hw, he⟩ := hentry.eq_ok hg
      cases more with
      | false =>
        refine .of_some (a := ()) ?_ hw ?_
        · rw [Scan.entries, hg]
        · rw [exec_bind, he]
          rfl
      | true =>
        have hlt : w.length < s.rest.length := by
          rcases Scan.entry_sound hg with ⟨hfalse, -⟩ | ⟨-, pre, u, hu, hrun, -⟩
          · cases hfalse
          · have hless := heats _ _ hrun
            rw [hu, List.length_append]
            omega
        have hrest := rest_moved hw
        have hrec := ih false (hs.moved hw) (by rw [hrest]; omega)
        have hscan : Scan.entries itemScan close first s.rest =
            Scan.entries itemScan close false w := by
          rw [Scan.entries, hg]
          exact if_pos hlt
        have hexec : exec (do
            if ← parseEntry item close first then entriesLoop item close fuel false
            else pure ()) s = exec (entriesLoop item close fuel false) (s.moved text.length) := by
          rw [exec_bind, he]
          rfl
        cases hw' : Scan.entries itemScan close false w with
        | none =>
          obtain ⟨e, t, he', ht⟩ := hrec.eq_error (by rw [hrest, hw'])
          exact .of_none (hscan.trans hw') (hexec.trans he') ht.of_moved
        | some q =>
          obtain ⟨_, w'⟩ := q
          obtain ⟨text', htext', he'⟩ := hrec.eq_ok (by rw [hrest, hw'])
          rw [hrest] at htext'
          have hsplit : s.rest = (text ++ text') ++ w' := by rw [hw, htext', List.append_assoc]
          refine .of_some (hscan.trans hw') hsplit (hexec.trans (he'.trans ?_))
          rw [moved_moved, List.length_append]

/-- What stands between the delimiters, and the closing one. -/
def parseBody (item : Parser Unit) (close : UInt8) : Parser Unit := do
  skipWhitespace
  if ← nextIs (· == close) then advance 1
  else
    let fuel ← budget
    entriesLoop item close fuel true
    expectChar close

theorem tracks_body (hitem : Tracks levels item itemScan)
    (heats : ∀ w r, itemScan w = some ((), r) → r.length < w.length) :
    Tracks levels (parseBody item close)
      (do
        Scan.skipWhitespace
        if ← Scan.nextIs (· == close) then Scan.take 1
        else
          Scan.entries itemScan close true
          Scan.expect close) := by
  refine tracks_skipWhitespace.bind fun _ s hs => follows_nextIs_bind ?_
  cases hnext : s.rest.head?.any (· == close) with
  | true =>
    obtain ⟨b, w, hr, -⟩ := exists_of_any hnext
    exact follows_advance_one hr
  | false =>
    have hlen := length_rest s
    have hentries := @follows_entries s levels item itemScan close hitem heats
      (s.input.length + 1) true hs (by omega)
    exact hentries.bind hs fun _ t ht _ => tracks_expectChar close t ht

variable {open' : UInt8} {variant : List UInt8 → LazyJsonValue}

/-- The depth is checked before anything is read. -/
theorem follows_tooDeep (hs : s.Ready 0) :
    Follows (parseContainer item open' close variant) Scan.fail s := by
  have hlv := hs.levels
  obtain ⟨e, he⟩ : ∃ e, exec validateDepth s = (.error (.error e), s) := by
    unfold validateDepth
    rw [exec_bind, exec_get]
    simp only
    rw [if_pos (by omega)]
    exact ⟨_, rfl⟩
  refine .of_none (e := e) rfl ?_ hs.within
  unfold parseContainer
  rw [exec_bind, he]

theorem exec_validateDepth (hs : s.Ready (levels + 1)) : exec validateDepth s = (.ok (), s) := by
  have hlv := hs.levels
  unfold validateDepth
  rw [exec_bind, exec_get]
  simp only
  rw [if_neg (by omega)]
  rfl

/-- The rest of a container after the opening delimiter. -/
def parseRest (item : Parser Unit) (close : UInt8) (variant : List UInt8 → LazyJsonValue)
    (start : ℕ) : Parser LazyJsonValue := do
  parseBody item close
  setDepth (· - 1)
  let slice ← sliceFrom start
  pure (variant slice)

/-- The body of a container is read one level further down. -/
theorem exec_container (hs : s.Ready (levels + 1)) {w : List UInt8} (hr : s.rest = open' :: w) :
    exec (parseContainer item open' close variant) s =
      exec (parseRest item close variant s.position) (s.deeper.moved 1) := by
  have hopen : exec (nextIs (· == open')) s = (.ok true, s) := by
    rw [exec_nextIs, hr, List.head?_cons, Option.any_some, beq_self_eq_true]
  have hrest : parseRest item close variant s.position = (do
      skipWhitespace
      if ← nextIs (· == close) then
        advance 1
        setDepth (· - 1)
        let slice ← sliceFrom s.position
        pure (variant slice)
      else
        let fuel ← budget
        entriesLoop item close fuel true
        expectChar close
        setDepth (· - 1)
        let slice ← sliceFrom s.position
        pure (variant slice)) := by
    unfold parseRest parseBody
    rw [bind_assoc]
    congr 1
    funext _
    rw [bind_assoc]
    congr 1
    funext b
    cases b with
    | true => simp only [if_true]
    | false => simp only [Bool.false_eq_true, if_false, bind_assoc]
  rw [hrest]
  unfold parseContainer
  rw [exec_bind, exec_validateDepth hs]
  simp only
  rw [exec_bind, hopen]
  rfl

theorem Within.of_deeper {t : ZeroCopyParser} (h : Within (s.deeper.moved 1) t) : Within s t :=
  ⟨h.input, h.limits, le_trans (Nat.le_succ _) h.forward, h.position, h.depth⟩

theorem tracks_container (hitem : Tracks levels item itemScan)
    (heats : ∀ w r, itemScan w = some ((), r) → r.length < w.length) :
    Tracks (levels + 1) (parseContainer item open' close variant)
      (Scan.container itemScan open' close variant) := by
  intro s hs
  cases hnext : s.rest.head?.any (· == open') with
  | false =>
    have hexpect : Scan.expect open' s.rest = none := by
      unfold Scan.expect
      rw [Scan.nextIs_bind, hnext]
      rfl
    obtain ⟨e, he⟩ : ∃ e, exec (parseContainer item open' close variant) s =
        (.error (.error e), s) := by
      unfold parseContainer
      rw [exec_bind, exec_validateDepth hs]
      simp only
      rw [exec_bind, exec_nextIs, hnext]
      exact ⟨_, rfl⟩
    refine .of_none ?_ he hs.within
    unfold Scan.container Scan.consumed
    rw [Scan.run_bind, Scan.run_bind, hexpect]
    rfl
  | true =>
    obtain ⟨b, w, hr, hb⟩ := exists_of_any hnext
    obtain rfl : b = open' := eq_of_beq hb
    have hready : (s.deeper.moved 1).Ready levels := @Ready.moved s.deeper levels [b] w hs.deeper hr
    have hrest : (s.deeper.moved 1).rest = w := @rest_moved s.deeper [b] w hr
    have hbody := @tracks_body levels item itemScan close hitem heats (s.deeper.moved 1) hready
    have hexec := @exec_container s levels item close b variant hs w hr
    rw [parseRest, exec_bind] at hexec
    generalize hscan : (do
        Scan.skipWhitespace
        if ← Scan.nextIs (· == close) then Scan.take 1
        else
          Scan.entries itemScan close true
          Scan.expect close : Scan Unit) = g at hbody
    have hcontainer : Scan.container itemScan b close variant =
        (Scan.consumed (Scan.expect b >>= fun _ => g)) >>= fun slice => pure (variant slice) := by
      rw [← hscan]
      rfl
    have hopen : (Scan.expect b >>= fun _ => g) s.rest = g w := by
      rw [hr, Scan.bind_of_some (Scan.expect_cons b w)]
    rw [hcontainer]
    cases hg : g w with
    | none =>
      obtain ⟨e, t, he, ht⟩ := hbody.eq_error (by rw [hrest, hg])
      rw [he] at hexec
      refine .of_none ?_ hexec ht.of_deeper
      rw [Scan.run_bind, Scan.consumed, hopen, hg]
      rfl
    | some q =>
      obtain ⟨_, w'⟩ := q
      obtain ⟨text, hw, he⟩ := hbody.eq_ok (by rw [hrest, hg])
      rw [hrest] at hw
      have hsplit : s.rest = b :: text ++ w' := by rw [hr, hw, List.cons_append]
      have hmoved := @Ready.moved s (levels + 1) (b :: text) w' hs hsplit
      rw [he] at hexec
      have hslice := @slice_moved s s.position (b :: text) w' le_rfl hsplit hs.inside
      rw [show (s.input.take s.position).drop s.position = [] by
        rw [List.drop_eq_nil_iff, List.length_take]; exact Nat.min_le_left _ _,
        List.nil_append] at hslice
      have hstate : exec (setDepth (· - 1)) ((s.deeper.moved 1).moved text.length) =
          (.ok (), s.moved (b :: text).length) := by
        rw [moved_moved, Nat.add_comm]
        rfl
      have hfinal : exec (parseContainer item b close variant) s =
          (.ok (variant (b :: text)), s.moved (b :: text).length) := by
        rw [hexec]
        simp only
        rw [exec_bind, hstate]
        simp only
        rw [exec_bind, exec_sliceFrom (Nat.le_add_right _ _) hmoved.inside]
        exact congrArg (fun x => (Except.ok (variant x), s.moved (b :: text).length)) hslice
      refine .of_some ?_ hsplit hfinal
      rw [hsplit] at hopen ⊢
      rw [hg] at hopen
      rw [Scan.bind_of_some (Scan.consumed_append hopen)]
      rfl

end Containers

section Values
variable (utf8Error : List UInt8 → String)

theorem tracks_valueWith {nested : Parser LazyJsonValue} {object array : Scan LazyJsonValue}
    (hobject : Tracks levels (parseObject nested) object)
    (harray : Tracks levels (parseArray nested) array) :
    Tracks levels (parseValueWith utf8Error nested) (Scan.valueWith object array) := by
  refine tracks_skipWhitespace.bind fun _ => tracks_dispatch fun s b w hs hr => ?_
  split_ifs with hq
  · subst hq
    exact follows_string utf8Error hs hr
  · exact hobject s hs
  · exact harray s hs
  · exact tracks_boolean s hs
  · exact tracks_null s hs
  · exact follows_number hs hr
  · exact tracks_throw _ s hs

theorem length_lt_of_read {n : ℕ} {w r : List UInt8} {v : LazyJsonValue}
    (h : Scan.value n w = some (v, r)) : r.length < w.length := by
  obtain ⟨ws, u, rfl, -, text, rfl, htext, -⟩ := Scan.value_sound h
  obtain ⟨b, rest, rfl, -⟩ := Scan.Accepted.head htext
  simp only [List.length_append, List.length_cons]
  omega

theorem length_le_of_skip {w r : List UInt8} {a : Unit} (h : Scan.skipWhitespace w = some (a, r)) :
    r.length ≤ w.length := by
  obtain ⟨ws, rfl, -⟩ := Scan.skipWhitespace_sound h
  rw [List.length_append]
  omega

theorem element_eats (n : ℕ) (w r : List UInt8)
    (h : Scan.element (Scan.value n) w = some ((), r)) : r.length < w.length := by
  obtain ⟨v, u, hvalue, hskip⟩ := Scan.bind_eq_some h
  exact (length_le_of_skip hskip).trans_lt (length_lt_of_read hvalue)

theorem member_eats (n : ℕ) (w r : List UInt8)
    (h : Scan.member (Scan.value n) w = some ((), r)) : r.length < w.length := by
  obtain ⟨bytes, rfl, m, rfl, -, hkey, -⟩ :=
    Scan.member_sound (fun _ _ _ => Scan.value_sound) w r h
  obtain ⟨b, rest, hb, -⟩ := Scan.Accepted.head hkey
  simp only [JsonText.memberBytes, JsonText.Padded.bytes, hb, List.length_append, List.length_cons]
  omega

/-- `parse_value` does what the scanner does, from every state. -/
theorem tracks_value (levels : ℕ) :
    Tracks levels (parseValue utf8Error levels) (Scan.value levels) := by
  induction levels with
  | zero =>
    exact tracks_valueWith utf8Error (fun _ hs => follows_tooDeep hs) fun _ hs => follows_tooDeep hs
  | succ levels ih =>
    have hobject : Tracks (levels + 1) (parseObject (parseValue utf8Error levels)) _ :=
      tracks_container
        (ih.bind fun _ => tracks_skipWhitespace.bind fun _ => (tracks_expectChar colon).bind
          fun _ => tracks_skipWhitespace.bind fun _ => ih.bind fun _ => tracks_skipWhitespace)
        (member_eats levels)
    have harray : Tracks (levels + 1) (parseArray (parseValue utf8Error levels)) _ :=
      tracks_container (ih.bind fun _ => tracks_skipWhitespace) (element_eats levels)
    exact tracks_valueWith utf8Error hobject harray

end Values

end PJS.ZeroCopyParser
