import PJS.Parser.Scan

/-! The index loop that removes the escapes of a string follows the scanner on what is left. -/
namespace PJS.ZeroCopyParser
open JsonText (quote backslash hex4 simpleEscape)

/-- The result is what the scanner returns, or an error of the parser where it returns nothing. -/
def Answers {α : Type} (r : Except Fault α) (o : Option α) : Prop :=
  match o with
  | some a => r = .ok a
  | none => ∃ e, r = .error (.error e)

theorem Answers.eq_ok {α : Type} {r : Except Fault α} {o : Option α} {a : α} (h : Answers r o)
    (ho : o = some a) : r = .ok a := by
  subst ho
  exact h

theorem Answers.eq_error {α : Type} {r : Except Fault α} {o : Option α} (h : Answers r o)
    (ho : o = none) : ∃ e, r = .error (.error e) := by
  subst ho
  exact h

theorem ok_bind {α β : Type} (a : α) (f : α → Except Fault β) : (Except.ok a >>= f) = f a := rfl

variable {input w : List UInt8} {i : ℕ} {b : UInt8}

theorem byteAt_of_drop (h : input.drop i = b :: w) : byteAt input i = .ok b := by
  have hi : input[i]? = some b := by
    rw [← List.head?_drop, h]
    rfl
  unfold byteAt
  rw [hi]

theorem drop_succ_of_drop (h : input.drop i = b :: w) : input.drop (i + 1) = w := by
  rw [← List.drop_drop, h]
  rfl

theorem drop_add_of_drop {t : List UInt8} (h : input.drop i = t ++ w) :
    input.drop (i + t.length) = w := by
  rw [← List.drop_drop, h, List.drop_left]

theorem length_of_drop (h : input.drop i = w) : input.length - i = w.length := by
  rw [← h, List.length_drop]

theorem parseHex4_cons {b₁ b₂ b₃ b₄ : UInt8} (h : input.drop i = b₁ :: b₂ :: b₃ :: b₄ :: w) :
    Answers (parseHex4 input i) (hex4 b₁ b₂ b₃ b₄) := by
  have hlen := length_of_drop h
  simp only [List.length_cons] at hlen
  unfold parseHex4
  rw [if_pos (by omega), h]
  simp only [List.take_succ_cons, List.take_zero]
  cases hex4 b₁ b₂ b₃ b₄ with
  | none => exact ⟨_, rfl⟩
  | some v => rfl

theorem parseHex4_short (h : (input.drop i).length < 4) :
    ∃ e, parseHex4 input i = .error (.error e) := by
  rw [List.length_drop] at h
  unfold parseHex4
  rw [if_neg (by omega)]
  exact ⟨_, rfl⟩

/-- A list of at least four bytes, taken apart. -/
theorem exists_four (h : ¬ w.length < 4) : ∃ b₁ b₂ b₃ b₄ w', w = b₁ :: b₂ :: b₃ :: b₄ :: w' := by
  rcases w with _ | ⟨b₁, _ | ⟨b₂, _ | ⟨b₃, _ | ⟨b₄, w⟩⟩⟩⟩
  · simp at h
  · simp at h
  · simp at h
  · simp at h
  · exact ⟨b₁, b₂, b₃, b₄, w, rfl⟩

/-- The result is a number and the index where what the scanner leaves begins. -/
def Lands (input : List UInt8) (r : Except Fault (ℕ × ℕ)) (o : Option (ℕ × List UInt8)) : Prop :=
  match o with
  | some (n, w) => ∃ j, r = .ok (n, j) ∧ input.drop j = w
  | none => ∃ e, r = .error (.error e)

theorem lowSurrogate_lands (input : List UInt8) (i : ℕ) :
    Lands input (lowSurrogate input i) (Scan.lowSurrogate (input.drop i)) := by
  unfold lowSurrogate
  rcases hw : input.drop i with _ | ⟨b, _ | ⟨c, w⟩⟩
  · have hlen := length_of_drop hw
    rw [List.length_nil] at hlen
    rw [if_pos (by omega)]
    exact ⟨_, rfl⟩
  · have hlen := length_of_drop hw
    rw [List.length_singleton] at hlen
    rw [if_pos (by omega)]
    exact ⟨_, rfl⟩
  · have hlen := length_of_drop hw
    have hw1 := drop_succ_of_drop hw
    have hw2 : input.drop (i + 2) = w := drop_succ_of_drop hw1
    simp only [List.length_cons] at hlen
    rw [if_neg (by omega), byteAt_of_drop hw, byteAt_of_drop hw1]
    simp only [ok_bind]
    by_cases hu : b = backslash ∧ c = 0x75
    · obtain ⟨rfl, rfl⟩ := hu
      rw [if_neg (by simp)]
      by_cases h4 : w.length < 4
      · rw [Scan.lowSurrogate_short h4]
        obtain ⟨e, he⟩ := parseHex4_short (by rwa [hw2])
        rw [he]
        exact ⟨e, rfl⟩
      · obtain ⟨c₁, c₂, c₃, c₄, w', rfl⟩ := exists_four h4
        have hx := parseHex4_cons hw2
        rw [Scan.lowSurrogate_cons]
        cases hv : hex4 c₁ c₂ c₃ c₄ with
        | none =>
          obtain ⟨e, he⟩ := hx.eq_error hv
          rw [he]
          exact ⟨e, rfl⟩
        | some low =>
          rw [hx.eq_ok hv, Option.bind_some, ok_bind]
          by_cases hl : 0xDC00 ≤ low ∧ low ≤ 0xDFFF
          · rw [if_pos hl, if_pos hl]
            exact ⟨i + 6, rfl, drop_add_of_drop (t := [_, _, _, _, _, _]) hw⟩
          · rw [if_neg hl, if_neg hl]
            exact ⟨_, rfl⟩
    · rw [Scan.lowSurrogate_other hu, if_pos (by tauto)]
      exact ⟨_, rfl⟩

theorem unicodeEscape_lands (input : List UInt8) (i : ℕ) :
    Lands input (unicodeEscape input i) (Scan.unicodeEscape (input.drop (i + 2))) := by
  unfold unicodeEscape
  by_cases h4 : (input.drop (i + 2)).length < 4
  · rw [Scan.unicodeEscape_short h4]
    obtain ⟨e, he⟩ := parseHex4_short h4
    rw [he]
    exact ⟨e, rfl⟩
  · obtain ⟨b₁, b₂, b₃, b₄, w, hw⟩ := exists_four h4
    have hx := parseHex4_cons hw
    have hw6 : input.drop (i + 6) = w := drop_add_of_drop (t := [_, _, _, _]) hw
    rw [hw, Scan.unicodeEscape_cons]
    cases hv : hex4 b₁ b₂ b₃ b₄ with
    | none =>
      obtain ⟨e, he⟩ := hx.eq_error hv
      rw [he]
      exact ⟨e, rfl⟩
    | some high =>
      rw [hx.eq_ok hv, Option.bind_some, ok_bind]
      by_cases hh : 0xD800 ≤ high ∧ high ≤ 0xDBFF
      · rw [if_pos hh, if_pos hh]
        have hl := lowSurrogate_lands input (i + 6)
        rw [hw6] at hl
        cases hs : Scan.lowSurrogate w with
        | none =>
          rw [hs] at hl
          obtain ⟨e, he⟩ := hl
          rw [he]
          exact ⟨e, rfl⟩
        | some r =>
          rw [hs] at hl
          obtain ⟨j, he, hj⟩ := hl
          rw [he]
          exact ⟨j, rfl, hj⟩
      · rw [if_neg hh, if_neg hh]
        by_cases hl : 0xDC00 ≤ high ∧ high ≤ 0xDFFF
        · rw [if_pos hl, if_pos hl]
          exact ⟨_, rfl⟩
        · rw [if_neg hl, if_neg hl]
          exact ⟨i + 6, rfl, hw6⟩

/-- With enough fuel the loop adds what the scanner makes of what is left. -/
theorem unescapeLoop_answers (fuel : ℕ) (i : ℕ) (result : List UInt8)
    (hf : input.length - i < fuel) :
    Answers (unescapeLoop input fuel i result)
      ((Scan.unescape (input.drop i)).map (result ++ ·)) := by
  induction fuel generalizing i result with
  | zero => omega
  | succ fuel ih =>
    rw [unescapeLoop]
    rcases hw : input.drop i with _ | ⟨b, w⟩
    · have hlen := length_of_drop hw
      rw [List.length_nil] at hlen
      rw [if_neg (by omega), Scan.unescape_nil, Option.map_some, List.append_nil]
      rfl
    · have hlen := length_of_drop hw
      have hw1 := drop_succ_of_drop hw
      rw [List.length_cons] at hlen
      rw [if_pos (by omega), byteAt_of_drop hw, ok_bind]
      have hmore : ∀ j out w', Scan.unescapeStep (b :: w) = some (out, w') → input.drop j = w' →
          Answers (unescapeLoop input fuel j (result ++ out))
            ((Scan.unescape (b :: w)).map (result ++ ·)) := by
        intro j out w' hstep hj
        have hlt := Scan.length_unescapeStep hstep
        have hjlen := length_of_drop hj
        have hrec := ih j (result ++ out) (by rw [List.length_cons] at hlt; omega)
        rw [hj] at hrec
        rw [Scan.unescape_cons, hstep, Option.bind_some, Option.map_map]
        simpa only [List.append_assoc, Function.comp_def] using hrec
      have hfail : Scan.unescapeStep (b :: w) = none →
          (Scan.unescape (b :: w)).map (result ++ ·) = none := by
        intro hstep
        rw [Scan.unescape_cons, hstep, Option.bind_none, Option.map_none]
      by_cases hb : b = backslash ∧ i + 1 < input.length
      · obtain ⟨rfl, hi⟩ := hb
        rw [if_pos ⟨rfl, hi⟩]
        obtain ⟨c, w, rfl⟩ : ∃ c w', w = c :: w' :=
          List.exists_cons_of_length_pos (by omega)
        have hw2 : input.drop (i + 2) = w := drop_succ_of_drop hw1
        rw [byteAt_of_drop hw1, ok_bind]
        by_cases hc : c = 0x75
        · subst hc
          rw [if_pos rfl]
          have hl := unicodeEscape_lands input i
          rw [hw2] at hl
          rw [Scan.unescapeStep_unicode] at hmore hfail
          cases hu : Scan.unicodeEscape w with
          | none =>
            rw [hu] at hl
            obtain ⟨e, he⟩ := hl
            rw [hfail (by rw [hu]; rfl), he]
            exact ⟨e, rfl⟩
          | some r =>
            rw [hu] at hl
            obtain ⟨j, he, hj⟩ := hl
            rw [he, ok_bind]
            cases hch : charFromU32 r.1 with
            | none =>
              rw [hfail (by rw [hu, Option.bind_some, hch]; rfl)]
              simp only [hch]
              exact ⟨_, rfl⟩
            | some ch =>
              simp only [hch]
              exact hmore j _ r.2 (by rw [hu, Option.bind_some, hch]; rfl) hj
        · rw [if_neg hc]
          rw [Scan.unescapeStep_simple hc] at hmore hfail
          cases he : simpleEscape c with
          | none =>
            rw [hfail (by rw [he]; rfl)]
            exact ⟨_, rfl⟩
          | some e => exact hmore (i + 2) [e] w (by rw [he]; rfl) hw2
      · rw [if_neg hb]
        refine hmore (i + 1) [b] w ?_ hw1
        by_cases hs : b = backslash
        · have hend : ¬ i + 1 < input.length := fun hi => hb ⟨hs, hi⟩
          obtain rfl : w = [] := by
            rw [← List.length_eq_zero_iff]
            omega
          rfl
        · exact Scan.unescapeStep_plain hs w

theorem unescapeString_answers (utf8Error : List UInt8 → String) (body : List UInt8) :
    Answers (unescapeString utf8Error body) (Scan.unescapeString body) := by
  have hloop : Answers (unescapeLoop body (body.length + 1) 0 []) _ :=
    unescapeLoop_answers (body.length + 1) 0 [] (by omega)
  simp only [List.drop_zero, List.nil_append, Option.map_id_fun', id_eq] at hloop
  unfold unescapeString Scan.unescapeString
  cases hu : Scan.unescape body with
  | none =>
    obtain ⟨e, he⟩ := hloop.eq_error hu
    rw [he]
    exact ⟨e, rfl⟩
  | some out =>
    rw [hloop.eq_ok hu, ok_bind, Option.bind_some]
    cases fromUtf8 out with
    | none => exact ⟨_, rfl⟩
    | some s => rfl

end PJS.ZeroCopyParser
