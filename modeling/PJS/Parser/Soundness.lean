import PJS.Parser.Faithful
import PJS.Lib.Marked

/-! How far the parser is sound. It takes any value for a key and any byte but a quote in a string;
the text that it consumes is one of RFC 8259 exactly if, up to the end of the first value, strings
hold no control byte and colons stand after strings. -/
namespace PJS
open Check
open JsonText (quote backslash comma colon openBrace closeBrace openBracket closeBracket
  isWhitespace isDigit Blank Body IsNumber Scalar Marks Marked Part IsString hexDigit hex4
  hex4_forall hex4_plain simpleEscape bytes_append bytes_cons bytes_mark)

namespace Scan

section Bodies
variable {body w r : List UInt8}

/-- A body is empty, or begins with a byte or an escape. -/
theorem closed_cases (h : Closed body) : body = [] ∨
    (∃ b rest, body = b :: rest ∧ b ≠ quote ∧ b ≠ backslash ∧ Closed rest) ∨
    ∃ c rest, body = backslash :: c :: rest ∧ Closed rest := by
  cases body with
  | nil => exact Or.inl rfl
  | cons b rest =>
    right
    by_cases hq : b = quote
    · subst hq
      have hclose := h []
      rw [List.cons_append, closeQuote_quote] at hclose
      cases hclose
    · by_cases hs : b = backslash
      · subst hs
        right
        cases rest with
        | nil =>
          have hclose := h []
          cases hclose
        | cons c rest =>
          refine ⟨c, rest, rfl, fun r => ?_⟩
          have hclose := h r
          rw [List.cons_append, List.cons_append, closeQuote_escape] at hclose
          obtain ⟨⟨body, r'⟩, hrest, heq⟩ := Option.map_eq_some_iff.mp hclose
          cases heq
          exact hrest
      · left
        refine ⟨b, rest, rfl, hq, hs, fun r => ?_⟩
        have hclose := h r
        rw [List.cons_append, closeQuote_plain hq hs] at hclose
        obtain ⟨⟨body, r'⟩, hrest, heq⟩ := Option.map_eq_some_iff.mp hclose
        cases heq
        exact hrest

theorem Closed.of_plain {b : UInt8} (h : Closed (b :: body)) (hs : b ≠ backslash) :
    Closed body := by
  rcases closed_cases h with hnil | ⟨b', rest, heq, -, -, hrest⟩ | ⟨c, rest, heq, -⟩
  · cases hnil
  · cases heq
    exact hrest
  · cases heq
    exact absurd rfl hs

theorem Closed.of_escape {c : UInt8} (h : Closed (backslash :: c :: body)) : Closed body := by
  rcases closed_cases h with hnil | ⟨b', rest, heq, -, hs, -⟩ | ⟨c', rest, heq, hrest⟩
  · cases hnil
  · cases heq
    exact absurd rfl hs
  · cases heq
    exact hrest

theorem Closed.of_append {u : List UInt8} (h : Closed (u ++ body)) (hu : ∀ b ∈ u, b ≠ backslash) :
    Closed body := by
  induction u with
  | nil => exact h
  | cons b u ih =>
    exact ih (h.of_plain (hu b List.mem_cons_self)) fun c hc => hu c (List.mem_cons_of_mem b hc)

/-- A unicode escape has four digits, or eight with an escape between them. -/
theorem unicodeEscape_sound {codepoint : ℕ} (h : unicodeEscape w = some (codepoint, r)) :
    ∃ b₁ b₂ b₃ b₄ v, hex4 b₁ b₂ b₃ b₄ = some v ∧ (w = b₁ :: b₂ :: b₃ :: b₄ :: r ∨
      ∃ c₁ c₂ c₃ c₄ v', hex4 c₁ c₂ c₃ c₄ = some v' ∧
        w = b₁ :: b₂ :: b₃ :: b₄ :: backslash :: 0x75 :: c₁ :: c₂ :: c₃ :: c₄ :: r) := by
  unfold unicodeEscape at h
  split at h
  · rename_i b₁ b₂ b₃ b₄ rest
    obtain ⟨high, hhigh, h⟩ := Option.bind_eq_some_iff.mp h
    refine ⟨b₁, b₂, b₃, b₄, high, hhigh, ?_⟩
    split_ifs at h
    · obtain ⟨⟨low, rest'⟩, hlow, h⟩ := Option.bind_eq_some_iff.mp h
      obtain ⟨-, rfl⟩ := Prod.mk.inj (Option.some.inj h)
      unfold lowSurrogate at hlow
      split at hlow
      · rename_i s u c₁ c₂ c₃ c₄ rest'' hw
        split_ifs at hlow with hsu
        obtain ⟨rfl, rfl⟩ := hsu
        obtain ⟨low', hlow', h⟩ := Option.bind_eq_some_iff.mp hlow
        split_ifs at h
        cases h
        exact Or.inr ⟨c₁, c₂, c₃, c₄, _, hlow', rfl⟩
      · cases hlow
    · cases h
      exact Or.inl rfl
  · cases h

/-- A body that is unescaped and holds no control byte is one of RFC 8259. -/
theorem body_of_unescape {out : List UInt8} (hclosed : Closed body) (h : unescape body = some out)
    (hc : ∀ b ∈ body, 0x20 ≤ b) : Body body := by
  induction hn : body.length using Nat.strong_induction_on generalizing body out with
  | _ n ih =>
    subst hn
    rcases closed_cases hclosed with rfl | ⟨b, rest, rfl, hq, hs, hrest⟩ | ⟨c, rest, rfl, hrest⟩
    · exact .nil
    · rw [unescape_cons, unescapeStep_plain hs, Option.bind_some] at h
      obtain ⟨out', hout, -⟩ := Option.map_eq_some_iff.mp h
      rw [List.forall_mem_cons] at hc
      exact .plain hc.1 hq hs (ih _ (by simp) hrest hout hc.2 rfl)
    · rw [unescape_cons] at h
      obtain ⟨⟨first, w⟩, hstep, h⟩ := Option.bind_eq_some_iff.mp h
      obtain ⟨out', hout, -⟩ := Option.map_eq_some_iff.mp h
      simp only [List.forall_mem_cons] at hc
      by_cases hu : c = 0x75
      · subst hu
        rw [unescapeStep_unicode] at hstep
        obtain ⟨⟨codepoint, w'⟩, hunicode, hstep⟩ := Option.bind_eq_some_iff.mp hstep
        obtain ⟨ch, -, hstep⟩ := Option.bind_eq_some_iff.mp hstep
        cases hstep
        obtain ⟨b₁, b₂, b₃, b₄, v, hv, rfl | ⟨c₁, c₂, c₃, c₄, v', hv', rfl⟩⟩ :=
          unicodeEscape_sound hunicode
        · have hw : Closed w' := @Closed.of_append w' [b₁, b₂, b₃, b₄] hrest
            fun b hb => (hex4_plain hv b hb).2
          simp only [List.forall_mem_cons] at hc
          exact .unicode hv (ih _ (by simp only [List.length_cons]; omega) hw hout
            hc.2.2.2.2.2.2 rfl)
        · have hlow : Closed (backslash :: 0x75 :: c₁ :: c₂ :: c₃ :: c₄ :: w') :=
            @Closed.of_append _ [b₁, b₂, b₃, b₄] hrest fun b hb => (hex4_plain hv b hb).2
          have hw : Closed w' := @Closed.of_append w' [c₁, c₂, c₃, c₄] hlow.of_escape
            fun b hb => (hex4_plain hv' b hb).2
          simp only [List.forall_mem_cons] at hc
          exact .unicode hv (.unicode hv' (ih _ (by simp only [List.length_cons]; omega) hw hout
            hc.2.2.2.2.2.2.2.2.2.2.2.2 rfl))
      · rw [unescapeStep_simple hu] at hstep
        obtain ⟨e, he, hstep⟩ := Option.map_eq_some_iff.mp hstep
        cases hstep
        exact .escape he (ih _ (by simp only [List.length_cons]; omega) hrest hout hc.2.2 rfl)

theorem body_of_readable (h : Readable body) (hc : ∀ b ∈ body, 0x20 ≤ b) : Body body := by
  obtain ⟨hclosed, v, hv⟩ := h
  unfold readBody at hv
  split_ifs at hv with hs
  · obtain ⟨cs, hcs, -⟩ := Option.map_eq_some_iff.mp hv
    obtain ⟨out, hout, -⟩ := Option.bind_eq_some_iff.mp hcs
    exact body_of_unescape hclosed hout hc
  · have hplain : ∀ b ∈ body, b ≠ backslash := by
      rintro b hb rfl
      exact hs (List.contains_iff_mem.mpr hb)
    have hout := unescape_append hplain []
    rw [List.append_nil, unescape_nil] at hout
    exact body_of_unescape hclosed hout hc

theorem closed_of_body (h : Body body) : Closed body := by
  induction h with
  | nil => exact closed_nil
  | plain _ hq hs _ ih => exact ih.plain hq hs
  | escape _ _ ih => exact ih.escape _
  | @unicode b₁ b₂ b₃ b₄ _ _ hv _ ih =>
    exact (@Closed.append _ [b₁, b₂, b₃, b₄] (hex4_plain hv) ih).escape 0x75

theorem hexDigit_ge {b : UInt8} {v : ℕ} (h : hexDigit b = some v) : 0x20 ≤ b := by
  unfold hexDigit at h
  split_ifs at h with h₁ h₂ h₃
  · exact UInt8.le_trans (show 0x20 ≤ 0x30 by decide) h₁.1
  · exact UInt8.le_trans (show 0x20 ≤ 0x41 by decide) h₂.1
  · exact UInt8.le_trans (show 0x20 ≤ 0x61 by decide) h₃.1

theorem simpleEscape_ge {b e : UInt8} (h : simpleEscape b = some e) : 0x20 ≤ b := by
  unfold simpleEscape at h
  split_ifs at h with h₁ h₂ h₃ h₄ h₅ h₆ h₇ h₈
  all_goals
    subst b
    decide

/-- A body of RFC 8259 holds no control byte. -/
theorem body_ge (h : Body body) : ∀ b ∈ body, 0x20 ≤ b := by
  induction h with
  | nil => nofun
  | plain hb _ _ _ ih => exact List.forall_mem_cons.mpr ⟨hb, ih⟩
  | escape he _ ih =>
    exact List.forall_mem_cons.mpr ⟨by decide, List.forall_mem_cons.mpr ⟨simpleEscape_ge he, ih⟩⟩
  | unicode hv _ ih =>
    have hdigits := hex4_forall (fun h => hexDigit_ge h) hv
    simp only [List.forall_mem_cons] at hdigits ⊢
    exact ⟨by decide, by decide, hdigits.1, hdigits.2.1, hdigits.2.2.1, hdigits.2.2.2.1, ih⟩

end Bodies

section Lexical

/-- Where a byte stands: outside of strings, with so many containers open and after that byte, white
space aside; in a string; or after a backslash in one. -/
inductive Place where
  | outside (depth : ℕ) (prev : UInt8)
  | inside (depth : ℕ)
  | escaped (depth : ℕ)

/-- Up to the end of the first value, strings hold no control byte, colons stand after strings. -/
def clean : Place → List UInt8 → Bool
  | _, [] => true
  | .outside depth prev, b :: rest =>
    if isWhitespace b then clean (.outside depth prev) rest
    else if b = quote then clean (.inside depth) rest
    else if b = openBrace ∨ b = openBracket then clean (.outside (depth + 1) b) rest
    else if b = closeBrace ∨ b = closeBracket then
      decide (depth ≤ 1) || clean (.outside (depth - 1) b) rest
    else if b = colon ∧ prev ≠ quote then false
    else decide (depth = 0) || clean (.outside depth b) rest
  | .inside depth, b :: rest =>
    if b = quote then decide (depth = 0) || clean (.outside depth quote) rest
    else decide (0x20 ≤ b) && clean (if b = backslash then .escaped depth else .inside depth) rest
  | .escaped depth, b :: rest => decide (0x20 ≤ b) && clean (.inside depth) rest

variable {d : ℕ} {prev b : UInt8} {ws body text r : List UInt8}

theorem clean_blank (hw : Blank ws) (r : List UInt8) :
    clean (.outside d prev) (ws ++ r) = clean (.outside d prev) r := by
  induction ws with
  | nil => rfl
  | cons b ws ih =>
    rw [List.cons_append, clean, if_pos (hw b List.mem_cons_self)]
    exact ih fun c hc => hw c (List.mem_cons_of_mem b hc)

theorem clean_quote (r : List UInt8) : clean (.outside d prev) (quote :: r) = clean (.inside d) r :=
  rfl

theorem clean_open (hb : b = openBrace ∨ b = openBracket) (r : List UInt8) :
    clean (.outside d prev) (b :: r) = clean (.outside (d + 1) b) r := by
  rcases hb with rfl | rfl <;> rfl

theorem clean_close (hd : 0 < d) (hb : b = closeBrace ∨ b = closeBracket) (r : List UInt8) :
    clean (.outside (d + 1) prev) (b :: r) = clean (.outside d b) r := by
  have hdeep : decide (d + 1 ≤ 1) = false := decide_eq_false (by omega)
  have hstep : clean (.outside (d + 1) prev) (b :: r) =
      (decide (d + 1 ≤ 1) || clean (.outside d b) r) := by
    rcases hb with rfl | rfl <;> rfl
  rw [hstep, hdeep, Bool.false_or]

theorem clean_close_last (hb : b = closeBrace ∨ b = closeBracket) (r : List UInt8) :
    clean (.outside 1 prev) (b :: r) = true := by
  rcases hb with rfl | rfl <;> rfl

theorem clean_colon (hd : 0 < d) (r : List UInt8) :
    clean (.outside d prev) (colon :: r) = true ↔
      prev = quote ∧ clean (.outside d colon) r = true := by
  have hdeep : decide (d = 0) = false := decide_eq_false (by omega)
  have hstep : clean (.outside d prev) (colon :: r) =
      if colon = colon ∧ prev ≠ quote then false
      else decide (d = 0) || clean (.outside d colon) r := rfl
  rw [hstep, hdeep, Bool.false_or]
  split_ifs with h
  · exact iff_of_false not_false fun h' => h.2 h'.1
  · exact ⟨fun hr => ⟨not_not.mp fun hp => h ⟨rfl, hp⟩, hr⟩, And.right⟩

/-- A byte that neither white space nor a token of its own is. -/
def Other (b : UInt8) : Prop :=
  isWhitespace b = false ∧ b ≠ quote ∧ ¬(b = openBrace ∨ b = openBracket) ∧
    ¬(b = closeBrace ∨ b = closeBracket) ∧ b ≠ colon

instance (b : UInt8) : Decidable (Other b) := inferInstanceAs (Decidable (_ ∧ _))

theorem clean_other (h : Other b) (r : List UInt8) :
    clean (.outside d prev) (b :: r) = (decide (d = 0) || clean (.outside d b) r) := by
  obtain ⟨hw, hq, ho, hc, hcolon⟩ := h
  rw [clean, hw, if_neg Bool.false_ne_true, if_neg hq, if_neg ho, if_neg hc,
    if_neg fun h => hcolon h.1]

theorem clean_others (hd : 0 < d) (h : ∀ b ∈ text, Other b) (hne : text ≠ []) :
    ∃ prev', prev' ≠ quote ∧
      ∀ r, clean (.outside d prev) (text ++ r) = clean (.outside d prev') r := by
  have hdeep : decide (d = 0) = false := decide_eq_false (by omega)
  induction text generalizing prev with
  | nil => exact absurd rfl hne
  | cons b text ih =>
    rw [List.forall_mem_cons] at h
    have hstep : ∀ r, clean (.outside d prev) (b :: text ++ r) = clean (.outside d b) (text ++ r) :=
      fun r => by rw [List.cons_append, clean_other h.1, hdeep, Bool.false_or]
    cases text with
    | nil => exact ⟨b, h.1.2.1, fun r => hstep r⟩
    | cons c text =>
      obtain ⟨prev', hprev', hrest⟩ := @ih b h.2 (List.cons_ne_nil c text)
      exact ⟨prev', hprev', fun r => (hstep r).trans (hrest r)⟩

theorem clean_inside (h : Closed body) (r : List UInt8) :
    clean (.inside d) (body ++ quote :: r) = true ↔
      (∀ b ∈ body, 0x20 ≤ b) ∧ (d = 0 ∨ clean (.outside d quote) r = true) := by
  induction hn : body.length using Nat.strong_induction_on generalizing body with
  | _ n ih =>
    subst hn
    rcases closed_cases h with rfl | ⟨b, rest, rfl, hq, hs, hrest⟩ | ⟨c, rest, rfl, hrest⟩
    · rw [List.nil_append, clean, if_pos rfl, Bool.or_eq_true, decide_eq_true_eq]
      exact ⟨fun h => ⟨nofun, h⟩, And.right⟩
    · rw [List.cons_append, clean, if_neg hq, if_neg hs, Bool.and_eq_true, decide_eq_true_eq,
        ih _ (by simp) hrest rfl, List.forall_mem_cons, and_assoc]
    · have hne : backslash ≠ quote := by decide
      have hge : (0x20 : UInt8) ≤ backslash := by decide
      rw [List.cons_append, List.cons_append, clean, if_neg hne, if_pos rfl, clean,
        Bool.and_eq_true, Bool.and_eq_true, decide_eq_true_eq, decide_eq_true_eq,
        ih _ (by simp only [List.length_cons]; omega) hrest rfl, List.forall_mem_cons,
        List.forall_mem_cons, and_assoc, and_assoc]

end Lexical

section Texts

variable {d : ℕ} {prev : UInt8} {part : Part} {m : Marks} {text : List UInt8}

theorem other_of_isDigit {b : UInt8} (h : isDigit b = true) : Other b := by
  have hne : ∀ c ∈ [quote, openBrace, openBracket, closeBrace, closeBracket, colon, 0x20, 0x09,
      0x0A, 0x0D], b ≠ c := by
    have hkind : ∀ c ∈ [quote, openBrace, openBracket, closeBrace, closeBracket, colon, 0x20, 0x09,
        0x0A, 0x0D], isDigit c = false := by decide +kernel
    rintro c hc rfl
    rw [hkind b hc] at h
    cases h
  simp only [List.forall_mem_cons] at hne
  obtain ⟨hq, ho, ho', hc, hc', hcolon, h₁, h₂, h₃, h₄, -⟩ := hne
  refine ⟨?_, hq, not_or.mpr ⟨ho, ho'⟩, not_or.mpr ⟨hc, hc'⟩, hcolon⟩
  simp [isWhitespace, h₁, h₂, h₃, h₄]

/-- A scalar is a string, or is made of other bytes whatever strings may hold. -/
theorem scalar_cases {str : List UInt8 → Prop} (h : Scalar str text) :
    (∃ body, text = quote :: (body ++ [quote]) ∧ str body) ∨
      (∀ b ∈ text, Other b) ∧ text ≠ [] ∧ ∀ str', Scalar str' text := by
  cases h with
  | true => exact Or.inr ⟨by decide +kernel, List.cons_ne_nil _ _, fun _ => .true⟩
  | false => exact Or.inr ⟨by decide +kernel, List.cons_ne_nil _ _, fun _ => .false⟩
  | null => exact Or.inr ⟨by decide +kernel, List.cons_ne_nil _ _, fun _ => .null⟩
  | number h =>
    have hother := h.forall_mem (fun _ hdigit => other_of_isDigit hdigit) (by decide +kernel)
    obtain ⟨b, rest, rfl, -⟩ := number_head h
    exact Or.inr ⟨hother, List.cons_ne_nil _ _, fun _ => .number h⟩
  | string h => exact Or.inl ⟨_, rfl, h⟩

theorem append_quote (body r : List UInt8) :
    quote :: (body ++ [quote]) ++ r = quote :: (body ++ quote :: r) := by
  simp only [List.cons_append, List.append_assoc, List.nil_append]

theorem scalar_of_clean (h : Scalar Readable text) (hd : 0 < d) {r : List UInt8}
    (hc : clean (.outside d prev) (text ++ r) = true) :
    Scalar Body text ∧ ∃ prev', clean (.outside d prev') r = true ∧
      (prev' = quote → IsString text) := by
  rcases scalar_cases h with ⟨body, rfl, hbody⟩ | ⟨hother, hne, hscalar⟩
  · rw [append_quote, clean_quote, clean_inside hbody.1] at hc
    obtain ⟨hge, hrest⟩ := hc
    exact ⟨.string (body_of_readable hbody hge), quote, hrest.resolve_left (by omega), fun _ => rfl⟩
  · obtain ⟨prev', hprev', hstep⟩ := @clean_others d prev _ hd hother hne
    rw [hstep] at hc
    exact ⟨hscalar Body, prev', hc, fun h => absurd h hprev'⟩

theorem clean_of_scalar (h : Scalar Body text) (hd : 0 < d) :
    ∃ prev', (∀ r, clean (.outside d prev) (text ++ r) = true ↔ clean (.outside d prev') r = true) ∧
      (IsString text → prev' = quote) := by
  rcases scalar_cases h with ⟨body, rfl, hbody⟩ | ⟨hother, hne, -⟩
  · refine ⟨quote, fun r => ?_, fun _ => rfl⟩
    rw [append_quote, clean_quote, clean_inside (closed_of_body hbody)]
    exact ⟨fun h => h.2.resolve_left (by omega), fun h => ⟨body_ge hbody, Or.inr h⟩⟩
  · obtain ⟨prev', -, hstep⟩ := @clean_others d prev _ hd hother hne
    refine ⟨prev', fun r => by rw [hstep], fun hstring => ?_⟩
    exact absurd rfl (hother quote (List.mem_of_head? hstring)).2.1

theorem clean_comma (hd : 0 < d) (r : List UInt8) :
    clean (.outside d prev) (comma :: r) = clean (.outside d comma) r := by
  rw [clean_other (by decide), decide_eq_false (by omega), Bool.false_or]

/-- What the parser accepts and is clean is a text of RFC 8259. -/
theorem marked_of_clean (h : Marked Readable AnyKey part d m) (hd : 0 < d) (prev : UInt8)
    (r : List UInt8) (hc : clean (.outside d prev) (m.bytes ++ r) = true) :
    Marked Body IsString part d m ∧ ∃ prev', clean (.outside d prev') r = true ∧
      (part = .value → prev' = quote → IsString m.bytes) := by
  induction h generalizing prev r with
  | scalar h =>
    rw [bytes_mark] at hc ⊢
    obtain ⟨hscalar, prev', hr, hstring⟩ := scalar_of_clean h hd hc
    exact ⟨.scalar hscalar, prev', hr, fun _ => hstring⟩
  | emptyArray hw =>
    simp only [bytes_cons, bytes_append, bytes_mark, List.cons_append, List.append_assoc] at hc
    rw [clean_open (Or.inr rfl), clean_blank hw] at hc
    exact ⟨.emptyArray hw, _, (clean_close hd (Or.inr rfl) _).symm.trans hc, fun _ => nofun⟩
  | array _ ih =>
    simp only [bytes_cons, bytes_append, List.cons_append, List.append_assoc] at hc
    rw [clean_open (Or.inr rfl)] at hc
    obtain ⟨hm, prev', hr, -⟩ := ih (Nat.succ_pos _) _ _ hc
    exact ⟨.array hm, _, (clean_close hd (Or.inr rfl) _).symm.trans hr, fun _ => nofun⟩
  | emptyObject hw =>
    simp only [bytes_cons, bytes_append, bytes_mark, List.cons_append, List.append_assoc] at hc
    rw [clean_open (Or.inl rfl), clean_blank hw] at hc
    exact ⟨.emptyObject hw, _, (clean_close hd (Or.inl rfl) _).symm.trans hc, fun _ => nofun⟩
  | object _ ih =>
    simp only [bytes_cons, bytes_append, List.cons_append, List.append_assoc] at hc
    rw [clean_open (Or.inl rfl)] at hc
    obtain ⟨hm, prev', hr, -⟩ := ih (Nat.succ_pos _) _ _ hc
    exact ⟨.object hm, _, (clean_close hd (Or.inl rfl) _).symm.trans hr, fun _ => nofun⟩
  | lastItem hb ha _ ih =>
    simp only [bytes_append, bytes_mark, List.append_assoc, clean_blank hb] at hc
    obtain ⟨hm, prev', hr, -⟩ := ih hd _ _ hc
    rw [clean_blank ha] at hr
    exact ⟨.lastItem hb ha hm, prev', hr, nofun⟩
  | item hb ha _ _ ih ihrest =>
    simp only [bytes_append, bytes_cons, bytes_mark, List.append_assoc, List.cons_append,
      clean_blank hb] at hc
    obtain ⟨hm, prev', hr, -⟩ := ih hd _ _ hc
    rw [clean_blank ha, clean_comma hd] at hr
    obtain ⟨hrest, prev'', hr', -⟩ := ihrest hd _ _ hr
    exact ⟨.item hb ha hm hrest, prev'', hr', nofun⟩
  | lastMember hkb hka hvb hva _ _ _ ihk ihv =>
    simp only [bytes_append, bytes_cons, bytes_mark, List.append_assoc, List.cons_append,
      clean_blank hkb] at hc
    obtain ⟨hk, prev', hr, hstring⟩ := ihk hd _ _ hc
    rw [clean_blank hka, clean_colon hd, clean_blank hvb] at hr
    obtain ⟨hv, prev'', hr', -⟩ := ihv hd _ _ hr.2
    rw [clean_blank hva] at hr'
    exact ⟨.lastMember hkb hka hvb hva (hstring rfl hr.1) hk hv, prev'', hr', nofun⟩
  | member hkb hka hvb hva _ _ _ _ ihk ihv ihrest =>
    simp only [bytes_append, bytes_cons, bytes_mark, List.append_assoc, List.cons_append,
      clean_blank hkb] at hc
    obtain ⟨hk, prev', hr, hstring⟩ := ihk hd _ _ hc
    rw [clean_blank hka, clean_colon hd, clean_blank hvb] at hr
    obtain ⟨hv, prev'', hr', -⟩ := ihv hd _ _ hr.2
    rw [clean_blank hva, clean_comma hd] at hr'
    obtain ⟨hrest, last, hr'', -⟩ := ihrest hd _ _ hr'
    exact ⟨.member hkb hka hvb hva (hstring rfl hr.1) hk hv hrest, last, hr'', nofun⟩

/-- A text of RFC 8259 is clean. -/
theorem clean_of_marked (h : Marked Body IsString part d m) (hd : 0 < d) (prev : UInt8) :
    ∃ prev', (∀ r, clean (.outside d prev) (m.bytes ++ r) = true ↔
        clean (.outside d prev') r = true) ∧
      (part = .value → IsString m.bytes → prev' = quote) := by
  induction h generalizing prev with
  | scalar h =>
    obtain ⟨prev', hstep, hstring⟩ := @clean_of_scalar _ prev _ h hd
    refine ⟨prev', fun r => ?_, fun _ hs => hstring ?_⟩
    · rw [bytes_mark]
      exact hstep r
    · rwa [bytes_mark] at hs
  | emptyArray hw =>
    refine ⟨closeBracket, fun r => ?_, fun _ => nofun⟩
    simp only [bytes_cons, bytes_append, bytes_mark, List.cons_append, List.append_assoc]
    rw [clean_open (Or.inr rfl), clean_blank hw]
    exact iff_of_eq (congrArg (· = true) (clean_close hd (Or.inr rfl) _))
  | array _ ih =>
    obtain ⟨prev', hstep, -⟩ := ih (Nat.succ_pos _) openBracket
    refine ⟨closeBracket, fun r => ?_, fun _ => nofun⟩
    simp only [bytes_cons, bytes_append, List.cons_append, List.append_assoc]
    rw [clean_open (Or.inr rfl), hstep]
    exact iff_of_eq (congrArg (· = true) (clean_close hd (Or.inr rfl) _))
  | emptyObject hw =>
    refine ⟨closeBrace, fun r => ?_, fun _ => nofun⟩
    simp only [bytes_cons, bytes_append, bytes_mark, List.cons_append, List.append_assoc]
    rw [clean_open (Or.inl rfl), clean_blank hw]
    exact iff_of_eq (congrArg (· = true) (clean_close hd (Or.inl rfl) _))
  | object _ ih =>
    obtain ⟨prev', hstep, -⟩ := ih (Nat.succ_pos _) openBrace
    refine ⟨closeBrace, fun r => ?_, fun _ => nofun⟩
    simp only [bytes_cons, bytes_append, List.cons_append, List.append_assoc]
    rw [clean_open (Or.inl rfl), hstep]
    exact iff_of_eq (congrArg (· = true) (clean_close hd (Or.inl rfl) _))
  | lastItem hb ha _ ih =>
    obtain ⟨prev', hstep, -⟩ := ih hd prev
    refine ⟨prev', fun r => ?_, nofun⟩
    simp only [bytes_append, bytes_mark, List.append_assoc, clean_blank hb, clean_blank ha, hstep]
  | item hb ha _ _ ih ihrest =>
    obtain ⟨prev', hstep, -⟩ := ih hd prev
    obtain ⟨prev'', hstep', -⟩ := ihrest hd comma
    refine ⟨prev'', fun r => ?_, nofun⟩
    simp only [bytes_append, bytes_cons, bytes_mark, List.append_assoc, List.cons_append,
      clean_blank hb, clean_blank ha, clean_comma hd, hstep, hstep']
  | lastMember hkb hka hvb hva hkey _ _ ihk ihv =>
    obtain ⟨prev', hstep, hstring⟩ := ihk hd prev
    obtain ⟨prev'', hstep', -⟩ := ihv hd colon
    refine ⟨prev'', fun r => ?_, nofun⟩
    simp only [bytes_append, bytes_cons, bytes_mark, List.append_assoc, List.cons_append,
      clean_blank hkb, clean_blank hka, clean_blank hvb, clean_blank hva, clean_colon hd, hstep,
      hstep', hstring rfl hkey, true_and]
  | member hkb hka hvb hva hkey _ _ _ ihk ihv ihrest =>
    obtain ⟨prev', hstep, hstring⟩ := ihk hd prev
    obtain ⟨prev'', hstep', -⟩ := ihv hd colon
    obtain ⟨last, hrest, -⟩ := ihrest hd comma
    refine ⟨last, fun r => ?_, nofun⟩
    simp only [bytes_append, bytes_cons, bytes_mark, List.append_assoc, List.cons_append,
      clean_blank hkb, clean_blank hka, clean_blank hvb, clean_blank hva, clean_colon hd,
      clean_comma hd, hstep, hstep', hrest, hstring rfl hkey, true_and]

/-- The same for a value that no container is open around: what follows it does not count. -/
theorem marked_of_clean_top (h : Marked Readable AnyKey .value 0 m) (r : List UInt8)
    (hc : clean (.outside 0 prev) (m.bytes ++ r) = true) : Marked Body IsString .value 0 m := by
  cases h with
  | scalar h =>
    rw [bytes_mark] at hc
    rcases scalar_cases h with ⟨body, rfl, hbody⟩ | ⟨-, -, hscalar⟩
    · rw [append_quote, clean_quote, clean_inside hbody.1] at hc
      exact .scalar (.string (body_of_readable hbody hc.1))
    · exact .scalar (hscalar Body)
  | emptyArray hw => exact .emptyArray hw
  | array h =>
    simp only [bytes_cons, bytes_append, List.cons_append, List.append_assoc] at hc
    rw [clean_open (Or.inr rfl)] at hc
    exact .array (marked_of_clean h Nat.one_pos _ _ hc).1
  | emptyObject hw => exact .emptyObject hw
  | object h =>
    simp only [bytes_cons, bytes_append, List.cons_append, List.append_assoc] at hc
    rw [clean_open (Or.inl rfl)] at hc
    exact .object (marked_of_clean h Nat.one_pos _ _ hc).1

theorem clean_of_marked_top (h : Marked Body IsString .value 0 m) (r : List UInt8) :
    clean (.outside 0 prev) (m.bytes ++ r) = true := by
  cases h with
  | scalar h =>
    rw [bytes_mark]
    rcases scalar_cases h with ⟨body, rfl, hbody⟩ | ⟨hother, hne, -⟩
    · rw [append_quote, clean_quote, clean_inside (closed_of_body hbody)]
      exact ⟨body_ge hbody, Or.inl rfl⟩
    · obtain ⟨b, rest, rfl⟩ := List.exists_cons_of_ne_nil hne
      rw [List.cons_append, clean_other (hother b List.mem_cons_self)]
      rfl
  | emptyArray hw =>
    simp only [bytes_cons, bytes_append, bytes_mark, List.cons_append, List.append_assoc]
    rw [clean_open (Or.inr rfl), clean_blank hw]
    exact clean_close_last (Or.inr rfl) _
  | array h =>
    obtain ⟨prev', hstep, -⟩ := clean_of_marked h Nat.one_pos openBracket
    simp only [bytes_cons, bytes_append, List.cons_append, List.append_assoc]
    rw [clean_open (Or.inr rfl)]
    exact (hstep _).mpr (clean_close_last (Or.inr rfl) _)
  | emptyObject hw =>
    simp only [bytes_cons, bytes_append, bytes_mark, List.cons_append, List.append_assoc]
    rw [clean_open (Or.inl rfl), clean_blank hw]
    exact clean_close_last (Or.inl rfl) _
  | object h =>
    obtain ⟨prev', hstep, -⟩ := clean_of_marked h Nat.one_pos openBrace
    simp only [bytes_cons, bytes_append, List.cons_append, List.append_assoc]
    rw [clean_open (Or.inl rfl)]
    exact (hstep _).mpr (clean_close_last (Or.inl rfl) _)

theorem value_of_clean {n : ℕ} (h : Accepted n text) (r : List UInt8)
    (hc : clean (.outside 0 prev) (text ++ r) = true) : JsonText.Value Body IsString n text := by
  obtain ⟨m, hm, rfl, hbound⟩ := h.hasMarks 0
  exact (marked_of_clean_top hm r hc).nested hbound

theorem clean_of_value {n : ℕ} (h : JsonText.Value Body IsString n text) (r : List UInt8) :
    clean (.outside 0 prev) (text ++ r) = true := by
  obtain ⟨m, hm, rfl, -⟩ := h.hasMarks 0
  exact clean_of_marked_top hm r

end Texts

end Scan

namespace ZeroCopyParser
variable {utf8Error : List UInt8 → String} {s t : ZeroCopyParser} {input : List UInt8}
  {v : LazyJsonValue}

/-- What the parser has consumed is a text of RFC 8259, after white space. -/
def ConsumesJson (input : List UInt8) (t : ZeroCopyParser) : Prop :=
  ∃ n ws text, Blank ws ∧ JsonText.Value Body IsString n text ∧ input.take t.position = ws ++ text

/-- No string of the first value holds a control byte, and every colon stands after a string. -/
def Clean (input : List UInt8) : Prop := Scan.clean (.outside 0 openBracket) input = true

instance (input : List UInt8) : Decidable (Clean input) := inferInstanceAs (Decidable (_ = true))

theorem clean_of_consumesJson (h : ConsumesJson input t) : Clean input := by
  obtain ⟨n, ws, text, hws, htext, hconsumed⟩ := h
  have hinput : input = ws ++ (text ++ input.drop t.position) := by
    rw [← List.append_assoc, ← hconsumed, List.take_append_drop]
  unfold Clean
  rw [hinput, Scan.clean_blank hws]
  exact Scan.clean_of_value htext _

/-- What is consumed of an accepted input is a text of RFC 8259 iff the input is clean. -/
theorem parseLazy_sound_iff (h : exec (parseLazy utf8Error input) s = (.ok v, t)) :
    ConsumesJson input t ↔ Clean input := by
  refine ⟨clean_of_consumesJson, fun hclean => ?_⟩
  obtain ⟨-, ws, text, w, rfl, hws, htext, -, rfl⟩ := parseLazy_ok utf8Error h
  unfold Clean at hclean
  rw [Scan.clean_blank hws] at hclean
  refine ⟨_, ws, text, hws, Scan.value_of_clean htext w hclean, ?_⟩
  have hposition : ((s.loaded (ws ++ (text ++ w))).moved (ws.length + text.length)).position =
      (ws ++ text).length := by
    rw [List.length_append]
    exact Nat.zero_add _
  rw [hposition, ← List.append_assoc, List.take_left]

theorem parses_bytes {text : List UInt8} (htext : Scan.Accepted 8 text)
    (hsize : text.length ≤ 100) : ∃ v t,
      exec (parseLazy (fun _ => "") text) (.new ⟨100, 8⟩) = (.ok v, t) := by
  obtain ⟨v, hv⟩ := htext.lazyOf
  have h := @parseLazy_accepted (fun _ => "") (.new ⟨100, 8⟩) v [] text []
    (show ([] ++ (text ++ [])).length ≤ 100 by simpa using hsize)
    nofun htext hv nofun
  rw [List.nil_append, List.append_nil] at h
  exact ⟨v, _, h⟩

theorem isNumber_digit {b : UInt8} (h : isDigit b = true) : IsNumber [b] :=
  ⟨⟨false, [b], none, none⟩, ⟨⟨List.cons_ne_nil _ _, List.forall_mem_singleton.mpr h⟩,
    fun hzero => by rw [List.head?_cons] at hzero; rw [Option.some.inj hzero], nofun, nofun⟩, rfl⟩

/-- The text `{"":1}`. -/
def emptyKeyBytes : List UInt8 := [openBrace, quote, quote, colon, 0x31, closeBrace]

/-- The text `{1:2}`. -/
def numberKeyBytes : List UInt8 := [openBrace, 0x31, colon, 0x32, closeBrace]

theorem accepted_member {key value : List UInt8} (hk : Scan.Accepted 7 key)
    (hv : Scan.Accepted 7 value) :
    Scan.Accepted 8 (openBrace :: (key ++ colon :: value ++ [closeBrace])) := by
  have h := @JsonText.Value.object Scan.Readable Scan.AnyKey 7 [(⟨[], key, []⟩, ⟨[], value, []⟩)]
    (List.cons_ne_nil _ _) (List.forall_mem_singleton.mpr ⟨⟨nofun, nofun⟩, nofun, nofun⟩)
    (List.forall_mem_singleton.mpr trivial) (List.forall_mem_singleton.mpr hk)
    (List.forall_mem_singleton.mpr hv)
  simpa [JsonText.commaSeparated, JsonText.memberBytes, JsonText.Padded.bytes] using h

theorem accepted_emptyKey : Scan.Accepted 8 emptyKeyBytes :=
  accepted_member (@JsonText.Value.string _ _ 7 [] ⟨Scan.closed_nil, _, rfl⟩)
    (.number (isNumber_digit (by decide)))

theorem accepted_numberKey : Scan.Accepted 8 numberKeyBytes :=
  accepted_member (.number (isNumber_digit (by decide))) (.number (isNumber_digit (by decide)))

theorem parseLazy_sound_emptyKey : ∃ v t,
    exec (parseLazy (fun _ => "") emptyKeyBytes) (.new ⟨100, 8⟩) = (.ok v, t) ∧
      ConsumesJson emptyKeyBytes t := by
  obtain ⟨v, t, h⟩ := parses_bytes accepted_emptyKey (by decide)
  exact ⟨v, t, h, (parseLazy_sound_iff h).mpr (by decide)⟩

/-- A number is taken for a key. -/
theorem number_key :
    ¬∀ (utf8Error : List UInt8 → String) (s t : ZeroCopyParser) (input : List UInt8)
      (v : LazyJsonValue), exec (parseLazy utf8Error input) s = (.ok v, t) →
      ConsumesJson input t := by
  intro h
  obtain ⟨v, t, hparse⟩ := parses_bytes accepted_numberKey (by decide)
  exact absurd (clean_of_consumesJson (h _ _ _ _ _ hparse)) (by decide)

end ZeroCopyParser

end PJS
