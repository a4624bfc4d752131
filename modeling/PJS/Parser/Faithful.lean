import PJS.Lib.Marked
import PJS.Parser.Slices

/-! Completeness: every JSON text is parsed, and a string at the top is decoded to the text it
spells. -/
namespace PJS
open Check
open JsonText (quote backslash isWhitespace Blank hex4 hex4_plain simpleEscape Spells IsString)

namespace Scan
variable {body w u : List UInt8} {cs : List Char} {c : Char}

section Utf8

/-- A byte of a character is the character itself, or outside of ASCII. -/
theorem mem_utf8EncodeChar {b : UInt8} (h : b ∈ String.utf8EncodeChar c) :
    b.toNat = c.toNat ∨ 0x80 ≤ b.toNat := by
  have hnat : ∀ n, n < 256 → (UInt8.ofNat n).toNat = n := fun n hn => UInt8.toNat_ofNat_of_lt' hn
  have hvalid : c.val.toNat < 0xD800 ∨ 0xDFFF < c.val.toNat ∧ c.val.toNat < 0x110000 := c.valid
  change b.toNat = c.val.toNat ∨ _
  unfold String.utf8EncodeChar at h
  simp only at h
  generalize c.val.toNat = v at h hvalid
  split_ifs at h with h1 h2 h3 <;>
    simp only [List.mem_cons, List.not_mem_nil, or_false] at h
  · rw [h, hnat v (by omega)]
    exact Or.inl rfl
  · right
    rcases h with rfl | rfl <;> rw [hnat _ (by omega)] <;> omega
  · right
    rcases h with rfl | rfl | rfl <;> rw [hnat _ (by omega)] <;> omega
  · right
    rcases h with rfl | rfl | rfl | rfl <;> rw [hnat _ (by omega)] <;> omega

theorem utf8_plain (hq : c ≠ '"') (hs : c ≠ '\\') :
    ∀ b ∈ String.utf8EncodeChar c, b ≠ quote ∧ b ≠ backslash := by
  intro b hb
  have hne : ∀ (d : Char) (e : UInt8), d.toNat = e.toNat → e.toNat < 0x80 → c ≠ d → b ≠ e := by
    rintro d e hde he hcd rfl
    rcases mem_utf8EncodeChar hb with h | h
    · exact hcd (Char.toNat_inj.mp (h.symm.trans hde.symm))
    · omega
  exact ⟨hne '"' quote rfl (by decide) hq, hne '\\' backslash rfl (by decide) hs⟩

theorem charFromU32_toNat (c : Char) : ZeroCopyParser.charFromU32 c.toNat = some c := by
  have hvalid : c.toNat.isValidChar := c.valid
  unfold ZeroCopyParser.charFromU32
  rw [dif_pos hvalid]
  have hsame : Char.ofNatAux c.toNat hvalid = c := by
    apply Char.ext
    apply UInt32.toNat.inj
    rfl
  rw [hsame]

end Utf8

section Bodies

theorem Closed.append (hu : ∀ b ∈ u, b ≠ quote ∧ b ≠ backslash) (h : Closed body) :
    Closed (u ++ body) := by
  induction u with
  | nil => exact h
  | cons b u ih =>
    obtain ⟨hq, hs⟩ := hu b List.mem_cons_self
    exact (ih fun c hc => hu c (List.mem_cons_of_mem b hc)).plain hq hs

theorem unescape_append (hu : ∀ b ∈ u, b ≠ backslash) (w : List UInt8) :
    unescape (u ++ w) = (unescape w).map (u ++ ·) := by
  induction u with
  | nil => exact Option.map_id'.symm
  | cons b u ih =>
    rw [List.cons_append, unescape_cons, unescapeStep_plain (hu b List.mem_cons_self),
      Option.bind_some, ih fun c hc => hu c (List.mem_cons_of_mem b hc), Option.map_map]
    rfl

/-- A body that spells a text ends where it should. -/
theorem closed_of_spells (h : Spells body cs) : Closed body := by
  induction h with
  | nil => exact closed_nil
  | plain _ hq hs _ ih => exact ih.append (utf8_plain hq hs)
  | escape _ _ ih => exact ih.escape _
  | @unicode b₁ b₂ b₃ b₄ _ _ _ hv _ ih =>
    exact (@Closed.append _ [b₁, b₂, b₃, b₄] (hex4_plain hv) ih).escape 0x75
  | @pair b₁ b₂ b₃ b₄ c₁ c₂ c₃ c₄ _ _ _ _ _ hh hl _ _ _ _ ih =>
    have hlow := (@Closed.append _ [c₁, c₂, c₃, c₄] (hex4_plain hl) ih).escape 0x75
    exact (@Closed.append _ [b₁, b₂, b₃, b₄] (hex4_plain hh) hlow).escape 0x75

theorem simpleEscape_utf8 {b e : UInt8} (h : simpleEscape b = some e) :
    b ≠ 0x75 ∧ String.utf8EncodeChar (Char.ofNat e.toNat) = [e] := by
  refine ⟨?_, ?_⟩
  · rintro rfl
    cases h
  · unfold simpleEscape at h
    split_ifs at h <;> cases h <;> decide

theorem encode_cons (c : Char) (cs : List Char) :
    Utf8.encode (c :: cs) = String.utf8EncodeChar c ++ Utf8.encode cs := rfl

/-- Removing the escapes of a body leaves the text that it spells, in UTF-8. -/
theorem unescape_of_spells (h : Spells body cs) : unescape body = some (Utf8.encode cs) := by
  induction h with
  | nil => exact unescape_nil
  | plain _ hq hs _ ih =>
    rw [unescape_append fun b hb => (utf8_plain hq hs b hb).2, ih]
    rfl
  | escape he _ ih =>
    obtain ⟨hne, hutf8⟩ := simpleEscape_utf8 he
    rw [unescape_cons, unescapeStep_simple hne, he, Option.map_some, Option.bind_some, ih,
      encode_cons, hutf8]
    rfl
  | @unicode b₁ b₂ b₃ b₄ c rest cs hv _ ih =>
    have hvalid : c.toNat < 0xD800 ∨ 0xDFFF < c.toNat ∧ c.toNat < 0x110000 := c.valid
    have hescape : unicodeEscape (b₁ :: b₂ :: b₃ :: b₄ :: rest) = some (c.toNat, rest) := by
      rw [unicodeEscape_cons, hv, Option.bind_some, if_neg (by omega), if_neg (by omega)]
    rw [unescape_cons, unescapeStep_unicode, hescape, Option.bind_some, charFromU32_toNat,
      Option.bind_some, Option.bind_some, ih]
    rfl
  | @pair b₁ b₂ b₃ b₄ c₁ c₂ c₃ c₄ high low c rest cs hh hl rh rl hc _ ih =>
    have hescape : unicodeEscape (b₁ :: b₂ :: b₃ :: b₄ ::
        backslash :: 0x75 :: c₁ :: c₂ :: c₃ :: c₄ :: rest) = some (c.toNat, rest) := by
      rw [unicodeEscape_cons, hh, Option.bind_some, if_pos rh, lowSurrogate_cons, hl,
        Option.bind_some, if_pos rl, Option.bind_some, hc]
    rw [unescape_cons, unescapeStep_unicode, hescape, Option.bind_some, charFromU32_toNat,
      Option.bind_some, Option.bind_some, ih]
    rfl

theorem fromUtf8_encode (cs : List Char) : ZeroCopyParser.fromUtf8 (Utf8.encode cs) = some cs := by
  unfold ZeroCopyParser.fromUtf8
  rw [Utf8.Decoder.run_encode]
  exact if_pos rfl

/-- What is returned for a body that spells a text: the text itself, or its bytes as they are. -/
theorem readBody_of_spells (h : Spells body cs) : readBody body =
    some (if body.contains backslash then .stringOwned cs else .stringBorrowed (Utf8.encode cs)) := by
  have hunescape := unescape_of_spells h
  unfold readBody
  split_ifs with hescape
  · rw [unescapeString, hunescape, Option.bind_some, fromUtf8_encode]
    rfl
  · have hplain : ∀ b ∈ body, b ≠ backslash := by
      rintro b hb rfl
      exact hescape (List.contains_iff_mem.mpr hb)
    have hsame := unescape_append hplain []
    rw [List.append_nil, hunescape, unescape_nil, Option.map_some, List.append_nil] at hsame
    rw [Option.some.inj hsame]

theorem readable_of_spells (h : Spells body cs) : Readable body :=
  ⟨closed_of_spells h, _, readBody_of_spells h⟩

end Bodies

end Scan

namespace ZeroCopyParser
variable (utf8Error : List UInt8 → String)

/-- A JSON text that nests at most `n` containers: every string spells a text, and every key is a
string. -/
abbrev JsonOf (n : ℕ) (text : List UInt8) : Prop :=
  JsonText.Value (fun body => ∃ cs, Spells body cs) IsString n text

theorem JsonOf.accepted {n : ℕ} {text : List UInt8} (h : JsonOf n text) : Scan.Accepted n text :=
  h.mono (fun _ ⟨_, hcs⟩ => Scan.readable_of_spells hcs) fun _ _ => trivial

/-- Every JSON text within the limits is parsed, and leaves the white space after it; a string at
the top is returned as the text that it spells. -/
theorem parse_lazy_complete (s : ZeroCopyParser) (before text after : List UInt8)
    (hbefore : Blank before) (hafter : Blank after) (h : JsonOf s.limits.maxDepth text)
    (hsize : (before ++ (text ++ after)).length ≤ s.limits.maxInputSize) :
    ∃ v t, exec (parseLazy utf8Error (before ++ (text ++ after))) s = (.ok v, t) ∧
      t.remaining = after ∧
      ∀ body cs, text = quote :: (body ++ [quote]) → Spells body cs →
        v = .stringBorrowed (Utf8.encode cs) ∨ v = .stringOwned cs := by
  have haccepted := h.accepted
  obtain ⟨v, hv⟩ := haccepted.lazyOf
  have hfollow : ∀ b ∈ after.head?, Scan.Follower b := by
    intro b hb
    exact Or.inl (hafter b (List.mem_of_head? hb))
  refine ⟨v, _, parseLazy_accepted utf8Error hsize hbefore haccepted hv hfollow, ?_, ?_⟩
  · rw [← List.append_assoc, ← List.length_append]
    exact remaining_moved s
  · rintro body cs rfl hcs
    rw [Scan.lazyOf_string, Scan.readBody_of_spells hcs] at hv
    cases hv
    split_ifs
    · exact Or.inr rfl
    · exact Or.inl rfl

/-- A string with an escape, between white space: `"a\n"`. -/
theorem parse_lazy_complete_escape :
    ∃ v t, exec (parseLazy (fun _ => "")
        ([0x20] ++ (quote :: ([0x61, backslash, 0x6E] ++ [quote]) ++ [0x0A])))
        (.new ⟨100, 0⟩) = (.ok v, t) ∧ t.remaining = [0x0A] ∧
      (v = .stringBorrowed (Utf8.encode ['a', '\n']) ∨ v = .stringOwned ['a', '\n']) := by
  have hspells : Spells [0x61, backslash, 0x6E] ['a', '\n'] :=
    @Spells.plain 'a' [backslash, 0x6E] ['\n'] (by decide) (by decide) (by decide)
      (@Spells.escape 0x6E 0x0A [] [] rfl .nil)
  obtain ⟨v, t, hexec, hremaining, hstring⟩ := parse_lazy_complete (fun _ => "") (.new ⟨100, 0⟩)
    [0x20] (quote :: ([0x61, backslash, 0x6E] ++ [quote])) [0x0A] (by simp [Blank, isWhitespace])
    (by simp [Blank, isWhitespace]) (.string ⟨_, hspells⟩) (by decide)
  exact ⟨v, t, hexec, hremaining, hstring _ _ rfl hspells⟩

end ZeroCopyParser

end PJS
