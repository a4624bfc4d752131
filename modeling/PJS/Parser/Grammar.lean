import PJS.Parser.Leaves

/-! The grammar of what the scanner accepts: that of JSON texts, with the string bodies that can be
read, and with any value in the place of a key. The scanner takes the texts of this grammar and
nothing else, and what it returns is a function of the text. -/
namespace PJS.Scan
open JsonText (quote backslash comma colon openBrace closeBrace openBracket closeBracket
  isWhitespace isDigit Blank Padded commaSeparated memberBytes Number IsNumber)

/-- Any value may stand before a colon. -/
def AnyKey (_ : List UInt8) : Prop := True

abbrev Accepted (n : ℕ) (text : List UInt8) : Prop := JsonText.Value Readable AnyKey n text

/-- What is returned for the text of a value. -/
def lazyOf (text : List UInt8) : Option LazyJsonValue :=
  match text with
  | [] => none
  | b :: rest =>
    if b = quote then readBody rest.dropLast
    else if b = openBrace then some (.objectSlice text)
    else if b = openBracket then some (.arraySlice text)
    else if b = 0x74 then some (.boolean true)
    else if b = 0x66 then some (.boolean false)
    else if b = 0x6E then some .null
    else some (.numberSlice text)

section Blanks
variable {ws w r : List UInt8} {b : UInt8}

theorem skipWhitespace_append (hw : Blank ws) (hr : r.head?.any isWhitespace = false) :
    skipWhitespace (ws ++ r) = some ((), r) :=
  skipWhile_append hw hr

theorem skipWhitespace_sound {a : Unit} (h : skipWhitespace w = some (a, r)) :
    ∃ ws, w = ws ++ r ∧ Blank ws ∧ r.head?.any isWhitespace = false :=
  skipWhile_split h

theorem skipWhitespace_blank (hw : Blank ws) (w : List UInt8) :
    skipWhitespace (ws ++ w) = skipWhitespace w := by
  unfold skipWhitespace skipWhile
  rw [List.dropWhile_append_of_pos hw]

theorem expect_cons (b : UInt8) (w : List UInt8) : expect b (b :: w) = some ((), w) := by
  unfold expect
  rw [nextIs_bind, List.head?_cons, Option.any_some, beq_self_eq_true]
  rfl

theorem expect_sound {a : Unit} (h : expect b w = some (a, r)) : w = b :: r := by
  unfold expect at h
  rw [nextIs_bind] at h
  split_ifs at h with hb
  · cases w with
    | nil => cases hb
    | cons c w =>
      obtain rfl : c = b := by simpa using hb
      cases h
      rfl
  · cases h

theorem Blank.append (hw : Blank ws) (hr : Blank r) : Blank (ws ++ r) := by
  intro b hb
  rcases List.mem_append.mp hb with hb | hb
  · exact hw b hb
  · exact hr b hb

end Blanks

section Entries
variable {item : Scan Unit} {close : UInt8} {first : Bool} {w r : List UInt8}
  {Q : List UInt8 → Prop}

/-- The pieces of a list, or what comes after a first piece. -/
def joined (first : Bool) (bs : List (List UInt8)) : List UInt8 :=
  if first then commaSeparated bs else bs.flatMap (comma :: ·)

theorem commaSeparated_cons (b : List UInt8) (bs : List (List UInt8)) :
    commaSeparated (b :: bs) = b ++ bs.flatMap (comma :: ·) := by
  induction bs generalizing b with
  | nil => exact (List.append_nil b).symm
  | cons c bs ih =>
    show b ++ comma :: commaSeparated (c :: bs) = _
    rw [ih]
    rfl

theorem entry_sound {more : Bool} (h : entry item close first w = some (more, r)) :
    (more = false ∧ r = w ∧ w.head?.any (· != close) = false) ∨
      more = true ∧ ∃ pre u, w = pre ++ u ∧ item u = some ((), r) ∧
        if first then pre = [] else ∃ ws, Blank ws ∧ pre = comma :: ws := by
  unfold entry at h
  rw [nextIs_bind] at h
  by_cases hnext : w.head?.any (· != close) = true
  · right
    rw [if_pos hnext] at h
    obtain ⟨_, u, hpre, hrest⟩ := bind_eq_some h
    obtain ⟨_, r', hitem, hmore⟩ := bind_eq_some hrest
    cases hmore
    refine ⟨rfl, ?_⟩
    cases first with
    | true =>
      cases hpre
      exact ⟨[], w, rfl, hitem, rfl⟩
    | false =>
      obtain ⟨_, u', hcomma, hskip⟩ := bind_eq_some hpre
      obtain ⟨ws, rfl, hws, -⟩ := skipWhitespace_sound hskip
      obtain rfl := expect_sound hcomma
      exact ⟨comma :: ws, u, rfl, hitem, ws, hws, rfl⟩
  · rw [if_neg hnext] at h
    cases h
    exact Or.inl ⟨rfl, rfl, by rwa [Bool.not_eq_true] at hnext⟩

theorem entries_sound (hitem : ∀ w r, item w = some ((), r) → ∃ bytes, w = bytes ++ r ∧ Q bytes)
    (hQ : ∀ ws bytes, Blank ws → Q bytes → Q (ws ++ bytes))
    (h : entries item close first w = some ((), r)) :
    r.head?.any (· != close) = false ∧ ∃ bs, (∀ b ∈ bs, Q b) ∧ w = joined first bs ++ r := by
  induction hn : w.length using Nat.strong_induction_on generalizing w first with
  | _ n ih =>
    subst hn
    rw [entries] at h
    cases hentry : entry item close first w with
    | none =>
      rw [hentry] at h
      cases h
    | some p =>
      obtain ⟨more, u⟩ := p
      rw [hentry] at h
      rcases entry_sound hentry with ⟨rfl, rfl, hend⟩ | ⟨rfl, pre, v, rfl, hrun, hpre⟩
      · cases h
        refine ⟨hend, [], nofun, ?_⟩
        cases first <;> rfl
      · simp only at h
        split_ifs at h with hlt
        obtain ⟨hend, bs, hbs, rfl⟩ := ih _ hlt h rfl
        obtain ⟨bytes, rfl, hbytes⟩ := hitem _ _ hrun
        refine ⟨hend, ?_⟩
        cases first with
        | true =>
          obtain rfl : pre = [] := hpre
          refine ⟨bytes :: bs, ?_, ?_⟩
          · intro b hb
            rcases List.mem_cons.mp hb with rfl | hb
            · exact hbytes
            · exact hbs b hb
          · show bytes ++ (bs.flatMap (comma :: ·) ++ r) = commaSeparated (bytes :: bs) ++ r
            rw [commaSeparated_cons, List.append_assoc]
        | false =>
          obtain ⟨ws, hws, rfl⟩ : ∃ ws, Blank ws ∧ pre = comma :: ws := hpre
          refine ⟨(ws ++ bytes) :: bs, ?_, ?_⟩
          · intro b hb
            rcases List.mem_cons.mp hb with rfl | hb
            · exact hQ ws bytes hws hbytes
            · exact hbs b hb
          · show comma :: ws ++ (bytes ++ (bs.flatMap (comma :: ·) ++ r)) =
              comma :: (ws ++ bytes) ++ bs.flatMap (comma :: ·) ++ r
            simp only [List.cons_append, List.append_assoc]

/-- A container is empty, or holds pieces that its items read. -/
theorem container_sound {open' : UInt8} {variant : List UInt8 → LazyJsonValue} {v : LazyJsonValue}
    (hitem : ∀ w r, item w = some ((), r) → ∃ bytes, w = bytes ++ r ∧ Q bytes)
    (hQ : ∀ ws bytes, Blank ws → Q bytes → Q (ws ++ bytes))
    (h : container item open' close variant w = some (v, r)) :
    ∃ text, w = text ++ r ∧ v = variant text ∧
      ((∃ ws, Blank ws ∧ text = open' :: (ws ++ [close])) ∨
        ∃ bs, bs ≠ [] ∧ (∀ b ∈ bs, Q b) ∧ text = open' :: (commaSeparated bs ++ [close])) := by
  unfold container at h
  obtain ⟨slice, u, hslice, h⟩ := bind_eq_some h
  cases h
  obtain ⟨hrun, rfl⟩ := consumed_eq_some hslice
  obtain ⟨_, w₁, hopen, hskips⟩ := bind_eq_some hrun
  obtain ⟨_, w₂, hskip, hbody⟩ := bind_eq_some hskips
  clear hrun hskips hslice
  obtain rfl := expect_sound hopen
  obtain ⟨ws, rfl, hws, -⟩ := skipWhitespace_sound hskip
  have htext : ∀ text, open' :: (ws ++ w₂) = text ++ r →
      (open' :: (ws ++ w₂)).take ((open' :: (ws ++ w₂)).length - r.length) = text := by
    intro text heq
    rw [heq, List.length_append, Nat.add_sub_cancel, List.take_left]
  rw [nextIs_bind] at hbody
  by_cases hclose : w₂.head?.any (· == close) = true
  · rw [if_pos hclose] at hbody
    cases w₂ with
    | nil => cases hclose
    | cons c w₂ =>
      obtain rfl : c = close := by simpa using hclose
      cases hbody
      have heq : open' :: (ws ++ c :: w₂) = open' :: (ws ++ [c]) ++ w₂ := by simp
      rw [htext _ heq]
      exact ⟨_, heq, rfl, Or.inl ⟨ws, hws, rfl⟩⟩
  · rw [if_neg hclose] at hbody
    obtain ⟨_, w₃, hentries, hend⟩ := bind_eq_some hbody
    obtain rfl := expect_sound hend
    obtain ⟨-, bs, hbs, rfl⟩ := entries_sound hitem hQ hentries
    cases bs with
    | nil =>
      exfalso
      apply hclose
      simp [joined, commaSeparated]
    | cons b bs =>
      have heq : open' :: (ws ++ (joined true (b :: bs) ++ close :: r)) =
          open' :: (commaSeparated ((ws ++ b) :: bs) ++ [close]) ++ r := by
        simp [joined, commaSeparated_cons]
      rw [htext _ heq]
      refine ⟨_, heq, rfl, Or.inr ⟨(ws ++ b) :: bs, List.cons_ne_nil _ _, ?_, rfl⟩⟩
      intro c hc
      rcases List.mem_cons.mp hc with rfl | hc
      · exact hQ ws b hws (hbs b List.mem_cons_self)
      · exact hbs c (List.mem_cons_of_mem b hc)

end Entries

section Sound
variable {w r : List UInt8} {v : LazyJsonValue} {n : ℕ}

/-- What the scanner has read as a value. -/
def Read (n : ℕ) (w r : List UInt8) (v : LazyJsonValue) : Prop :=
  ∃ text, w = text ++ r ∧ Accepted n text ∧ lazyOf text = some v

theorem literal_sound {text : List UInt8} {v' : LazyJsonValue}
    (h : literal text v' w = some (v, r)) : w = text ++ r ∧ v = v' := by
  unfold literal at h
  obtain ⟨b, u, hstart, hrest⟩ := bind_eq_some h
  cases hstart
  by_cases hb : (w.take text.length == text) = true
  · rw [if_pos hb] at hrest
    obtain ⟨_, u, htake, hpure⟩ := bind_eq_some hrest
    cases hpure
    unfold take at htake
    split_ifs at htake
    cases htake
    refine ⟨?_, rfl⟩
    conv_lhs => rw [← List.take_append_drop text.length w, eq_of_beq hb]
  · rw [if_neg hb] at hrest
    cases hrest

theorem boolean_sound (h : boolean w = some (v, r)) : Read n w r v := by
  unfold boolean at h
  obtain ⟨b, u, hstart, hrest⟩ := bind_eq_some h
  by_cases hb : b = true
  · rw [if_pos hb] at hrest
    have htrue : literal [0x74, 0x72, 0x75, 0x65] (.boolean true) w = some (v, r) := by
      unfold literal
      rw [bind_of_some hstart, if_pos hb]
      exact hrest
    obtain ⟨rfl, rfl⟩ := literal_sound htrue
    exact ⟨_, rfl, .true, rfl⟩
  · rw [if_neg hb] at hrest
    cases hstart
    obtain ⟨rfl, rfl⟩ := literal_sound hrest
    exact ⟨_, rfl, .false, rfl⟩

theorem null_sound (h : null w = some (v, r)) : Read n w r v := by
  obtain ⟨rfl, rfl⟩ := literal_sound h
  exact ⟨_, rfl, .null, rfl⟩

/-- Bytes that no number starts with. -/
theorem number_head {text : List UInt8} (h : IsNumber text) :
    ∃ b rest, text = b :: rest ∧ (b = 0x2D ∨ isDigit b = true) := by
  obtain ⟨⟨minus, int, frac, exp⟩, hvalid, rfl⟩ := h
  cases minus with
  | true => exact ⟨0x2D, _, rfl, Or.inl rfl⟩
  | false =>
    obtain ⟨d, ds, hds⟩ := List.exists_cons_of_ne_nil hvalid.int.1
    simp only at hds
    subst hds
    exact ⟨d, _, rfl, Or.inr (hvalid.int.2 d List.mem_cons_self)⟩

theorem number_head_ne {b : UInt8} (hb : b = 0x2D ∨ isDigit b = true) (c : UInt8)
    (hminus : c ≠ 0x2D) (hdigit : isDigit c = false) : b ≠ c := by
  rintro rfl
  rcases hb with hb | hb
  · exact hminus hb
  · rw [hdigit] at hb
    cases hb

theorem lazyOf_number {text : List UInt8} (h : IsNumber text) :
    lazyOf text = some (.numberSlice text) := by
  obtain ⟨b, rest, rfl, hb⟩ := number_head h
  have hne := number_head_ne hb
  unfold lazyOf
  simp only
  rw [if_neg (hne _ (by decide) rfl), if_neg (hne _ (by decide) rfl),
    if_neg (hne _ (by decide) rfl), if_neg (hne _ (by decide) rfl), if_neg (hne _ (by decide) rfl),
    if_neg (hne _ (by decide) rfl)]

theorem lazyOf_string (body : List UInt8) : lazyOf (quote :: (body ++ [quote])) = readBody body := by
  unfold lazyOf
  simp only [if_true]
  rw [List.dropLast_concat]

/-- The dispatch on the first byte that is not white space. -/
theorem valueWith_sound {object array : Scan LazyJsonValue}
    (hobject : ∀ w v r, object w = some (v, r) → Read n w r v)
    (harray : ∀ w v r, array w = some (v, r) → Read n w r v)
    (h : valueWith object array w = some (v, r)) :
    ∃ ws u, w = ws ++ u ∧ Blank ws ∧ Read n u r v := by
  unfold valueWith at h
  obtain ⟨_, u, hskip, hrest⟩ := bind_eq_some h
  obtain ⟨ws, rfl, hws, -⟩ := skipWhitespace_sound hskip
  refine ⟨ws, u, rfl, hws, ?_⟩
  cases u with
  | nil => cases hrest
  | cons b u =>
    have hdispatch : (if b = quote then string
        else if b = openBrace then object
        else if b = openBracket then array
        else if b = 0x74 ∨ b = 0x66 then boolean
        else if b = 0x6E then null
        else if b = 0x2D ∨ isDigit b then number
        else fail) (b :: u) = some (v, r) := hrest
    split_ifs at hdispatch
    · obtain ⟨body, hw, hclosed, hbody⟩ := string_sound hdispatch
      exact ⟨_, hw, .string ⟨hclosed, v, hbody⟩, (lazyOf_string body).trans hbody⟩
    · exact hobject _ _ _ hdispatch
    · exact harray _ _ _ hdispatch
    · exact boolean_sound hdispatch
    · exact null_sound hdispatch
    · obtain ⟨text, hw, hnumber, rfl⟩ := number_sound hdispatch
      exact ⟨text, hw, .number hnumber, lazyOf_number hnumber⟩
    · cases hdispatch

/-- The pieces of an array. -/
def IsElement (n : ℕ) (bytes : List UInt8) : Prop :=
  ∃ p : Padded, p.bytes = bytes ∧ p.Blank ∧ Accepted n p.text

/-- The pieces of an object. -/
def IsMember (n : ℕ) (bytes : List UInt8) : Prop :=
  ∃ m : Padded × Padded, memberBytes m = bytes ∧ (m.1.Blank ∧ m.2.Blank) ∧ Accepted n m.1.text ∧
    Accepted n m.2.text

theorem IsElement.blank {ws bytes : List UInt8} (hws : Blank ws) (h : IsElement n bytes) :
    IsElement n (ws ++ bytes) := by
  obtain ⟨p, rfl, hp, htext⟩ := h
  refine ⟨⟨ws ++ p.before, p.text, p.after⟩, ?_, ⟨Blank.append hws hp.1, hp.2⟩, htext⟩
  exact List.append_assoc _ _ _

theorem IsMember.blank {ws bytes : List UInt8} (hws : Blank ws) (h : IsMember n bytes) :
    IsMember n (ws ++ bytes) := by
  obtain ⟨⟨k, x⟩, rfl, hp, hk, hx⟩ := h
  refine ⟨⟨⟨ws ++ k.before, k.text, k.after⟩, x⟩, ?_,
    ⟨⟨Blank.append hws hp.1.1, hp.1.2⟩, hp.2⟩, hk, hx⟩
  simp only [memberBytes, Padded.bytes, List.append_assoc]

theorem exists_map_eq {α β : Type*} {f : α → β} {P : α → Prop} {bs : List β}
    (h : ∀ b ∈ bs, ∃ a, f a = b ∧ P a) : ∃ as : List α, as.map f = bs ∧ ∀ a ∈ as, P a := by
  induction bs with
  | nil => exact ⟨[], rfl, nofun⟩
  | cons b bs ih =>
    obtain ⟨a, rfl, ha⟩ := h b List.mem_cons_self
    obtain ⟨as, rfl, has⟩ := ih fun c hc => h c (List.mem_cons_of_mem _ hc)
    refine ⟨a :: as, rfl, fun c hc => ?_⟩
    rcases List.mem_cons.mp hc with rfl | hc
    · exact ha
    · exact has c hc

/-- What a scanner of values reads, as the grammar has it. -/
def Sound (n : ℕ) (nested : Scan LazyJsonValue) : Prop :=
  ∀ w v r, nested w = some (v, r) → ∃ ws u, w = ws ++ u ∧ Blank ws ∧ Read n u r v

theorem element_sound {nested : Scan LazyJsonValue} (hn : Sound n nested) (w r : List UInt8)
    (h : element nested w = some ((), r)) : ∃ bytes, w = bytes ++ r ∧ IsElement n bytes := by
  unfold element at h
  obtain ⟨v, u, hvalue, hskip⟩ := bind_eq_some h
  obtain ⟨ws, u', rfl, hws, text, rfl, htext, -⟩ := hn _ _ _ hvalue
  obtain ⟨ws', rfl, hws', -⟩ := skipWhitespace_sound hskip
  refine ⟨(Padded.mk ws text ws').bytes, ?_, _, rfl, ⟨hws, hws'⟩, htext⟩
  simp only [Padded.bytes, List.append_assoc]

theorem member_sound {nested : Scan LazyJsonValue} (hn : Sound n nested) (w r : List UInt8)
    (h : member nested w = some ((), r)) : ∃ bytes, w = bytes ++ r ∧ IsMember n bytes := by
  unfold member at h
  obtain ⟨_, u₁, hkey, h₁⟩ := bind_eq_some h
  obtain ⟨_, u₂, hskip, h₂⟩ := bind_eq_some h₁
  obtain ⟨_, u₃, hcolon, h₃⟩ := bind_eq_some h₂
  obtain ⟨_, u₄, hskip', h₄⟩ := bind_eq_some h₃
  obtain ⟨_, u₅, hvalue, hskip''⟩ := bind_eq_some h₄
  clear h h₁ h₂ h₃ h₄
  obtain ⟨ws, _, rfl, hws, key, rfl, hkeytext, -⟩ := hn _ _ _ hkey
  obtain ⟨ws', rfl, hws', -⟩ := skipWhitespace_sound hskip
  obtain rfl := expect_sound hcolon
  obtain ⟨gap, rfl, hgap, -⟩ := skipWhitespace_sound hskip'
  obtain ⟨vs, _, rfl, hvs, text, rfl, htext, -⟩ := hn _ _ _ hvalue
  obtain ⟨vs', rfl, hvs', -⟩ := skipWhitespace_sound hskip''
  refine ⟨memberBytes (⟨ws, key, ws'⟩, ⟨gap ++ vs, text, vs'⟩), ?_, _, rfl,
    ⟨⟨hws, hws'⟩, Blank.append hgap hvs, hvs'⟩, hkeytext, htext⟩
  simp only [memberBytes, Padded.bytes, List.append_assoc, List.cons_append]

/-- What the scanner reads as a value is a text of the grammar. -/
theorem value_sound (h : value n w = some (v, r)) :
    ∃ ws u, w = ws ++ u ∧ Blank ws ∧ Read n u r v := by
  induction n generalizing w v r with
  | zero => exact valueWith_sound (fun _ _ _ hfail => by cases hfail) (fun _ _ _ hfail => by cases hfail) h
  | succ n ih =>
    refine valueWith_sound (fun w v r hobject => ?_) (fun w v r harray => ?_) h
    · obtain ⟨text, hw, rfl, hshape⟩ :=
        container_sound (member_sound fun _ _ _ => ih) (fun _ _ hws hb => hb.blank hws) hobject
      rcases hshape with ⟨ws, hws, rfl⟩ | ⟨bs, hne, hbs, rfl⟩
      · exact ⟨_, hw, .emptyObject hws, rfl⟩
      · obtain ⟨members, rfl, hall⟩ := exists_map_eq hbs
        refine ⟨_, hw, .object ?_ (fun m hm => (hall m hm).1) (fun _ _ => trivial)
          (fun m hm => (hall m hm).2.1) fun m hm => (hall m hm).2.2, rfl⟩
        rintro rfl
        exact hne rfl
    · obtain ⟨text, hw, rfl, hshape⟩ :=
        container_sound (element_sound fun _ _ _ => ih) (fun _ _ hws hb => hb.blank hws) harray
      rcases hshape with ⟨ws, hws, rfl⟩ | ⟨bs, hne, hbs, rfl⟩
      · exact ⟨_, hw, .emptyArray hws, rfl⟩
      · obtain ⟨items, rfl, hall⟩ := exists_map_eq hbs
        refine ⟨_, hw, .array ?_ (fun m hm => (hall m hm).1) fun m hm => (hall m hm).2, rfl⟩
        rintro rfl
        exact hne rfl

end Sound

section Complete
variable {w r text : List UInt8} {v : LazyJsonValue} {n : ℕ} {close : UInt8} {item : Scan Unit}

theorem Accepted.lazyOf (h : Accepted n text) : ∃ v, lazyOf text = some v := by
  cases h with
  | string h =>
    obtain ⟨-, v, hv⟩ := h
    exact ⟨v, (lazyOf_string _).trans hv⟩
  | number h => exact ⟨_, lazyOf_number h⟩
  | _ => exact ⟨_, rfl⟩

/-- No value starts with white space or with what may follow a value. -/
theorem Accepted.head (h : Accepted n text) : ∃ b rest, text = b :: rest ∧
    isWhitespace b = false ∧ b ≠ comma ∧ b ≠ closeBrace ∧ b ≠ closeBracket := by
  cases h with
  | number h =>
    obtain ⟨b, rest, rfl, hb⟩ := number_head h
    refine ⟨b, rest, rfl, ?_⟩
    have hne := number_head_ne hb
    refine ⟨?_, hne _ (by decide) rfl, hne _ (by decide) rfl, hne _ (by decide) rfl⟩
    simp [isWhitespace, hne 0x20 (by decide) rfl, hne 0x09 (by decide) rfl,
      hne 0x0A (by decide) rfl, hne 0x0D (by decide) rfl]
  | _ => exact ⟨_, _, rfl, by decide, by decide, by decide, by decide⟩

/-- What stands after a value in a text: white space, or a delimiter. -/
def Follower (b : UInt8) : Prop :=
  isWhitespace b = true ∨ b = comma ∨ b = colon ∨ b = closeBrace ∨ b = closeBracket

instance (b : UInt8) : Decidable (Follower b) := inferInstanceAs (Decidable (_ ∨ _))

theorem Follower.delimited (h : ∀ b ∈ r.head?, Follower b) : Delimited r := by
  intro b hb
  rcases h b hb with h | rfl | rfl | rfl | rfl
  · simp only [isWhitespace, Bool.or_eq_true, beq_iff_eq] at h
    rcases h with ((rfl | rfl) | rfl) | rfl <;> decide
  · decide
  · decide
  · decide
  · decide

theorem head_blank_append {ws : List UInt8} (hws : Blank ws) (hr : ∀ b ∈ r.head?, Follower b) :
    ∀ b ∈ (ws ++ r).head?, Follower b := by
  cases ws with
  | nil => exact hr
  | cons b ws =>
    rintro c hc
    cases hc
    exact Or.inl (hws b List.mem_cons_self)

/-- A piece of a container without the white space before it: it is read off wherever a comma or
the end of the container follows. -/
structure Piece (item : Scan Unit) (close : UInt8) (core : List UInt8) : Prop where
  head : ∃ b rest, core = b :: rest ∧ isWhitespace b = false ∧ b ≠ close
  run : ∀ r : List UInt8, (r.head? = some comma ∨ r.head? = some close) →
    item (core ++ r) = some ((), r)

theorem Piece.next (h : Piece item close w) (r : List UInt8) :
    (w ++ r).head?.any (· != close) = true ∧ (w ++ r).head?.any isWhitespace = false := by
  obtain ⟨b, rest, rfl, hb, hne⟩ := h.head
  refine ⟨?_, hb⟩
  rw [List.cons_append, List.head?_cons, Option.any_some]
  exact bne_iff_ne.mpr hne

theorem entry_end (first : Bool) (r : List UInt8) :
    entry item close first (close :: r) = some (false, close :: r) := by
  unfold entry
  rw [nextIs_bind, List.head?_cons, Option.any_some, bne_self_eq_false]
  rfl

theorem entries_end (first : Bool) (r : List UInt8) :
    entries item close first (close :: r) = some ((), close :: r) := by
  rw [entries, entry_end]

/-- The pieces after the first, with the white space before each. -/
def tailBytes (ps : List (List UInt8 × List UInt8)) : List UInt8 :=
  ps.flatMap fun p => comma :: (p.1 ++ p.2)

theorem head_tailBytes (ps : List (List UInt8 × List UInt8)) (r : List UInt8) :
    (tailBytes ps ++ close :: r).head? = some comma ∨
      (tailBytes ps ++ close :: r).head? = some close := by
  cases ps with
  | nil => exact Or.inr rfl
  | cons p ps => exact Or.inl rfl

theorem entries_tail (hclose : close ≠ comma) {ps : List (List UInt8 × List UInt8)}
    (hps : ∀ p ∈ ps, Blank p.1 ∧ Piece item close p.2) (r : List UInt8) :
    entries item close false (tailBytes ps ++ close :: r) = some ((), close :: r) := by
  induction ps with
  | nil => exact entries_end false r
  | cons p ps ih =>
    obtain ⟨hws, hpiece⟩ := hps p List.mem_cons_self
    have hbytes : tailBytes (p :: ps) ++ close :: r =
        comma :: (p.1 ++ (p.2 ++ (tailBytes ps ++ close :: r))) := by
      simp only [tailBytes, List.flatMap_cons, List.append_assoc, List.cons_append]
    have hentry : entry item close false (tailBytes (p :: ps) ++ close :: r) =
        some (true, tailBytes ps ++ close :: r) := by
      unfold entry
      rw [nextIs_bind, hbytes, List.head?_cons, Option.any_some, bne_iff_ne.mpr hclose.symm,
        if_pos rfl]
      have hskip : (do expect comma; skipWhitespace : Scan Unit)
          (comma :: (p.1 ++ (p.2 ++ (tailBytes ps ++ close :: r)))) =
            some ((), p.2 ++ (tailBytes ps ++ close :: r)) := by
        rw [bind_of_some (expect_cons _ _)]
        exact skipWhitespace_append hws (hpiece.next _).2
      rw [if_neg Bool.false_ne_true, bind_of_some hskip,
        bind_of_some (hpiece.run _ (head_tailBytes ps r))]
      rfl
    rw [entries, hentry]
    simp only
    rw [if_pos, ih fun q hq => hps q (List.mem_cons_of_mem p hq)]
    rw [hbytes]
    simp only [List.length_cons, List.length_append]
    omega

theorem entries_complete (hclose : close ≠ comma) {core : List UInt8}
    (hcore : Piece item close core) {ps : List (List UInt8 × List UInt8)}
    (hps : ∀ p ∈ ps, Blank p.1 ∧ Piece item close p.2) (r : List UInt8) :
    entries item close true (core ++ (tailBytes ps ++ close :: r)) = some ((), close :: r) := by
  obtain ⟨b, rest, hb, -⟩ := hcore.head
  have hentry : entry item close true (core ++ (tailBytes ps ++ close :: r)) =
      some (true, tailBytes ps ++ close :: r) := by
    unfold entry
    rw [nextIs_bind, (hcore.next _).1, if_pos rfl]
    show (pure () >>= fun _ => item >>= fun _ => pure true : Scan Bool) _ = _
    rw [bind_of_some (show (pure () : Scan Unit) _ = some ((), _) from rfl),
      bind_of_some (hcore.run _ (head_tailBytes ps r))]
    rfl
  rw [entries, hentry]
  simp only
  rw [if_pos, entries_tail hclose hps]
  rw [hb]
  simp only [List.length_append, List.length_cons]
  omega

theorem container_of_body {open' : UInt8} {variant : List UInt8 → LazyJsonValue} {ws body : List UInt8}
    (hws : Blank ws) (hbody : (body ++ r).head?.any isWhitespace = false)
    (hrun : (do
      if ← nextIs (· == close) then take 1
      else
        entries item close true
        expect close : Scan Unit) (body ++ r) = some ((), r)) :
    container item open' close variant (open' :: (ws ++ body) ++ r) =
      some (variant (open' :: (ws ++ body)), r) := by
  have hskip : skipWhitespace (ws ++ body ++ r) = some ((), body ++ r) := by
    rw [List.append_assoc]
    exact skipWhitespace_append hws hbody
  unfold container
  have hinner : (do
      expect open'
      skipWhitespace
      if ← nextIs (· == close) then take 1
      else
        entries item close true
        expect close : Scan Unit) (open' :: (ws ++ body) ++ r) = some ((), r) := by
    rw [List.cons_append, bind_of_some (expect_cons _ _), bind_of_some hskip]
    exact hrun
  rw [bind_of_some (consumed_append hinner)]
  rfl

/-- The container is read off. -/
theorem container_complete {open' : UInt8} {variant : List UInt8 → LazyJsonValue}
    (hclose : close ≠ comma) {ws core : List UInt8} (hws : Blank ws)
    (hcore : Piece item close core) {ps : List (List UInt8 × List UInt8)}
    (hps : ∀ p ∈ ps, Blank p.1 ∧ Piece item close p.2) (r : List UInt8)
    (htext : text = open' :: (ws ++ (core ++ (tailBytes ps ++ [close])))) :
    container item open' close variant (text ++ r) = some (variant text, r) := by
  have hbody : core ++ (tailBytes ps ++ [close]) ++ r = core ++ (tailBytes ps ++ close :: r) := by
    simp only [List.append_assoc, List.singleton_append]
  subst htext
  refine container_of_body hws ?_ ?_
  · rw [hbody]
    exact (hcore.next _).2
  · rw [hbody, nextIs_bind]
    have hnext : (core ++ (tailBytes ps ++ close :: r)).head?.any (· == close) = false := by
      obtain ⟨b, rest, rfl, -, hne⟩ := hcore.head
      rw [List.cons_append, List.head?_cons, Option.any_some]
      exact beq_false_of_ne hne
    rw [hnext, if_neg Bool.false_ne_true, bind_of_some (entries_complete hclose hcore hps r)]
    exact expect_cons _ _

theorem container_empty {open' : UInt8} {variant : List UInt8 → LazyJsonValue} {ws : List UInt8}
    (hws : Blank ws) (hclose : isWhitespace close = false) (r : List UInt8) :
    container item open' close variant (open' :: (ws ++ [close]) ++ r) =
      some (variant (open' :: (ws ++ [close])), r) := by
  refine container_of_body hws hclose ?_
  rw [nextIs_bind, List.singleton_append, List.head?_cons, Option.any_some, beq_self_eq_true]
  rfl

/-- A value is read off wherever something that may follow it does. -/
def Complete (nested : Scan LazyJsonValue) (text : List UInt8) : Prop :=
  ∀ v r, lazyOf text = some v → (∀ b ∈ r.head?, Follower b) → nested (text ++ r) = some (v, r)

theorem head_of_stop {d : UInt8} (hd : Follower d) (hr : r.head? = some comma ∨ r.head? = some d) :
    (∀ b ∈ r.head?, Follower b) ∧ (∀ b ∈ r.head?, b = comma ∨ b = d) := by
  refine ⟨fun b hb => ?_, fun b hb => ?_⟩
  · rcases hr with hr | hr <;> rw [hr] at hb <;> cases hb
    · exact Or.inr (Or.inl rfl)
    · exact hd
  · rcases hr with hr | hr <;> rw [hr] at hb <;> cases hb
    · exact Or.inl rfl
    · exact Or.inr rfl

theorem skip_after {ws : List UInt8} (hws : Blank ws) (hclose : isWhitespace close = false)
    (hr : r.head? = some comma ∨ r.head? = some close) :
    skipWhitespace (ws ++ r) = some ((), r) := by
  refine skipWhitespace_append hws ?_
  rcases hr with hr | hr <;> rw [hr]
  · rfl
  · exact hclose

theorem piece_element {nested : Scan LazyJsonValue} {p : Padded} (hp : p.Blank)
    (h : Accepted n p.text) (hn : Complete nested p.text) :
    Piece (element nested) closeBracket (p.text ++ p.after) := by
  obtain ⟨b, rest, hb, hblank, -, -, hne⟩ := Accepted.head h
  obtain ⟨v, hv⟩ := Accepted.lazyOf h
  refine ⟨⟨b, rest ++ p.after, by rw [hb]; rfl, hblank, hne⟩, fun r hr => ?_⟩
  have hfollow := (head_of_stop (show Follower closeBracket by decide) hr).1
  unfold element
  rw [List.append_assoc, bind_of_some (hn v _ hv (head_blank_append hp.2 hfollow))]
  exact skip_after hp.2 rfl hr

theorem piece_member {nested : Scan LazyJsonValue} {m : Padded × Padded} (hm : m.1.Blank ∧ m.2.Blank)
    (hk : Accepted n m.1.text) (hx : Accepted n m.2.text) (hkn : Complete nested m.1.text)
    (hxn : Complete nested m.2.text) :
    Piece (member nested) closeBrace (m.1.text ++ (m.1.after ++ colon :: m.2.bytes)) := by
  obtain ⟨b, rest, hb, hblank, -, hne, -⟩ := Accepted.head hk
  obtain ⟨v, hv⟩ := Accepted.lazyOf hk
  obtain ⟨c, rest', hc, hblank', -⟩ := Accepted.head hx
  obtain ⟨x, hx⟩ := Accepted.lazyOf hx
  refine ⟨⟨b, rest ++ (m.1.after ++ colon :: m.2.bytes), by rw [hb]; rfl, hblank, hne⟩,
    fun r hr => ?_⟩
  have hfollow := (head_of_stop (show Follower closeBrace by decide) hr).1
  have hcolon : ∀ b ∈ (colon :: (m.2.before ++ (m.2.text ++ (m.2.after ++ r)))).head?,
      Follower b := by
    rintro b hb
    cases hb
    exact Or.inr (Or.inr (Or.inl rfl))
  have hbytes : m.1.text ++ (m.1.after ++ colon :: m.2.bytes) ++ r = m.1.text ++ (m.1.after ++
      colon :: (m.2.before ++ (m.2.text ++ (m.2.after ++ r)))) := by
    simp only [Padded.bytes, List.append_assoc, List.cons_append]
  have hkey := hkn v _ hv (head_blank_append hm.1.2 hcolon)
  have hvalue := hxn x _ hx (head_blank_append hm.2.2 hfollow)
  unfold member
  rw [hbytes, bind_of_some hkey, bind_of_some (skipWhitespace_append hm.1.2 rfl),
    bind_of_some (expect_cons _ _), bind_of_some (skipWhitespace_append hm.2.1 ?_),
    bind_of_some hvalue]
  · exact skip_after hm.2.2 rfl hr
  · rw [hc]
    exact hblank'

theorem literal_complete (text : List UInt8) (v : LazyJsonValue) (r : List UInt8) :
    literal text v (text ++ r) = some (v, r) := by
  unfold literal
  have hstart : startsWith text (text ++ r) = some (true, text ++ r) := by
    unfold startsWith
    rw [List.take_left, beq_self_eq_true]
  have htake : take text.length (text ++ r) = some ((), r) := by
    unfold take
    rw [if_pos (by rw [List.length_append]; omega), List.drop_left]
  rw [bind_of_some hstart, if_pos rfl, bind_of_some htake]
  rfl

theorem valueWith_cons (object array : Scan LazyJsonValue) {b : UInt8}
    (hb : isWhitespace b = false) (w : List UInt8) :
    valueWith object array (b :: w) = (if b = quote then string
        else if b = openBrace then object
        else if b = openBracket then array
        else if b = 0x74 ∨ b = 0x66 then boolean
        else if b = 0x6E then null
        else if b = 0x2D ∨ isDigit b then number
        else fail) (b :: w) := by
  have hskip : skipWhitespace (b :: w) = some ((), b :: w) :=
    @skipWhitespace_append [] (b :: w) nofun hb
  unfold valueWith
  rw [bind_of_some hskip]
  rfl

/-- White space before a value is skipped. -/
theorem value_blank {ws : List UInt8} (hws : Blank ws) (w : List UInt8) :
    value n (ws ++ w) = value n w := by
  have hskip : ∀ object array, valueWith object array (ws ++ w) = valueWith object array w := by
    intro object array
    unfold valueWith
    rw [run_bind, run_bind, skipWhitespace_blank hws]
  cases n <;> exact hskip _ _

/-- Every text of the grammar is read off. -/
theorem value_complete (h : Accepted n text) : Complete (value n) text := by
  intro v r hv hr
  induction h generalizing v r with
  | @true n =>
    cases hv
    cases n <;> exact (valueWith_cons _ _ rfl _).trans rfl
  | @false n =>
    cases hv
    cases n <;> exact (valueWith_cons _ _ rfl _).trans rfl
  | @null n =>
    cases hv
    cases n <;> exact (valueWith_cons _ _ rfl _).trans (literal_complete _ _ r)
  | @number n text h =>
    rw [lazyOf_number h] at hv
    cases hv
    have hnumber := number_complete h (Follower.delimited hr)
    obtain ⟨b, rest, rfl, hb⟩ := number_head h
    have hne := number_head_ne hb
    have hblank : isWhitespace b = false := by
      simp [isWhitespace, hne 0x20 (by decide) rfl, hne 0x09 (by decide) rfl,
        hne 0x0A (by decide) rfl, hne 0x0D (by decide) rfl]
    have hdispatch : ∀ object array, valueWith object array (b :: rest ++ r) =
        number (b :: rest ++ r) := by
      intro object array
      rw [List.cons_append, valueWith_cons _ _ hblank, if_neg (hne _ (by decide) rfl),
        if_neg (hne _ (by decide) rfl), if_neg (hne _ (by decide) rfl),
        if_neg (not_or.mpr ⟨hne _ (by decide) rfl, hne _ (by decide) rfl⟩),
        if_neg (hne _ (by decide) rfl), if_pos hb]
    cases n <;> exact (hdispatch _ _).trans hnumber
  | @string n body h =>
    rw [lazyOf_string] at hv
    cases n <;> exact (valueWith_cons _ _ rfl _).trans (string_complete h.1 hv r)
  | @emptyArray n ws hws =>
    cases hv
    exact (valueWith_cons _ _ rfl _).trans (container_empty hws rfl r)
  | @array n items hne hw h ih =>
    cases hv
    refine (valueWith_cons _ _ rfl _).trans ?_
    obtain ⟨i, is, rfl⟩ := List.exists_cons_of_ne_nil hne
    have hpiece : ∀ p ∈ i :: is, Piece (element (value n)) closeBracket (p.text ++ p.after) :=
      fun p hp => piece_element (hw p hp) (h p hp) (ih p hp)
    change container (element (value n)) openBracket closeBracket .arraySlice
      (openBracket :: (commaSeparated ((i :: is).map Padded.bytes) ++ [closeBracket]) ++ r) = _
    refine @container_complete _ _ _ _ _ (by decide) i.before (i.text ++ i.after)
      (hw i List.mem_cons_self).1 (hpiece i List.mem_cons_self)
      (is.map fun p => (p.before, p.text ++ p.after)) ?_ r ?_
    · intro q hq
      obtain ⟨p, hp, rfl⟩ := List.mem_map.mp hq
      exact ⟨(hw p (List.mem_cons_of_mem i hp)).1, hpiece p (List.mem_cons_of_mem i hp)⟩
    · rw [List.map_cons, commaSeparated_cons]
      simp only [tailBytes, List.flatMap_map, Padded.bytes, List.append_assoc]
  | @emptyObject n ws hws =>
    cases hv
    exact (valueWith_cons _ _ rfl _).trans (container_empty hws rfl r)
  | @object n members hne hw hk h hx ihk ihx =>
    cases hv
    refine (valueWith_cons _ _ rfl _).trans ?_
    obtain ⟨m, ms, rfl⟩ := List.exists_cons_of_ne_nil hne
    have hpiece : ∀ m' ∈ m :: ms, Piece (member (value n)) closeBrace
        (m'.1.text ++ (m'.1.after ++ colon :: m'.2.bytes)) :=
      fun m' hm => piece_member (hw m' hm) (h m' hm) (hx m' hm) (ihk m' hm) (ihx m' hm)
    change container (member (value n)) openBrace closeBrace .objectSlice
      (openBrace :: (commaSeparated ((m :: ms).map memberBytes) ++ [closeBrace]) ++ r) = _
    refine @container_complete _ _ _ _ _ (by decide) m.1.before
      (m.1.text ++ (m.1.after ++ colon :: m.2.bytes))
      (hw m List.mem_cons_self).1.1 (hpiece m List.mem_cons_self)
      (ms.map fun m' => (m'.1.before, m'.1.text ++ (m'.1.after ++ colon :: m'.2.bytes))) ?_ r ?_
    · intro q hq
      obtain ⟨m', hm, rfl⟩ := List.mem_map.mp hq
      exact ⟨(hw m' (List.mem_cons_of_mem m hm)).1.1, hpiece m' (List.mem_cons_of_mem m hm)⟩
    · rw [List.map_cons, commaSeparated_cons]
      simp only [tailBytes, List.flatMap_map, memberBytes, Padded.bytes, List.append_assoc,
        List.cons_append]

end Complete

end PJS.Scan
