import PJS.Parser.Scan

/-! Numbers: what the scanner takes for one is a number of the grammar, and it takes every number
of the grammar that is followed by something else. -/
namespace PJS.Scan
open JsonText (quote backslash isDigit Digits Number IsNumber)

section Steps
variable {α β : Type}

theorem run_bind (g : Scan α) (k : α → Scan β) (w : List UInt8) :
    (g >>= k) w = (g w).bind fun r => k r.1 r.2 := rfl

/-- A run of two scanners, taken apart. -/
theorem bind_eq_some {g : Scan α} {k : α → Scan β} {w r : List UInt8} {b : β}
    (h : (g >>= k) w = some (b, r)) : ∃ a u, g w = some (a, u) ∧ k a u = some (b, r) := by
  rw [run_bind, Option.bind_eq_some_iff] at h
  obtain ⟨⟨a, u⟩, hg, hk⟩ := h
  exact ⟨a, u, hg, hk⟩

theorem bind_of_some {g : Scan α} {k : α → Scan β} {w u : List UInt8} {a : α}
    (h : g w = some (a, u)) : (g >>= k) w = k a u := by
  rw [run_bind, h, Option.bind_some]

theorem nextIs_bind (p : UInt8 → Bool) (k : Bool → Scan β) (w : List UInt8) :
    (nextIs p >>= k) w = k (w.head?.any p) w := by
  cases w with
  | nil => rfl
  | cons b w => rfl

/-- What a loop skips, and where it ends. -/
theorem skipWhile_append {p : UInt8 → Bool} {u r : List UInt8} (hu : ∀ b ∈ u, p b = true)
    (hr : r.head?.any p = false) : skipWhile p (u ++ r) = some ((), r) := by
  unfold skipWhile
  rw [List.dropWhile_append_of_pos hu]
  cases r with
  | nil => rfl
  | cons b r =>
    have hb : ¬ p b = true := by
      rw [show p b = false from hr]
      exact Bool.false_ne_true
    rw [List.dropWhile_cons_of_neg hb]

theorem skipWhile_split {p : UInt8 → Bool} {w r : List UInt8} {a : Unit}
    (h : skipWhile p w = some (a, r)) :
    ∃ u, w = u ++ r ∧ (∀ b ∈ u, p b = true) ∧ r.head?.any p = false := by
  cases h
  refine ⟨w.takeWhile p, List.takeWhile_append_dropWhile.symm, fun b => List.mem_takeWhile_imp, ?_⟩
  have hhead := List.head?_dropWhile_not p w
  cases hr : (w.dropWhile p).head? with
  | none => rfl
  | some b =>
    rw [hr] at hhead
    exact hhead

theorem consumed_append {g : Scan Unit} {u r : List UInt8} (h : g (u ++ r) = some ((), r)) :
    consumed g (u ++ r) = some (u, r) := by
  unfold consumed
  rw [h, Option.map_some, List.length_append, Nat.add_sub_cancel, List.take_left]

theorem consumed_eq_some {g : Scan Unit} {w r slice : List UInt8}
    (h : consumed g w = some (slice, r)) :
    g w = some ((), r) ∧ slice = w.take (w.length - r.length) := by
  unfold consumed at h
  obtain ⟨⟨_, r'⟩, hg, heq⟩ := Option.map_eq_some_iff.mp h
  cases heq
  exact ⟨hg, rfl⟩

end Steps

section Numbers
variable {w r ds : List UInt8}

/-- Not a continuation of a number. -/
def Delimited (r : List UInt8) : Prop :=
  ∀ b ∈ r.head?, isDigit b = false ∧ b ≠ 0x2E ∧ b ≠ 0x65 ∧ b ≠ 0x45

theorem Delimited.digit (h : Delimited r) : r.head?.any isDigit = false := by
  cases r with
  | nil => rfl
  | cons b r => exact (h b rfl).1

theorem digits_eq (w : List UInt8) :
    digits w = if w.head?.any isDigit then some ((), w.dropWhile isDigit) else none := by
  unfold digits
  rw [nextIs_bind]
  split_ifs <;> rfl

theorem digits_sound {a : Unit} (h : digits w = some (a, r)) :
    ∃ ds, Digits ds ∧ w = ds ++ r ∧ r.head?.any isDigit = false := by
  rw [digits_eq] at h
  split_ifs at h with hhead
  obtain ⟨ds, hw, hds, hr⟩ := skipWhile_split h
  refine ⟨ds, ⟨?_, hds⟩, hw, hr⟩
  rintro rfl
  rw [hw, List.nil_append, hr] at hhead
  cases hhead

theorem digits_complete (hds : Digits ds) (hr : r.head?.any isDigit = false) :
    digits (ds ++ r) = some ((), r) := by
  obtain ⟨hne, hall⟩ := hds
  have hhead : (ds ++ r).head?.any isDigit = true := by
    obtain ⟨d, ds, rfl⟩ := List.exists_cons_of_ne_nil hne
    exact hall d List.mem_cons_self
  rw [digits_eq, if_pos hhead]
  exact skipWhile_append hall hr

theorem sign_cons (b : UInt8) (w : List UInt8) :
    sign (b :: w) = some ((), if b = 0x2D then w else b :: w) := by
  unfold sign
  rw [run_bind]
  show (if b = 0x2D then take 1 else pure ()) (b :: w) = _
  split_ifs <;> rfl

theorem sign_sound {a : Unit} (h : sign w = some (a, r)) :
    ∃ minus : Bool, w = (if minus then [0x2D] else []) ++ r := by
  cases w with
  | nil => cases h
  | cons b w =>
    rw [sign_cons] at h
    split_ifs at h with hb
    · cases h
      exact ⟨true, by rw [hb]; rfl⟩
    · cases h
      exact ⟨false, rfl⟩

theorem integer_cons (b : UInt8) (w : List UInt8) :
    integer (b :: w) = if b = 0x30 then some ((), w)
      else if isDigit b then some ((), (b :: w).dropWhile isDigit) else none := by
  unfold integer
  rw [run_bind]
  show (if b = 0x30 then take 1 else if isDigit b then skipWhile isDigit else fail) (b :: w) = _
  split_ifs <;> rfl

theorem integer_sound {a : Unit} (h : integer w = some (a, r)) :
    ∃ ds, Digits ds ∧ (ds.head? = some 0x30 → ds = [0x30]) ∧ w = ds ++ r := by
  cases w with
  | nil => cases h
  | cons b w =>
    rw [integer_cons] at h
    split_ifs at h with hb hdigit
    · cases h
      subst hb
      refine ⟨[0x30], ⟨List.cons_ne_nil _ _, ?_⟩, fun _ => rfl, rfl⟩
      simp [isDigit]
    · obtain ⟨ds, hw, hds, hr⟩ := skipWhile_split h
      cases ds with
      | nil =>
        rw [List.nil_append] at hw
        rw [← hw] at hr
        rw [show isDigit b = false from hr] at hdigit
        cases hdigit
      | cons d ds =>
        obtain ⟨rfl, -⟩ := List.cons.inj hw
        refine ⟨b :: ds, ⟨List.cons_ne_nil _ _, hds⟩, fun hzero => ?_, hw⟩
        exact absurd (Option.some.inj hzero) hb

theorem integer_complete (hds : Digits ds) (hzero : ds.head? = some 0x30 → ds = [0x30])
    (hr : r.head?.any isDigit = false) : integer (ds ++ r) = some ((), r) := by
  obtain ⟨hne, hall⟩ := hds
  obtain ⟨d, ds, rfl⟩ := List.exists_cons_of_ne_nil hne
  rw [List.cons_append, integer_cons]
  split_ifs with hd hdigit
  · subst hd
    rw [(List.cons.inj (hzero rfl)).2, List.nil_append]
  · exact skipWhile_append hall hr
  · exact absurd (hall d List.mem_cons_self) hdigit

theorem fraction_sound {a : Unit} (h : fraction w = some (a, r)) :
    ∃ frac, (∀ ds ∈ frac, Digits ds) ∧ w = Number.fracBytes frac ++ r := by
  unfold fraction at h
  rw [nextIs_bind] at h
  split_ifs at h with hdot
  · cases w with
    | nil => cases hdot
    | cons b w =>
      obtain rfl : b = 0x2E := by simpa using hdot
      obtain ⟨ds, hds, hw, -⟩ := digits_sound (w := w) h
      exact ⟨some ds, fun x hx => by cases hx; exact hds, by rw [hw]; rfl⟩
  · cases h
    exact ⟨none, nofun, rfl⟩

theorem fraction_complete {frac : Option (List UInt8)} (hfrac : ∀ ds ∈ frac, Digits ds)
    (hdot : frac = none → r.head?.any (· == 0x2E) = false) (hr : r.head?.any isDigit = false) :
    fraction (Number.fracBytes frac ++ r) = some ((), r) := by
  unfold fraction
  rw [nextIs_bind]
  cases frac with
  | none =>
    rw [Number.fracBytes, List.nil_append, hdot rfl]
    rfl
  | some ds => exact digits_complete (hfrac ds rfl) hr

theorem exponent_sound {a : Unit} (h : exponent w = some (a, r)) :
    ∃ exp, (∀ e ∈ exp, (e.1 = 0x65 ∨ e.1 = 0x45) ∧ (∀ s ∈ e.2.1, s = 0x2B ∨ s = 0x2D) ∧
      Digits e.2.2) ∧ w = Number.expBytes exp ++ r := by
  unfold exponent at h
  rw [nextIs_bind] at h
  split_ifs at h with he
  · cases w with
    | nil => cases he
    | cons b w =>
      have hb : b = 0x65 ∨ b = 0x45 := by simpa using he
      obtain ⟨_, u, htake, hrest⟩ := bind_eq_some h
      cases htake
      obtain ⟨_, v, hsign, hdigits⟩ := bind_eq_some hrest
      obtain ⟨ds, hds, rfl, -⟩ := digits_sound hdigits
      rw [nextIs_bind] at hsign
      split_ifs at hsign with hs
      · cases w with
        | nil => cases hs
        | cons s w =>
          have hs' : s = 0x2B ∨ s = 0x2D := by simpa using hs
          cases hsign
          refine ⟨some (b, some s, ds), fun e hmem => ?_, rfl⟩
          cases hmem
          exact ⟨hb, fun x hx => by cases hx; exact hs', hds⟩
      · cases hsign
        refine ⟨some (b, none, ds), fun e hmem => ?_, rfl⟩
        cases hmem
        exact ⟨hb, nofun, hds⟩
  · cases h
    exact ⟨none, nofun, rfl⟩

theorem Delimited.any_false {p : UInt8 → Bool} (h : Delimited r)
    (hp : ∀ b, p b = true → isDigit b = true ∨ b = 0x2E ∨ b = 0x65 ∨ b = 0x45) :
    r.head?.any p = false := by
  cases r with
  | nil => rfl
  | cons b r =>
    obtain ⟨hdigit, hdot, he, hE⟩ := h b rfl
    rw [List.head?_cons, Option.any_some, ← Bool.not_eq_true]
    intro hb
    rcases hp b hb with hb | hb | hb | hb
    · rw [hdigit] at hb
      cases hb
    · exact hdot hb
    · exact he hb
    · exact hE hb

/-- A sign is not a digit. -/
theorem head_not_sign (hds : Digits ds) (r : List UInt8) :
    (ds ++ r).head?.any (fun b => b == 0x2B || b == 0x2D) = false := by
  obtain ⟨d, ds, rfl⟩ := List.exists_cons_of_ne_nil hds.1
  have hd := hds.2 d List.mem_cons_self
  rw [List.cons_append, List.head?_cons, Option.any_some, ← Bool.not_eq_true]
  intro hs
  have hs' : d = 0x2B ∨ d = 0x2D := by simpa using hs
  rcases hs' with rfl | rfl <;> exact absurd hd (by decide)

theorem exponent_complete {exp : Option (UInt8 × Option UInt8 × List UInt8)}
    (hexp : ∀ e ∈ exp, (e.1 = 0x65 ∨ e.1 = 0x45) ∧ (∀ s ∈ e.2.1, s = 0x2B ∨ s = 0x2D) ∧
      Digits e.2.2) (hr : Delimited r) : exponent (Number.expBytes exp ++ r) = some ((), r) := by
  unfold exponent
  rw [nextIs_bind]
  rcases exp with _ | ⟨e, sgn, ds⟩
  · rw [Number.expBytes, List.nil_append, hr.any_false (by simp)]
    rfl
  · obtain ⟨he, hs, hds⟩ := hexp _ rfl
    have hnext : (Number.expBytes (some (e, sgn, ds)) ++ r).head?.any
        (fun b => b == 0x65 || b == 0x45) = true := by
      rw [Number.expBytes, List.cons_append, List.head?_cons, Option.any_some]
      simpa using he
    rw [hnext, if_pos rfl]
    have htake : take 1 (Number.expBytes (some (e, sgn, ds)) ++ r) =
        some ((), sgn.toList ++ ds ++ r) := by
      rw [Number.expBytes]
      rfl
    rw [bind_of_some htake]
    have hdigits := digits_complete hds hr.digit
    cases sgn with
    | none =>
      rw [Option.toList_none, List.nil_append]
      rw [run_bind, nextIs_bind, head_not_sign hds r]
      exact hdigits
    | some s =>
      rw [run_bind, nextIs_bind]
      have hsign : ((some s).toList ++ ds ++ r).head?.any
          (fun b => b == 0x2B || b == 0x2D) = true := by
        rw [Option.toList_some, List.append_assoc, List.singleton_append, List.head?_cons,
          Option.any_some]
        simpa using hs s rfl
      rw [hsign]
      exact hdigits

theorem number_sound {v : LazyJsonValue} (h : number w = some (v, r)) :
    ∃ text, w = text ++ r ∧ IsNumber text ∧ v = .numberSlice text := by
  unfold number at h
  obtain ⟨slice, u, hslice, h⟩ := bind_eq_some h
  cases h
  obtain ⟨hrun, rfl⟩ := consumed_eq_some hslice
  obtain ⟨_, w₁, hsign, hrun⟩ := bind_eq_some hrun
  obtain ⟨_, w₂, hint, hrun⟩ := bind_eq_some hrun
  obtain ⟨_, w₃, hfrac, hexp⟩ := bind_eq_some hrun
  obtain ⟨minus, rfl⟩ := sign_sound hsign
  obtain ⟨int, hdigits, hzero, rfl⟩ := integer_sound hint
  obtain ⟨frac, hfracs, rfl⟩ := fraction_sound hfrac
  obtain ⟨exp, hexps, rfl⟩ := exponent_sound hexp
  have hbytes : (if minus then [0x2D] else []) ++ (int ++ (Number.fracBytes frac ++
      (Number.expBytes exp ++ r))) = (Number.mk minus int frac exp).bytes ++ r := by
    simp only [Number.bytes, List.append_assoc]
  rw [hbytes, List.length_append, Nat.add_sub_cancel, List.take_left]
  exact ⟨_, rfl, ⟨_, ⟨hdigits, hzero, hfracs, hexps⟩, rfl⟩, rfl⟩

theorem number_complete {text : List UInt8} (h : IsNumber text) (hr : Delimited r) :
    number (text ++ r) = some (.numberSlice text, r) := by
  obtain ⟨⟨minus, int, frac, exp⟩, ⟨hint, hzero, hfrac, hexp⟩, rfl⟩ := h
  simp only at hint hzero hfrac hexp
  have hexp' := exponent_complete hexp hr
  have hexpdigit : (Number.expBytes exp ++ r).head?.any isDigit = false := by
    rcases exp with _ | ⟨e, sgn, ds⟩
    · exact hr.digit
    · rcases (hexp _ rfl).1 with he | he <;> simp only at he <;> subst he <;> rfl
  have hexpdot : (Number.expBytes exp ++ r).head?.any (· == 0x2E) = false := by
    rcases exp with _ | ⟨e, sgn, ds⟩
    · exact hr.any_false (by simp)
    · rcases (hexp _ rfl).1 with he | he <;> simp only at he <;> subst he <;> rfl
  have hfrac' := fraction_complete hfrac (fun _ => hexpdot) hexpdigit
  have hfracdigit : (Number.fracBytes frac ++ (Number.expBytes exp ++ r)).head?.any isDigit =
      false := by
    cases frac with
    | none => exact hexpdigit
    | some ds => rfl
  have hint' := integer_complete hint hzero hfracdigit
  have hsign : sign ((if minus then [0x2D] else []) ++ (int ++ (Number.fracBytes frac ++
      (Number.expBytes exp ++ r)))) = some ((), int ++ (Number.fracBytes frac ++
      (Number.expBytes exp ++ r))) := by
    cases minus with
    | true => rfl
    | false =>
      obtain ⟨d, ds, rfl⟩ := List.exists_cons_of_ne_nil hint.1
      have hd := hint.2 d List.mem_cons_self
      have hne : d ≠ 0x2D := by
        rintro rfl
        exact absurd hd (by decide)
      rw [if_neg Bool.false_ne_true, List.nil_append, List.cons_append, sign_cons, if_neg hne]
  have hrun : (do sign; integer; fraction; exponent : Scan Unit)
      ((Number.mk minus int frac exp).bytes ++ r) = some ((), r) := by
    simp only [Number.bytes, List.append_assoc]
    rw [bind_of_some hsign, bind_of_some hint', bind_of_some hfrac']
    exact hexp'
  unfold number
  rw [bind_of_some (consumed_append hrun)]
  rfl

end Numbers

section Strings
variable {w r body : List UInt8}

theorem closeQuote_quote (w : List UInt8) : closeQuote (quote :: w) = some ([], w) := by
  cases w with
  | nil => rfl
  | cons c w => rfl

theorem closeQuote_escape (c : UInt8) (w : List UInt8) :
    closeQuote (backslash :: c :: w) = (closeQuote w).map fun r => (backslash :: c :: r.1, r.2) :=
  rfl

theorem closeQuote_plain {b : UInt8} (hq : b ≠ quote) (hs : b ≠ backslash) (w : List UInt8) :
    closeQuote (b :: w) = (closeQuote w).map fun r => (b :: r.1, r.2) := by
  cases w with
  | nil => exact if_neg hq
  | cons c w => exact (if_neg hq).trans (if_neg hs)

/-- The body ends at the first quote that is not escaped. -/
def Closed (body : List UInt8) : Prop := ∀ r, closeQuote (body ++ quote :: r) = some (body, r)

theorem closed_nil : Closed [] := closeQuote_quote

theorem Closed.escape (h : Closed body) (c : UInt8) : Closed (backslash :: c :: body) := by
  intro r
  rw [List.cons_append, List.cons_append, closeQuote_escape, h r]
  rfl

theorem Closed.plain (h : Closed body) {b : UInt8} (hq : b ≠ quote) (hs : b ≠ backslash) :
    Closed (b :: body) := by
  intro r
  rw [List.cons_append, closeQuote_plain hq hs, h r]
  rfl

theorem closeQuote_sound (h : closeQuote w = some (body, r)) :
    w = body ++ quote :: r ∧ Closed body := by
  induction w using closeQuote.induct generalizing body with
  | case1 => cases h
  | case2 => 
    rw [closeQuote_quote] at h
    cases h
    exact ⟨rfl, closed_nil⟩
  | case3 b hb =>
    rw [closeQuote, if_neg hb] at h
    cases h
  | case4 c rest =>
    rw [closeQuote_quote] at h
    cases h
    exact ⟨rfl, closed_nil⟩
  | case5 c rest hq ih =>
    rw [closeQuote_escape] at h
    obtain ⟨⟨body, r⟩, hrec, heq⟩ := Option.map_eq_some_iff.mp h
    cases heq
    obtain ⟨rfl, hclosed⟩ := ih hrec
    exact ⟨rfl, hclosed.escape c⟩
  | case6 b c rest hq hs ih =>
    rw [closeQuote_plain hq hs] at h
    obtain ⟨⟨body, r⟩, hrec, heq⟩ := Option.map_eq_some_iff.mp h
    cases heq
    obtain ⟨hw, hclosed⟩ := ih hrec
    exact ⟨by rw [hw]; rfl, hclosed.plain hq hs⟩

/-- The string bodies that the scanner reads. -/
def Readable (body : List UInt8) : Prop := Closed body ∧ ∃ v, readBody body = some v

theorem string_sound {v : LazyJsonValue} (h : string w = some (v, r)) :
    ∃ body, w = quote :: (body ++ [quote]) ++ r ∧ Closed body ∧ readBody body = some v := by
  unfold string at h
  split at h
  · cases h
  · split_ifs at h with hb
    subst hb
    obtain ⟨⟨body, rest⟩, hclose, h⟩ := Option.bind_eq_some_iff.mp h
    obtain ⟨v', hv, h⟩ := Option.bind_eq_some_iff.mp h
    cases h
    obtain ⟨rfl, hclosed⟩ := closeQuote_sound hclose
    refine ⟨body, ?_, hclosed, hv⟩
    simp only [List.cons_append, List.append_assoc, List.nil_append]

theorem string_complete {v : LazyJsonValue} (hclosed : Closed body)
    (hv : readBody body = some v) (r : List UInt8) :
    string (quote :: (body ++ [quote]) ++ r) = some (v, r) := by
  have htext : quote :: (body ++ [quote]) ++ r = quote :: (body ++ quote :: r) := by
    simp only [List.cons_append, List.append_assoc, List.nil_append]
  rw [htext]
  show ((closeQuote (body ++ quote :: r)).bind fun p => (readBody p.1).bind fun v =>
    some (v, p.2)) = _
  rw [hclosed r, Option.bind_some, hv, Option.bind_some]

end Strings

end PJS.Scan
