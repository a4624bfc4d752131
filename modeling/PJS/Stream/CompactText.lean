import PJS.Compression.Writer
import PJS.Lib.Codes

/-! Compact texts end where they should: a text that is no number says itself where it ends, and a
number ends where something else follows. -/
namespace PJS

open Codes

/-- A letter that numbers are written with. -/
def NumberLetter (c : Char) : Prop :=
  c.isDigit = true ∨ c = '-' ∨ c = '+' ∨ c = '.' ∨ c = 'e' ∨ c = 'E'

instance (c : Char) : Decidable (NumberLetter c) := inferInstanceAs (Decidable (_ ∨ _))

/-- Numbers are written faithfully, and with the letters of numbers. -/
structure NumberFormat (showNumber : JsonNumber → String) : Prop where
  injective : Function.Injective showNumber
  letters : ∀ n, ∀ c ∈ (showNumber n).toList, NumberLetter c
  nonempty : ∀ n, (showNumber n).toList ≠ []

section Strings

def escapeDigit (c : Char) : ℕ := if c.toNat < 58 then c.toNat - 48 else c.toNat - 87

/-- Read a character of a string literal back. -/
def readEscaped : List Char → Option (Char × List Char)
  | [] => none
  | c :: rest =>
    if c ≠ '\x5c' then some (c, rest)
    else
      match rest with
      | 'b' :: rest => some ('\x08', rest)
      | 't' :: rest => some ('\x09', rest)
      | 'n' :: rest => some ('\x0a', rest)
      | 'f' :: rest => some ('\x0c', rest)
      | 'r' :: rest => some ('\x0d', rest)
      | 'u' :: _ :: _ :: high :: low :: rest =>
        some (Char.ofNat (16 * escapeDigit high + escapeDigit low), rest)
      | c :: rest => some (c, rest)
      | [] => none

theorem escapeDigit_digitChar : ∀ n < 16, escapeDigit (Nat.digitChar n) = n := by decide

theorem readEscaped_escapeChar (c : Char) (x : List Char) :
    readEscaped (escapeChar c ++ x) = some (c, x) := by
  unfold escapeChar
  split_ifs with h₁ h₂ h₃ h₄ h₅ h₆ h₇
  · rcases h₁ with rfl | rfl <;> rfl
  · rw [h₂]; rfl
  · rw [h₃]; rfl
  · rw [h₄]; rfl
  · rw [h₅]; rfl
  · rw [h₆]; rfl
  · have hhigh : escapeDigit (Nat.digitChar (c.toNat / 16)) = c.toNat / 16 :=
      escapeDigit_digitChar _ (by omega)
    have hlow : escapeDigit (Nat.digitChar (c.toNat % 16)) = c.toNat % 16 :=
      escapeDigit_digitChar _ (by omega)
    have hc : 16 * (c.toNat / 16) + c.toNat % 16 = c.toNat := by omega
    change some (Char.ofNat (16 * escapeDigit (Nat.digitChar (c.toNat / 16)) +
      escapeDigit (Nat.digitChar (c.toNat % 16))), x) = some (c, x)
    rw [hhigh, hlow, hc, Char.ofNat_toNat]
  · have hne : c ≠ '\x5c' := fun h => h₁ (Or.inr h)
    simp only [List.singleton_append, readEscaped, ne_eq, hne, not_false_eq_true, if_true]

/-- No escaped character starts with a quote. -/
theorem escapeChar_start (c : Char) : ∃ d rest, escapeChar c = d :: rest ∧ d ≠ '\x22' := by
  unfold escapeChar
  split_ifs with h₁
  case neg => exact ⟨c, [], rfl, fun h => h₁ (Or.inl h)⟩
  all_goals exact ⟨_, _, rfl, by decide⟩

theorem toList_quoteString (s : String) :
    (quoteString s).toList = '\x22' :: (s.toList.flatMap escapeChar ++ ['\x22']) := by
  unfold quoteString escapeString
  simp only [String.toList_append, String.toList_ofList]
  rfl

theorem closed_quoteString (s : String) : Closed (fun s => (quoteString s).toList) s := by
  have hbody : Closed (fun cs : List Char => cs.flatMap escapeChar ++ ['\x22']) s.toList :=
    closed_terminated (fun _ => closed_of_read readEscaped_escapeChar) escapeChar_start s.toList
  intro t x y _ _ heq
  simp only [toList_quoteString, List.cons_append, List.cons.injEq, true_and] at heq
  obtain ⟨hst, hxy⟩ := hbody.unique heq
  exact ⟨String.toList_inj.mp hst, hxy⟩

end Strings

section Values
variable (showNumber : JsonNumber → String)

/-- The compact text of a value. -/
def compact (v : JsonValue) : List Char := (toJson showNumber v).toList

def compactField (e : String × JsonValue) : List Char :=
  (quoteString e.1).toList ++ ':' :: compact showNumber e.2

theorem exists_compactField (e : String × JsonValue) :
    ∃ rest, compactField showNumber e = '\x22' :: rest := by
  unfold compactField
  rw [toList_quoteString]
  exact ⟨_, rfl⟩

theorem toList_commaJoin (l : List String) (close : Char) :
    (commaJoin l).toList ++ [close] = joined String.toList ',' close l := by
  cases l with
  | nil => rfl
  | cons s l =>
    unfold joined
    induction l generalizing s with
    | nil => rfl
    | cons t l ih =>
      rw [commaJoin, String.toList_append, String.toList_append, List.append_assoc, ih]
      · simp [tail]
      · simp

theorem joined_map {α : Type} (f : α → String) (close : Char) (as : List α) :
    joined String.toList ',' close (as.map f) = joined (fun a => (f a).toList) ',' close as := by
  have htail : ∀ as : List α, tail String.toList ',' close (as.map f) =
      tail (fun a => (f a).toList) ',' close as := by
    intro as
    induction as with
    | nil => rfl
    | cons a as ih => rw [List.map_cons, tail, tail, ih]
  cases as with
  | nil => rfl
  | cons a as => rw [List.map_cons, joined, joined, htail]

theorem toJsonItems_eq (arr : List JsonValue) :
    toJsonItems showNumber arr = arr.map (toJson showNumber) := by
  induction arr with
  | nil => rfl
  | cons v arr ih => rw [toJsonItems, ih, List.map_cons]

theorem toJsonFields_eq (obj : JsonMap) :
    toJsonFields showNumber obj =
      obj.map fun e => quoteString e.1 ++ ":" ++ toJson showNumber e.2 := by
  induction obj with
  | nil => rfl
  | cons e obj ih => rw [toJsonFields, ih, List.map_cons]

theorem compact_array (arr : List JsonValue) :
    compact showNumber (.array arr) = '[' :: joined (compact showNumber) ',' ']' arr := by
  unfold compact
  rw [toJson, toJsonItems_eq, String.append_assoc, String.toList_append, String.toList_append]
  change '[' :: ((commaJoin (arr.map (toJson showNumber))).toList ++ [']']) = _
  rw [toList_commaJoin, joined_map]

theorem compact_object (obj : JsonMap) :
    compact showNumber (.object obj) = '\x7b' :: joined (compactField showNumber) ',' '\x7d' obj := by
  have hfield : (fun e : String × JsonValue =>
      (quoteString e.1 ++ ":" ++ toJson showNumber e.2).toList) = compactField showNumber := by
    funext e
    rw [String.toList_append, String.toList_append, List.append_assoc]
    rfl
  unfold compact
  rw [toJson, toJsonFields_eq, String.append_assoc, String.toList_append, String.toList_append]
  change '\x7b' :: ((commaJoin (obj.map _)).toList ++ ['\x7d']) = _
  rw [toList_commaJoin, joined_map, hfield]

/-- The letter with which a text starts that is no number. -/
def opening : JsonValue → Option Char
  | .null => some 'n'
  | .bool b => some (if b then 't' else 'f')
  | .number _ => none
  | .string _ => some '\x22'
  | .array _ => some '['
  | .object _ => some '\x7b'

variable {showNumber}

theorem compact_of_opening {v : JsonValue} {c : Char} (h : opening v = some c) :
    (∃ rest, compact showNumber v = c :: rest) ∧ ¬ NumberLetter c := by
  match v, h with
  | .null, rfl => exact ⟨⟨['u', 'l', 'l'], by rw [compact, toJson]; rfl⟩, by decide⟩
  | .bool true, rfl => exact ⟨⟨['r', 'u', 'e'], by rw [compact, toJson]; rfl⟩, by decide⟩
  | .bool false, rfl => exact ⟨⟨['a', 'l', 's', 'e'], by rw [compact, toJson]; rfl⟩, by decide⟩
  | JsonValue.string s, rfl => exact ⟨⟨_, toList_quoteString s⟩, by decide⟩
  | .array arr, rfl => exact ⟨⟨_, compact_array showNumber arr⟩, by decide⟩
  | .object obj, rfl => exact ⟨⟨_, compact_object showNumber obj⟩, by decide⟩

theorem exists_number_of_opening {v : JsonValue} (h : opening v = none) :
    ∃ n, v = JsonValue.number n := by
  match v, h with
  | .number n, _ => exact ⟨n, rfl⟩

theorem compact_start (hformat : NumberFormat showNumber) (v : JsonValue) :
    ∃ c rest, compact showNumber v = c :: rest ∧ (opening v = some c ∨ NumberLetter c) := by
  cases hopen : opening v with
  | some c =>
    obtain ⟨⟨rest, hrest⟩, -⟩ := compact_of_opening hopen
    exact ⟨c, rest, hrest, Or.inl rfl⟩
  | none =>
    obtain ⟨n, rfl⟩ := exists_number_of_opening hopen
    obtain ⟨c, rest, hrest⟩ := List.exists_cons_of_ne_nil (hformat.nonempty n)
    exact ⟨c, rest, hrest, Or.inr (hformat.letters n c (by rw [hrest]; exact List.mem_cons_self))⟩

/-- The first letter says of what kind a value is. -/
theorem opening_eq (hformat : NumberFormat showNumber) {v w : JsonValue} {x y : List Char}
    (heq : compact showNumber v ++ x = compact showNumber w ++ y) : opening v = opening w := by
  have hkind : ∀ {v w : JsonValue} {x y : List Char} {c : Char},
      compact showNumber v ++ x = compact showNumber w ++ y → opening v = some c →
        opening w = some c := by
    intro v w x y c heq hv
    obtain ⟨⟨rest, hrest⟩, hletter⟩ := @compact_of_opening showNumber _ _ hv
    obtain ⟨d, rest', hrest', hd⟩ := compact_start hformat w
    rw [hrest, hrest', List.cons_append, List.cons_append, List.cons.injEq] at heq
    obtain ⟨rfl, -⟩ := heq
    exact hd.resolve_right hletter
  cases hv : opening v with
  | some c => rw [hkind heq hv]
  | none =>
    cases hw : opening w with
    | none => rfl
    | some c => exact absurd (hkind heq.symm hw) (by rw [hv]; simp)

theorem compact_ne_close (hformat : NumberFormat showNumber) (v : JsonValue) :
    ∃ c rest, compact showNumber v = c :: rest ∧ c ≠ ']' := by
  obtain ⟨c, rest, hrest, hc⟩ := compact_start hformat v
  refine ⟨c, rest, hrest, ?_⟩
  rintro rfl
  rcases hc with hc | hc
  · match v, hc with
    | .bool b, hc => cases b <;> exact absurd hc (by decide)
  · exact absurd hc (by decide)

/-- A text that starts like the text of a scalar is the text of a scalar. -/
theorem exists_scalar_of_opening {s : JsonScalar} {w : JsonValue} {c : Char}
    (hs : opening (.scalar s) = some c) (hw : opening w = some c) : ∃ t, w = .scalar t := by
  cases w with
  | scalar t => exact ⟨t, rfl⟩
  | array arr =>
    obtain rfl : '[' = c := Option.some.inj hw
    rcases s with _ | (_ | _) | _ | _ <;> simp [opening] at hs
  | object obj =>
    obtain rfl : '\x7b' = c := Option.some.inj hw
    rcases s with _ | (_ | _) | _ | _ <;> simp [opening] at hs

/-- Scalars that start alike are the same, or both are strings. -/
theorem eq_or_string_of_opening {s t : JsonScalar} (h : opening (.scalar s) = opening (.scalar t))
    (hs : opening (.scalar s) ≠ none) : s = t ∨ ∃ a b, s = .string a ∧ t = .string b := by
  rcases s with _ | (_ | _) | _ | _ <;> rcases t with _ | (_ | _) | _ | _ <;>
    simp [opening] at h hs ⊢

theorem closed_scalar (hformat : NumberFormat showNumber) {s : JsonScalar} {c : Char}
    (hopen : opening (.scalar s) = some c) : Closed (compact showNumber) (.scalar s) := by
  intro w x y _ _ heq
  have hopen' : opening w = some c := (opening_eq hformat heq).symm.trans hopen
  obtain ⟨t, rfl⟩ := exists_scalar_of_opening hopen hopen'
  have hsame := hopen.trans hopen'.symm
  rcases eq_or_string_of_opening hsame (by rw [hopen]; simp) with rfl | ⟨a, b, rfl, rfl⟩
  · exact ⟨rfl, List.append_cancel_left heq⟩
  · obtain ⟨rfl, hxy⟩ := (closed_quoteString a).unique heq
    exact ⟨rfl, hxy⟩

theorem closed_array (hformat : NumberFormat showNumber) {arr : List JsonValue}
    (h : ∀ v ∈ arr, Delimited NumberLetter (compact showNumber) v) :
    Closed (compact showNumber) (.array arr) := by
  intro w x y _ _ heq
  have hopen := opening_eq hformat heq
  match w, hopen with
  | .array arr', _ =>
    rw [compact_array, compact_array, List.cons_append, List.cons_append, List.cons.injEq] at heq
    have hjoined : Closed (joined (compact showNumber) ',' ']') arr :=
      closed_joined (by decide) (by decide) (by decide) (compact_ne_close hformat) h
    obtain ⟨rfl, hxy⟩ := hjoined.unique heq.2
    exact ⟨rfl, hxy⟩

theorem closed_object (hformat : NumberFormat showNumber) {obj : JsonMap}
    (h : ∀ k v, (k, v) ∈ obj → Delimited NumberLetter (compact showNumber) v) :
    Closed (compact showNumber) (.object obj) := by
  intro w x y _ _ heq
  have hopen := opening_eq hformat heq
  match w, hopen with
  | .object obj', _ =>
    rw [compact_object, compact_object, List.cons_append, List.cons_append, List.cons.injEq] at heq
    have hstart : ∀ e, ∃ c rest, compactField showNumber e = c :: rest ∧ c ≠ '\x7d' := by
      intro e
      obtain ⟨rest, hrest⟩ := exists_compactField showNumber e
      exact ⟨'\x22', rest, hrest, by decide⟩
    have hfield : ∀ e ∈ obj, Delimited NumberLetter (compactField showNumber) e := by
      intro e he
      exact Closed.append (g := fun s => (quoteString s).toList)
        (f := fun v => ':' :: compact showNumber v) (closed_quoteString e.1) ((h e.1 e.2 he).cons ':')
    have hjoined : Closed (joined (compactField showNumber) ',' '\x7d') obj :=
      closed_joined (by decide) (by decide) (by decide) hstart hfield
    obtain ⟨rfl, hxy⟩ := hjoined.unique heq.2
    exact ⟨rfl, hxy⟩

theorem delimited_number (hformat : NumberFormat showNumber) (n : JsonNumber) :
    Delimited NumberLetter (compact showNumber) (JsonValue.number n) := by
  intro w x y hx hy heq
  have hinj : Function.Injective fun n => (showNumber n).toList :=
    fun _ _ h => hformat.injective (String.toList_inj.mp h)
  obtain ⟨m, rfl⟩ := exists_number_of_opening (opening_eq hformat heq).symm
  obtain ⟨rfl, hxy⟩ := delimited_of_inner (a := n) hinj hformat.letters m x y hx hy heq
  exact ⟨rfl, hxy⟩

/-- In a sequence of texts, every text ends where it should. -/
theorem delimited_compact (hformat : NumberFormat showNumber) (v : JsonValue) :
    Delimited NumberLetter (compact showNumber) v := by
  induction v using Doc.induction with
  | scalar s =>
    cases hopen : opening (.scalar s) with
    | some c => exact (closed_scalar hformat hopen).delimited
    | none =>
      obtain ⟨n, hn⟩ := exists_number_of_opening hopen
      rw [hn]
      exact delimited_number hformat n
  | array arr ih => exact (closed_array hformat ih).delimited
  | object obj ih => exact (closed_object hformat ih).delimited

/-- A text that is no number ends by itself. -/
theorem closed_compact (hformat : NumberFormat showNumber) {v : JsonValue} {c : Char}
    (hopen : opening v = some c) : Closed (compact showNumber) v := by
  cases v with
  | scalar s => exact closed_scalar hformat hopen
  | array arr => exact closed_array hformat fun x _ => delimited_compact hformat x
  | object obj => exact closed_object hformat fun _ x _ => delimited_compact hformat x

end Values

end PJS
