import PJS.Lib.JsonText

/-! JSON texts with a mark on every byte: how many containers are open after it. Every text has
one, and the marks are bounded exactly as its nesting is. -/
namespace PJS.JsonText

/-- A text with its marks. -/
abbrev Marks := List (UInt8 × ℕ)

/-- Bytes after which `d` containers are open. -/
def mark (d : ℕ) (bytes : List UInt8) : Marks := bytes.map fun b => (b, d)

namespace Marks

def bytes (m : Marks) : List UInt8 := m.map Prod.fst

/-- How many containers are open at the end, where `d` were open before. -/
def last (d : ℕ) (m : Marks) : ℕ := (m.getLast?.map Prod.snd).getD d

def Bounded (k : ℕ) (m : Marks) : Prop := ∀ e ∈ m, e.2 ≤ k

end Marks

@[simp] theorem bytes_mark (d : ℕ) (bytes : List UInt8) : Marks.bytes (mark d bytes) = bytes := by
  simp [Marks.bytes, mark, Function.comp_def]

@[simp] theorem bytes_append (m m' : Marks) :
    Marks.bytes (m ++ m') = Marks.bytes m ++ Marks.bytes m' := List.map_append

@[simp] theorem bytes_cons (e : UInt8 × ℕ) (m : Marks) :
    Marks.bytes (e :: m) = e.1 :: Marks.bytes m := rfl

@[simp] theorem bytes_nil : Marks.bytes [] = [] := rfl

theorem bounded_append {k : ℕ} {m m' : Marks} :
    (m ++ m').Bounded k ↔ m.Bounded k ∧ m'.Bounded k := List.forall_mem_append

theorem bounded_cons {k : ℕ} {e : UInt8 × ℕ} {m : Marks} :
    Marks.Bounded k (e :: m) ↔ e.2 ≤ k ∧ m.Bounded k := List.forall_mem_cons

theorem bounded_mark {k d : ℕ} (h : d ≤ k) (bytes : List UInt8) : (mark d bytes).Bounded k := by
  intro e he
  obtain ⟨b, -, rfl⟩ := List.mem_map.mp he
  exact h

section Tokens

theorem hexDigit_plain {b : UInt8} {v : ℕ} (h : hexDigit b = some v) :
    b ≠ quote ∧ b ≠ backslash := by
  have hquote : hexDigit quote = none := by decide
  have hbackslash : hexDigit backslash = none := by decide
  constructor
  · rintro rfl
    rw [hquote] at h
    cases h
  · rintro rfl
    rw [hbackslash] at h
    cases h

theorem hex4_forall {P : UInt8 → Prop} (hdigit : ∀ {b v}, hexDigit b = some v → P b)
    {a b c d : UInt8} {v : ℕ} (h : hex4 a b c d = some v) : ∀ x ∈ [a, b, c, d], P x := by
  unfold hex4 at h
  obtain ⟨va, ha, h⟩ := Option.bind_eq_some_iff.mp h
  obtain ⟨vb, hb, h⟩ := Option.bind_eq_some_iff.mp h
  obtain ⟨vc, hc, h⟩ := Option.bind_eq_some_iff.mp h
  obtain ⟨vd, hd, -⟩ := Option.bind_eq_some_iff.mp h
  simp only [List.forall_mem_cons]
  exact ⟨hdigit ha, hdigit hb, hdigit hc, hdigit hd, nofun⟩

theorem hex4_plain {a b c d : UInt8} {v : ℕ} (h : hex4 a b c d = some v) :
    ∀ x ∈ [a, b, c, d], x ≠ quote ∧ x ≠ backslash :=
  hex4_forall (fun h => hexDigit_plain h) h

/-- A number is made of digits, signs, the point and the letter of the exponent. -/
theorem IsNumber.forall_mem {P : UInt8 → Prop} {text : List UInt8} (h : IsNumber text)
    (hdigit : ∀ b, isDigit b = true → P b) (hother : ∀ b ∈ [0x2D, 0x2B, 0x2E, 0x65, 0x45], P b) :
    ∀ b ∈ text, P b := by
  obtain ⟨n, hn, rfl⟩ := h
  have hdigits : ∀ {ds : List UInt8}, Digits ds → ∀ b ∈ ds, P b :=
    fun hds b hb => hdigit b (hds.2 b hb)
  simp only [List.forall_mem_cons] at hother
  obtain ⟨hminus, hplus, hpoint, he, hE, -⟩ := hother
  unfold Number.bytes
  rw [List.forall_mem_append, List.forall_mem_append, List.forall_mem_append]
  refine ⟨?_, hdigits hn.int, ?_, ?_⟩
  · split_ifs
    · exact List.forall_mem_singleton.mpr hminus
    · nofun
  · cases hfrac : n.frac with
    | none => nofun
    | some ds => exact List.forall_mem_cons.mpr ⟨hpoint, hdigits (hn.frac ds hfrac)⟩
  · cases hexp : n.exp with
    | none => nofun
    | some e =>
      obtain ⟨letter, sign, ds⟩ := e
      obtain ⟨hletter, hsign, hds⟩ := hn.exp _ hexp
      refine List.forall_mem_cons.mpr ⟨?_, List.forall_mem_append.mpr ⟨?_, hdigits hds⟩⟩
      · rcases hletter with rfl | rfl
        · exact he
        · exact hE
      · intro b hb
        rcases hsign b (by simpa using hb) with rfl | rfl
        · exact hplus
        · exact hminus

end Tokens

section Grammar

variable (str key : List UInt8 → Prop)

/-- The text of a value that is no container. -/
inductive Scalar : List UInt8 → Prop
  | true : Scalar [0x74, 0x72, 0x75, 0x65]
  | false : Scalar [0x66, 0x61, 0x6C, 0x73, 0x65]
  | null : Scalar [0x6E, 0x75, 0x6C, 0x6C]
  | number {text : List UInt8} (h : IsNumber text) : Scalar text
  | string {body : List UInt8} (h : str body) : Scalar (quote :: (body ++ [quote]))

inductive Part where
  | value
  | items
  | members

/-- Parts of a text in which `d` containers are open. -/
inductive Marked : Part → ℕ → Marks → Prop
  | scalar {d : ℕ} {text : List UInt8} (h : Scalar str text) : Marked .value d (mark d text)
  | emptyArray {d : ℕ} {ws : List UInt8} (hw : Blank ws) :
      Marked .value d ((openBracket, d + 1) :: (mark (d + 1) ws ++ [(closeBracket, d)]))
  | array {d : ℕ} {m : Marks} (h : Marked .items (d + 1) m) :
      Marked .value d ((openBracket, d + 1) :: (m ++ [(closeBracket, d)]))
  | emptyObject {d : ℕ} {ws : List UInt8} (hw : Blank ws) :
      Marked .value d ((openBrace, d + 1) :: (mark (d + 1) ws ++ [(closeBrace, d)]))
  | object {d : ℕ} {m : Marks} (h : Marked .members (d + 1) m) :
      Marked .value d ((openBrace, d + 1) :: (m ++ [(closeBrace, d)]))
  | lastItem {d : ℕ} {before after : List UInt8} {m : Marks} (hb : Blank before) (ha : Blank after)
      (h : Marked .value d m) : Marked .items d (mark d before ++ (m ++ mark d after))
  | item {d : ℕ} {before after : List UInt8} {m rest : Marks} (hb : Blank before)
      (ha : Blank after) (h : Marked .value d m) (hrest : Marked .items d rest) :
      Marked .items d (mark d before ++ (m ++ mark d after) ++ (comma, d) :: rest)
  | lastMember {d : ℕ} {kb ka vb va : List UInt8} {k v : Marks} (hkb : Blank kb) (hka : Blank ka)
      (hvb : Blank vb) (hva : Blank va) (hkey : key k.bytes) (hk : Marked .value d k)
      (hv : Marked .value d v) :
      Marked .members d (mark d kb ++ (k ++ mark d ka) ++
        (colon, d) :: (mark d vb ++ (v ++ mark d va)))
  | member {d : ℕ} {kb ka vb va : List UInt8} {k v rest : Marks} (hkb : Blank kb) (hka : Blank ka)
      (hvb : Blank vb) (hva : Blank va) (hkey : key k.bytes) (hk : Marked .value d k)
      (hv : Marked .value d v) (hrest : Marked .members d rest) :
      Marked .members d (mark d kb ++ (k ++ mark d ka) ++
        (colon, d) :: (mark d vb ++ (v ++ mark d va)) ++ (comma, d) :: rest)

end Grammar

section Texts

variable {str key : List UInt8 → Prop}

/-- The marks of a text of that part with the bytes, none above `k`. -/
def HasMarks (str key : List UInt8 → Prop) (part : Part) (d k : ℕ) (text : List UInt8) : Prop :=
  ∃ m, Marked str key part d m ∧ m.bytes = text ∧ m.Bounded k

theorem Scalar.hasMarks {text : List UInt8} (h : Scalar str text) {d k : ℕ} (hk : d ≤ k) :
    HasMarks str key .value d k text :=
  ⟨_, .scalar h, bytes_mark d text, bounded_mark hk text⟩

theorem hasMarks_items {d k : ℕ} (hk : d ≤ k) {items : List Padded} (hne : items ≠ [])
    (hw : ∀ i ∈ items, i.Blank) (h : ∀ i ∈ items, HasMarks str key .value d k i.text) :
    HasMarks str key .items d k (commaSeparated (items.map Padded.bytes)) := by
  induction items with
  | nil => exact absurd rfl hne
  | cons i items ih =>
    rw [List.forall_mem_cons] at hw h
    obtain ⟨⟨hb, ha⟩, hw⟩ := hw
    obtain ⟨⟨m, hm, hbytes, hbound⟩, h⟩ := h
    have hitem : (mark d i.before ++ (m ++ mark d i.after)).Bounded k := by
      simp only [bounded_append]
      exact ⟨bounded_mark hk _, hbound, bounded_mark hk _⟩
    cases items with
    | nil =>
      refine ⟨_, .lastItem hb ha hm, ?_, hitem⟩
      simp [hbytes, commaSeparated, Padded.bytes]
    | cons j items =>
      obtain ⟨rest, hrest, hrestBytes, hrestBound⟩ := ih (List.cons_ne_nil j items) hw h
      refine ⟨_, .item hb ha hm hrest, ?_, bounded_append.mpr ⟨hitem, bounded_cons.mpr
        ⟨hk, hrestBound⟩⟩⟩
      simp only [bytes_append, bytes_cons, bytes_mark, hbytes, hrestBytes]
      rfl

theorem hasMarks_members {d k : ℕ} (hk : d ≤ k) {members : List (Padded × Padded)}
    (hne : members ≠ []) (hw : ∀ m ∈ members, m.1.Blank ∧ m.2.Blank)
    (hkey : ∀ m ∈ members, key m.1.text)
    (h : ∀ m ∈ members, HasMarks str key .value d k m.1.text)
    (hv : ∀ m ∈ members, HasMarks str key .value d k m.2.text) :
    HasMarks str key .members d k (commaSeparated (members.map memberBytes)) := by
  induction members with
  | nil => exact absurd rfl hne
  | cons i members ih =>
    rw [List.forall_mem_cons] at hw hkey h hv
    obtain ⟨⟨⟨hkb, hka⟩, hvb, hva⟩, hw⟩ := hw
    obtain ⟨⟨m, hm, hbytes, hbound⟩, h⟩ := h
    obtain ⟨⟨v, hvm, hvbytes, hvbound⟩, hv⟩ := hv
    have hkeyBytes : key m.bytes := hbytes ▸ hkey.1
    have hmember : (mark d i.1.before ++ (m ++ mark d i.1.after) ++
        (colon, d) :: (mark d i.2.before ++ (v ++ mark d i.2.after))).Bounded k := by
      simp only [bounded_append, bounded_cons]
      exact ⟨⟨bounded_mark hk _, hbound, bounded_mark hk _⟩, hk, bounded_mark hk _, hvbound,
        bounded_mark hk _⟩
    cases members with
    | nil =>
      refine ⟨_, .lastMember hkb hka hvb hva hkeyBytes hm hvm, ?_, hmember⟩
      simp only [bytes_append, bytes_cons, bytes_mark, hbytes, hvbytes]
      rfl
    | cons j members =>
      obtain ⟨rest, hrest, hrestBytes, hrestBound⟩ :=
        ih (List.cons_ne_nil j members) hw hkey.2 h hv
      refine ⟨_, .member hkb hka hvb hva hkeyBytes hm hvm hrest, ?_,
        bounded_append.mpr ⟨hmember, bounded_cons.mpr ⟨hk, hrestBound⟩⟩⟩
      simp only [bytes_append, bytes_cons, bytes_mark, hbytes, hvbytes, hrestBytes]
      rfl

/-- A text that nests at most `n` containers has marks, none of them above `n` more. -/
theorem Value.hasMarks {n : ℕ} {text : List UInt8} (h : Value str key n text) (d : ℕ) :
    HasMarks str key .value d (d + n) text := by
  induction h generalizing d with
  | true => exact Scalar.true.hasMarks (Nat.le_add_right d _)
  | false => exact Scalar.false.hasMarks (Nat.le_add_right d _)
  | null => exact Scalar.null.hasMarks (Nat.le_add_right d _)
  | number h => exact (Scalar.number h).hasMarks (Nat.le_add_right d _)
  | string h => exact (Scalar.string h).hasMarks (Nat.le_add_right d _)
  | @emptyArray n ws hw =>
    refine ⟨_, .emptyArray hw, by simp, ?_⟩
    simp only [bounded_cons, bounded_append]
    exact ⟨by omega, bounded_mark (by omega) ws, by omega, nofun⟩
  | @array n items hne hw _ ih =>
    obtain ⟨m, hm, hbytes, hbound⟩ := hasMarks_items (d := d + 1) (k := d + (n + 1)) (by omega) hne
      hw fun i hi => by
        have hi' := ih i hi (d + 1)
        rwa [show d + 1 + n = d + (n + 1) by omega] at hi'
    refine ⟨_, .array hm, by simp [hbytes], ?_⟩
    simp only [bounded_cons, bounded_append]
    exact ⟨by omega, hbound, by omega, nofun⟩
  | @emptyObject n ws hw =>
    refine ⟨_, .emptyObject hw, by simp, ?_⟩
    simp only [bounded_cons, bounded_append]
    exact ⟨by omega, bounded_mark (by omega) ws, by omega, nofun⟩
  | @object n members hne hw hkey _ _ ih ihv =>
    obtain ⟨m, hm, hbytes, hbound⟩ := hasMarks_members (d := d + 1) (k := d + (n + 1)) (by omega)
      hne hw hkey
      (fun i hi => by
        have hi' := ih i hi (d + 1)
        rwa [show d + 1 + n = d + (n + 1) by omega] at hi')
      (fun i hi => by
        have hi' := ihv i hi (d + 1)
        rwa [show d + 1 + n = d + (n + 1) by omega] at hi')
    refine ⟨_, .object hm, by simp [hbytes], ?_⟩
    simp only [bounded_cons, bounded_append]
    exact ⟨by omega, hbound, by omega, nofun⟩

variable (str key) in
/-- What marks up to `d + n` say about a part of a text. -/
def Nested (n : ℕ) : Part → List UInt8 → Prop
  | .value, text => Value str key n text
  | .items, text => ∃ items : List Padded, items ≠ [] ∧ (∀ i ∈ items, i.Blank) ∧
      (∀ i ∈ items, Value str key n i.text) ∧ commaSeparated (items.map Padded.bytes) = text
  | .members, text => ∃ members : List (Padded × Padded), members ≠ [] ∧
      (∀ m ∈ members, m.1.Blank ∧ m.2.Blank) ∧ (∀ m ∈ members, key m.1.text) ∧
      (∀ m ∈ members, Value str key n m.1.text) ∧ (∀ m ∈ members, Value str key n m.2.text) ∧
      commaSeparated (members.map memberBytes) = text

theorem commaSeparated_cons {x : List UInt8} {xs : List (List UInt8)} (h : xs ≠ []) :
    commaSeparated (x :: xs) = x ++ comma :: commaSeparated xs := by
  cases xs with
  | nil => exact absurd rfl h
  | cons y ys => rfl

/-- A text nests no deeper than its marks go. -/
theorem Marked.nested {part : Part} {d n : ℕ} {m : Marks} (h : Marked str key part d m)
    (hbound : m.Bounded (d + n)) : Nested str key n part m.bytes := by
  induction h generalizing n with
  | scalar h =>
    rw [bytes_mark]
    cases h with
    | true => exact Value.true
    | false => exact Value.false
    | null => exact Value.null
    | number h => exact Value.number h
    | string h => exact Value.string h
  | @emptyArray d ws hw =>
    obtain ⟨hn, -⟩ := bounded_cons.mp hbound
    obtain ⟨n, rfl⟩ : ∃ k, n = k + 1 := ⟨n - 1, by simp only at hn; omega⟩
    simpa [Nested] using Value.emptyArray hw
  | @array d m h ih =>
    obtain ⟨hn, hm⟩ := bounded_cons.mp hbound
    obtain ⟨n, rfl⟩ : ∃ k, n = k + 1 := ⟨n - 1, by simp only at hn; omega⟩
    rw [show d + (n + 1) = d + 1 + n by omega] at hm
    obtain ⟨items, hne, hw, hitems, hbytes⟩ := ih (bounded_append.mp hm).1
    have hvalue := Value.array hne hw hitems
    rw [hbytes] at hvalue
    simpa [Nested] using hvalue
  | @emptyObject d ws hw =>
    obtain ⟨hn, -⟩ := bounded_cons.mp hbound
    obtain ⟨n, rfl⟩ : ∃ k, n = k + 1 := ⟨n - 1, by simp only at hn; omega⟩
    simpa [Nested] using Value.emptyObject hw
  | @object d m h ih =>
    obtain ⟨hn, hm⟩ := bounded_cons.mp hbound
    obtain ⟨n, rfl⟩ : ∃ k, n = k + 1 := ⟨n - 1, by simp only at hn; omega⟩
    rw [show d + (n + 1) = d + 1 + n by omega] at hm
    obtain ⟨members, hne, hw, hkey, hk, hv, hbytes⟩ := ih (bounded_append.mp hm).1
    have hvalue := Value.object hne hw hkey hk hv
    rw [hbytes] at hvalue
    simpa [Nested] using hvalue
  | @lastItem d before after m hb ha h ih =>
    simp only [bounded_append] at hbound
    refine ⟨[⟨before, m.bytes, after⟩], by simp, by simpa using ⟨hb, ha⟩,
      List.forall_mem_singleton.mpr (ih hbound.2.1), by simp [commaSeparated, Padded.bytes]⟩
  | @item d before after m rest hb ha h _ ih ihrest =>
    simp only [bounded_append, bounded_cons] at hbound
    obtain ⟨items, hne, hw, hitems, hbytes⟩ := ihrest hbound.2.2
    refine ⟨⟨before, m.bytes, after⟩ :: items, by simp, ?_, ?_, ?_⟩
    · exact List.forall_mem_cons.mpr ⟨⟨hb, ha⟩, hw⟩
    · exact List.forall_mem_cons.mpr ⟨ih hbound.1.2.1, hitems⟩
    · rw [List.map_cons, commaSeparated_cons (by simpa using hne), hbytes]
      simp [Padded.bytes]
  | @lastMember d kb ka vb va k v hkb hka hvb hva hkey hk hv ihk ihv =>
    simp only [bounded_append, bounded_cons] at hbound
    refine ⟨[(⟨kb, k.bytes, ka⟩, ⟨vb, v.bytes, va⟩)], by simp, ?_, by simpa using hkey,
      List.forall_mem_singleton.mpr (ihk hbound.1.2.1),
      List.forall_mem_singleton.mpr (ihv hbound.2.2.2.1),
      by simp [commaSeparated, memberBytes, Padded.bytes]⟩
    rw [List.forall_mem_singleton]
    exact ⟨⟨hkb, hka⟩, hvb, hva⟩
  | @member d kb ka vb va k v rest hkb hka hvb hva hkey hk hv _ ihk ihv ihrest =>
    simp only [bounded_append, bounded_cons] at hbound
    obtain ⟨members, hne, hw, hkeys, hks, hvs, hbytes⟩ := ihrest hbound.2.2
    refine ⟨(⟨kb, k.bytes, ka⟩, ⟨vb, v.bytes, va⟩) :: members, by simp, ?_, ?_, ?_, ?_, ?_⟩
    · exact List.forall_mem_cons.mpr ⟨⟨⟨hkb, hka⟩, hvb, hva⟩, hw⟩
    · exact List.forall_mem_cons.mpr ⟨hkey, hkeys⟩
    · exact List.forall_mem_cons.mpr ⟨ihk hbound.1.1.2.1, hks⟩
    · exact List.forall_mem_cons.mpr ⟨ihv hbound.1.2.2.2.1, hvs⟩
    · rw [List.map_cons, commaSeparated_cons (by simpa using hne), hbytes]
      simp [memberBytes, Padded.bytes]

end Texts

end PJS.JsonText
