import PJS.Lib.Utf8
import PJS.Stream.CompactText
import PJS.WebSocket.Controller

/-! What the checksum of a stream commits to. The payloads are hashed one after the other, and then
their number. A payload that is no number says itself where it ends; neighbouring numbers run
together. -/
namespace PJS

open Codes

/-- What the hasher is fed. -/
def hashedBytes (framesData : List (List UInt8)) : List UInt8 :=
  framesData.flatten ++ toLeBytes (UInt64.ofNat framesData.length)

section Payloads
variable (showNumber : JsonNumber → String)

/-- `serde_json::to_vec`. -/
def payloadBytes (v : JsonValue) : List UInt8 := Utf8.encode (compact showNumber v)

/-- What the hasher is fed for a stream with these payloads. -/
def committed (payloads : List JsonValue) : List UInt8 :=
  hashedBytes (payloads.map (payloadBytes showNumber))

/-- The texts of neighbouring numbers, or another payload. -/
inductive Piece where
  | numbers (text : List Char)
  | value (v : JsonValue)
deriving DecidableEq

def Piece.text : Piece → List Char
  | .numbers text => text
  | .value v => compact showNumber v

def addNumber (text : List Char) : List Piece → List Piece
  | .numbers text' :: ps => .numbers (text ++ text') :: ps
  | ps => .numbers text :: ps

/-- The payloads, where neighbouring numbers have run together. -/
def pieces : List JsonValue → List Piece
  | [] => []
  | .number n :: payloads => addNumber (showNumber n).toList (pieces payloads)
  | v :: payloads => .value v :: pieces payloads

/-- No two neighbours are numbers. -/
def NumbersApart (payloads : List JsonValue) : Prop :=
  payloads.IsChain fun v w => opening v ≠ none ∨ opening w ≠ none

end Payloads

section Cut
variable {showNumber : JsonNumber → String}

theorem text_addNumber (text : List Char) (ps : List Piece) :
    (addNumber text ps).flatMap (Piece.text showNumber) =
      text ++ ps.flatMap (Piece.text showNumber) := by
  unfold addNumber
  split
  · rw [List.flatMap_cons, List.flatMap_cons, Piece.text, Piece.text, List.append_assoc]
  · rfl

theorem pieces_cons_of_opening {v : JsonValue} {c : Char} (h : opening v = some c)
    (payloads : List JsonValue) :
    pieces showNumber (v :: payloads) = .value v :: pieces showNumber payloads := by
  match v, h with
  | .null, _ => rfl
  | .bool b, _ => rfl
  | JsonValue.string s, _ => rfl
  | .array arr, _ => rfl
  | .object obj, _ => rfl

/-- Running together does not show in the text. -/
theorem text_pieces (payloads : List JsonValue) :
    (pieces showNumber payloads).flatMap (Piece.text showNumber) =
      payloads.flatMap (compact showNumber) := by
  induction payloads with
  | nil => rfl
  | cons v payloads ih =>
    rw [List.flatMap_cons, ← ih]
    cases hopen : opening v with
    | some c =>
      rw [pieces_cons_of_opening hopen]
      rfl
    | none =>
      obtain ⟨n, rfl⟩ := exists_number_of_opening hopen
      rw [pieces, text_addNumber]
      rfl

variable (showNumber) in
/-- Pieces as they are cut from a text: no two neighbours are numbers. -/
inductive Cut : List Piece → Prop
  | nil : Cut []
  | value {v : JsonValue} {c : Char} {ps : List Piece} (hopen : opening v = some c) (h : Cut ps) :
    Cut (.value v :: ps)
  | numbers {text : List Char} {ps : List Piece} (hne : text ≠ [])
      (hletters : ∀ c ∈ text, NumberLetter c)
      (hnext : Follows NumberLetter (ps.flatMap (Piece.text showNumber))) (h : Cut ps) :
    Cut (.numbers text :: ps)

theorem Cut.addNumber (hformat : NumberFormat showNumber) (n : JsonNumber) {ps : List Piece}
    (h : Cut showNumber ps) : Cut showNumber (addNumber (showNumber n).toList ps) := by
  have hletters := hformat.letters n
  have hne := hformat.nonempty n
  cases h with
  | nil => exact .numbers hne hletters follows_nil .nil
  | @value v c ps hopen h =>
    obtain ⟨⟨rest, hrest⟩, hletter⟩ := @compact_of_opening showNumber _ _ hopen
    refine .numbers hne hletters ?_ (.value hopen h)
    rw [List.flatMap_cons, Piece.text, hrest, List.cons_append]
    exact follows_cons hletter _
  | numbers _ hletters' hnext h =>
    refine .numbers (by simp [hne]) (fun c hc => ?_) hnext h
    exact (List.mem_append.mp hc).elim (hletters c) (hletters' c)

theorem cut_pieces (hformat : NumberFormat showNumber) (payloads : List JsonValue) :
    Cut showNumber (pieces showNumber payloads) := by
  induction payloads with
  | nil => exact .nil
  | cons v payloads ih =>
    cases hopen : opening v with
    | some c =>
      rw [pieces_cons_of_opening hopen]
      exact .value hopen ih
    | none =>
      obtain ⟨n, rfl⟩ := exists_number_of_opening hopen
      exact ih.addNumber hformat n

theorem Cut.text_ne_nil {p : Piece} {ps : List Piece} (h : Cut showNumber (p :: ps)) :
    (p :: ps).flatMap (Piece.text showNumber) ≠ [] := by
  rw [List.flatMap_cons, ne_eq, List.append_eq_nil_iff, not_and]
  intro hp
  cases h with
  | value hopen _ =>
    obtain ⟨⟨rest, hrest⟩, -⟩ := @compact_of_opening showNumber _ _ hopen
    rw [Piece.text, hrest] at hp
    cases hp
  | numbers hne _ _ _ => exact absurd hp hne

/-- A number and something else are told apart by the first letter. -/
theorem numbers_ne_value {text x y : List Char} {v : JsonValue} {c : Char}
    (hopen : opening v = some c) (hne : text ≠ []) (hletters : ∀ c ∈ text, NumberLetter c) :
    text ++ x ≠ compact showNumber v ++ y := by
  obtain ⟨⟨rest, hrest⟩, hletter⟩ := @compact_of_opening showNumber _ _ hopen
  obtain ⟨d, text, rfl⟩ := List.exists_cons_of_ne_nil hne
  rw [hrest, List.cons_append, List.cons_append, ne_eq, List.cons.injEq]
  rintro ⟨rfl, -⟩
  exact hletter (hletters d List.mem_cons_self)

/-- A text is cut into pieces in one way. -/
theorem Cut.unique (hformat : NumberFormat showNumber) {ps qs : List Piece}
    (hps : Cut showNumber ps) (hqs : Cut showNumber qs)
    (heq : ps.flatMap (Piece.text showNumber) = qs.flatMap (Piece.text showNumber)) : ps = qs := by
  induction hps generalizing qs with
  | nil =>
    cases qs with
    | nil => rfl
    | cons q qs => exact absurd heq.symm hqs.text_ne_nil
  | @value v c ps hopen hps ih =>
    cases hqs with
    | nil => exact absurd heq (Cut.value hopen hps).text_ne_nil
    | @value w d qs hopen' hqs =>
      rw [List.flatMap_cons, List.flatMap_cons, Piece.text, Piece.text] at heq
      obtain ⟨rfl, hrest⟩ := (closed_compact hformat hopen).unique heq
      rw [ih hqs hrest]
    | numbers hne hletters _ _ =>
      rw [List.flatMap_cons, List.flatMap_cons, Piece.text, Piece.text] at heq
      exact absurd heq.symm (numbers_ne_value hopen hne hletters)
  | @numbers text ps hne hletters hnext hps ih =>
    cases hqs with
    | nil => exact absurd heq (Cut.numbers hne hletters hnext hps).text_ne_nil
    | value hopen _ =>
      rw [List.flatMap_cons, List.flatMap_cons, Piece.text, Piece.text] at heq
      exact absurd heq (numbers_ne_value hopen hne hletters)
    | numbers _ hletters' hnext' hqs =>
      rw [List.flatMap_cons, List.flatMap_cons, Piece.text, Piece.text] at heq
      obtain ⟨rfl, hrest⟩ := inner_unique hletters hletters' hnext hnext' heq
      rw [ih hqs hrest]

end Cut

section Commitment
variable {showNumber : JsonNumber → String}

theorem encode_injective : Function.Injective Utf8.encode := by
  intro text text' heq
  have hrun := Utf8.Decoder.run_encode text
  rw [heq, Utf8.Decoder.run_encode] at hrun
  exact (congrArg Prod.snd hrun).symm

theorem toLeBytes_injective : Function.Injective toLeBytes := by
  intro a b heq
  have hbyte : ∀ i < 8, a.toNat / 256 ^ i % 256 = b.toNat / 256 ^ i % 256 := by
    intro i hi
    have hget := congrArg (fun l => l[i]?) heq
    simp only [toLeBytes, List.getElem?_map, List.getElem?_range hi, Option.map_some,
      Option.some.injEq] at hget
    simpa using congrArg UInt8.toNat hget
  have ha : a.toNat < 256 ^ 8 := a.toNat_lt
  have hb : b.toNat < 256 ^ 8 := b.toNat_lt
  exact UInt64.toNat_inj.mp (eq_of_digits ha hb hbyte)

theorem flatten_payloads (payloads : List JsonValue) :
    (payloads.map (payloadBytes showNumber)).flatten =
      Utf8.encode (payloads.flatMap (compact showNumber)) := by
  rw [Utf8.encode_flatMap, List.flatMap_def]
  rfl

/-- The hasher is fed the same exactly for equally many payloads that run together to the same. -/
theorem committed_eq_iff (hformat : NumberFormat showNumber) {ps qs : List JsonValue}
    (hps : ps.length < 2 ^ 64) (hqs : qs.length < 2 ^ 64) :
    committed showNumber ps = committed showNumber qs ↔
      ps.length = qs.length ∧ pieces showNumber ps = pieces showNumber qs := by
  unfold committed hashedBytes
  rw [List.length_map, List.length_map, flatten_payloads, flatten_payloads]
  constructor
  · intro heq
    obtain ⟨htext, hcount⟩ := List.append_inj' heq (by simp [toLeBytes])
    have hlength := congrArg UInt64.toNat (toLeBytes_injective hcount)
    rw [UInt64.toNat_ofNat', UInt64.toNat_ofNat', Nat.mod_eq_of_lt hps, Nat.mod_eq_of_lt hqs]
      at hlength
    refine ⟨hlength, (cut_pieces hformat ps).unique hformat (cut_pieces hformat qs) ?_⟩
    rw [text_pieces, text_pieces]
    exact encode_injective htext
  · rintro ⟨hlength, hpieces⟩
    have htext := congrArg (List.flatMap (Piece.text showNumber)) hpieces
    rw [text_pieces, text_pieces] at htext
    rw [htext, hlength]

variable (showNumber) in
/-- A payload that has not run together with another. -/
def single : JsonValue → Piece
  | .number n => .numbers (showNumber n).toList
  | v => .value v

theorem single_injective (hformat : NumberFormat showNumber) :
    Function.Injective (single showNumber) := by
  intro v w heq
  unfold single at heq
  split at heq
  · split at heq
    · rw [Piece.numbers.injEq, String.toList_inj] at heq
      rw [hformat.injective heq]
    · cases heq
  · split at heq
    · cases heq
    · exact Piece.value.inj heq

theorem single_of_opening {v : JsonValue} {c : Char} (h : opening v = some c) :
    single showNumber v = .value v := by
  match v, h with
  | .null, _ => rfl
  | .bool b, _ => rfl
  | JsonValue.string s, _ => rfl
  | .array arr, _ => rfl
  | .object obj, _ => rfl

/-- Nothing ran together exactly if there are as many pieces as payloads. -/
theorem length_pieces (payloads : List JsonValue) :
    (pieces showNumber payloads).length ≤ payloads.length ∧
      ((pieces showNumber payloads).length = payloads.length →
        pieces showNumber payloads = payloads.map (single showNumber)) := by
  induction payloads with
  | nil => exact ⟨le_refl _, fun _ => rfl⟩
  | cons v payloads ih =>
    rw [List.length_cons, List.map_cons]
    cases hopen : opening v with
    | some c =>
      rw [pieces_cons_of_opening hopen, single_of_opening hopen, List.length_cons]
      refine ⟨Nat.succ_le_succ ih.1, fun h => ?_⟩
      rw [ih.2 (by omega)]
    | none =>
      obtain ⟨n, rfl⟩ := exists_number_of_opening hopen
      rw [pieces]
      unfold addNumber
      split
      · rename_i text ps hps
        rw [hps] at ih
        simp only [List.length_cons] at ih ⊢
        exact ⟨by omega, fun h => by omega⟩
      · rw [List.length_cons]
        refine ⟨Nat.succ_le_succ ih.1, fun h => ?_⟩
        rw [ih.2 (by omega)]
        rfl

theorem pieces_of_numbersApart {payloads : List JsonValue} (h : NumbersApart payloads) :
    pieces showNumber payloads = payloads.map (single showNumber) := by
  induction payloads with
  | nil => rfl
  | cons v payloads ih =>
    rw [List.map_cons]
    cases hopen : opening v with
    | some c => rw [pieces_cons_of_opening hopen, single_of_opening hopen, ih h.tail]
    | none =>
      obtain ⟨n, rfl⟩ := exists_number_of_opening hopen
      rw [pieces, ih h.tail]
      cases payloads with
      | nil => rfl
      | cons w payloads =>
        have hw : opening w ≠ none :=
          (List.isChain_cons_cons.mp h).1.resolve_left fun hne => hne rfl
        obtain ⟨c, hc⟩ := Option.ne_none_iff_exists'.mp hw
        rw [List.map_cons, single_of_opening hc]
        rfl

/-- The checksum commits to the payloads up to what runs together: it tells two streams apart
unless they have equally many payloads and run together to the same. It tells a stream without
neighbouring numbers from every other. -/
theorem committed_injective_iff (hformat : NumberFormat showNumber) {ps qs : List JsonValue}
    (hps : ps.length < 2 ^ 64) (hqs : qs.length < 2 ^ 64) :
    ((committed showNumber ps = committed showNumber qs → ps = qs) ↔
      (ps = qs ∨ ps.length ≠ qs.length ∨ pieces showNumber ps ≠ pieces showNumber qs)) ∧
    (NumbersApart ps → committed showNumber ps = committed showNumber qs → ps = qs) := by
  rw [committed_eq_iff hformat hps hqs]
  refine ⟨by tauto, ?_⟩
  rintro hapart ⟨hlength, hpieces⟩
  have hsingle : pieces showNumber ps = ps.map (single showNumber) := pieces_of_numbersApart hapart
  have hqs' : pieces showNumber qs = qs.map (single showNumber) := by
    refine (length_pieces qs).2 ?_
    rw [← hpieces, hsingle, List.length_map, hlength]
  rw [hsingle, hqs'] at hpieces
  exact (single_injective hformat).list_map hpieces

end Commitment

section Sample

/-- Integers in decimal; a float by its bits, with the point that tells it from an integer. -/
def plainNumber : JsonNumber → String
  | .posInt n => Nat.repr n.toNat
  | .negInt i _ => "-" ++ Nat.repr (-i.toInt).toNat
  | .float f _ => Nat.repr f.toModel.toBits.toNat ++ ".0"

theorem isDigit_of_mem_repr {n : ℕ} {c : Char} (h : c ∈ (Nat.repr n).toList) :
    c.isDigit = true := by
  rw [Nat.toList_repr] at h
  exact Nat.isDigit_of_mem_toDigits (by decide) (by decide) h

/-- The digits of a number and what follows them. -/
theorem repr_unique {m n : ℕ} {x y : List Char} (hx : Follows (fun c : Char => c.isDigit = true) x)
    (hy : Follows (fun c : Char => c.isDigit = true) y)
    (h : (Nat.repr m).toList ++ x = (Nat.repr n).toList ++ y) : m = n ∧ x = y := by
  obtain ⟨hdigits, hxy⟩ := inner_unique (fun _ => isDigit_of_mem_repr)
    (fun _ => isDigit_of_mem_repr) hx hy h
  have hvalue := congrArg (fun l => Nat.ofDigitChars 10 l 0) hdigits
  simp only [Nat.toList_repr, Nat.ofDigitChars_ten_toDigits] at hvalue
  exact ⟨hvalue, hxy⟩

theorem minus_ne_repr (n : ℕ) (x y : List Char) : '-' :: x ≠ (Nat.repr n).toList ++ y := by
  intro h
  have hne : (Nat.repr n).toList ≠ [] := by simp
  obtain ⟨c, rest, hrest⟩ := List.exists_cons_of_ne_nil hne
  rw [hrest, List.cons_append, List.cons.injEq] at h
  have hdigit : '-'.isDigit = true := isDigit_of_mem_repr (by rw [hrest, ← h.1]; simp)
  exact absurd hdigit (by decide)

/-- A sign, digits and what follows them. -/
theorem toList_plainNumber (n : JsonNumber) : (plainNumber n).toList =
    match n with
    | .posInt n => (Nat.repr n.toNat).toList ++ []
    | .negInt i _ => '-' :: ((Nat.repr (-i.toInt).toNat).toList ++ [])
    | .float f _ => (Nat.repr f.toModel.toBits.toNat).toList ++ ['.', '0'] := by
  cases n <;> simp [plainNumber]

theorem plainNumber_injective : Function.Injective plainNumber := by
  have hnil : Follows (fun c : Char => c.isDigit = true) [] := follows_nil
  have hpoint : Follows (fun c : Char => c.isDigit = true) ['.', '0'] := follows_cons (by decide) _
  intro a b h
  have hlist := congrArg String.toList h
  rw [toList_plainNumber, toList_plainNumber] at hlist
  match a, b with
  | .posInt m, .posInt n => rw [UInt64.toNat_inj.mp (repr_unique hnil hnil hlist).1]
  | .posInt m, .negInt j _ => exact absurd hlist.symm (minus_ne_repr _ _ _)
  | .posInt m, .float g _ => exact absurd (repr_unique hnil hpoint hlist).2 (by simp)
  | .negInt i _, .posInt n => exact absurd hlist (minus_ne_repr _ _ _)
  | .negInt i hi, .negInt j hj =>
    have hvalue := (repr_unique hnil hnil (List.cons.inj hlist).2).1
    have hi' : i.toInt < 0 := Int64.lt_iff_toInt_lt.mp hi
    have hj' : j.toInt < 0 := Int64.lt_iff_toInt_lt.mp hj
    obtain rfl : i = j := Int64.toInt_inj.mp (by omega)
    rfl
  | .negInt i _, .float g _ => exact absurd hlist (minus_ne_repr _ _ _)
  | .float f _, .posInt n => exact absurd (repr_unique hpoint hnil hlist).2 (by simp)
  | .float f _, .negInt j _ => exact absurd hlist.symm (minus_ne_repr _ _ _)
  | .float ⟨⟨bits, valid⟩⟩ hf, .float ⟨⟨bits', valid'⟩⟩ hg =>
    obtain rfl : bits = bits' := UInt64.toNat_inj.mp (repr_unique hpoint hpoint hlist).1
    rfl

theorem numberFormat_plain : NumberFormat plainNumber where
  injective := plainNumber_injective
  letters n c hc := by
    cases n with
    | posInt m => exact Or.inl (isDigit_of_mem_repr hc)
    | negInt i hi =>
      rw [plainNumber, String.toList_append, List.mem_append] at hc
      rcases hc with hc | hc
      · obtain rfl : c = '-' := by simpa using hc
        decide
      · exact Or.inl (isDigit_of_mem_repr hc)
    | float f hf =>
      rw [plainNumber, String.toList_append, List.mem_append] at hc
      rcases hc with hc | hc
      · exact Or.inl (isDigit_of_mem_repr hc)
      · obtain rfl | rfl : c = '.' ∨ c = '0' := by simpa using hc
        · decide
        · decide
  nonempty n := by
    cases n <;> simp [plainNumber]

/-- Frames of two numbers each, which run together to `123`. -/
def oneAndTwentyThree : List JsonValue :=
  [JsonValue.number (.posInt 1), JsonValue.number (.posInt 23)]

def twelveAndThree : List JsonValue :=
  [JsonValue.number (.posInt 12), JsonValue.number (.posInt 3)]

theorem committed_injective_numbers :
    NumberFormat plainNumber ∧ oneAndTwentyThree.length < 2 ^ 64 ∧ twelveAndThree.length < 2 ^ 64 ∧
    ((committed plainNumber oneAndTwentyThree = committed plainNumber twelveAndThree →
        oneAndTwentyThree = twelveAndThree) ↔
      (oneAndTwentyThree = twelveAndThree ∨ oneAndTwentyThree.length ≠ twelveAndThree.length ∨
        pieces plainNumber oneAndTwentyThree ≠ pieces plainNumber twelveAndThree)) ∧
    (NumbersApart oneAndTwentyThree →
      committed plainNumber oneAndTwentyThree = committed plainNumber twelveAndThree →
        oneAndTwentyThree = twelveAndThree) :=
  ⟨numberFormat_plain, by decide, by decide,
    committed_injective_iff numberFormat_plain (by decide) (by decide)⟩

/-- Two streams with one checksum. -/
theorem numbers_resplit :
    committed plainNumber oneAndTwentyThree = committed plainNumber twelveAndThree ∧
    oneAndTwentyThree ≠ twelveAndThree := by
  refine ⟨?_, by decide⟩
  rw [committed_eq_iff numberFormat_plain (by decide) (by decide)]
  exact ⟨rfl, by decide⟩

end Sample

end PJS
