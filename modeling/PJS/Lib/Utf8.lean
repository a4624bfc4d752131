import Mathlib

/-! Incremental decoding of UTF-8: the decoder keeps what it has of a character between two inputs,
so how the bytes are cut does not show in the text. -/
namespace PJS.Utf8

def encode (text : List Char) : List UInt8 := text.flatMap String.utf8EncodeChar

theorem encode_append (text rest : List Char) : encode (text ++ rest) = encode text ++ encode rest :=
  List.flatMap_append

theorem encode_flatMap {α : Type*} (l : List α) (f : α → List Char) :
    encode (l.flatMap f) = l.flatMap fun a => encode (f a) :=
  List.flatMap_assoc

/-- What a decoder remembers between two bytes: how many bytes the character still needs, its value
so far, and the range of the next byte. -/
structure Decoder where
  needed : ℕ
  codePoint : ℕ
  lower : ℕ
  upper : ℕ
deriving DecidableEq

namespace Decoder

def start : Decoder := ⟨0, 0, 0x80, 0xBF⟩

/-- The first byte of a character. A byte that begins none is replaced. -/
def first (byte : ℕ) : Decoder × List Char :=
  if byte ≤ 0x7F then (start, [Char.ofNat byte])
  else if 0xC2 ≤ byte ∧ byte ≤ 0xDF then (⟨1, byte % 32, 0x80, 0xBF⟩, [])
  else if 0xE0 ≤ byte ∧ byte ≤ 0xEF then
    (⟨2, byte % 16, if byte = 0xE0 then 0xA0 else 0x80, if byte = 0xED then 0x9F else 0xBF⟩, [])
  else if 0xF0 ≤ byte ∧ byte ≤ 0xF4 then
    (⟨3, byte % 8, if byte = 0xF0 then 0x90 else 0x80, if byte = 0xF4 then 0x8F else 0xBF⟩, [])
  else (start, [Char.ofNat 0xFFFD])

/-- One byte. A byte that cannot continue the character replaces it and is read again as the first
byte of another. -/
def step (d : Decoder) (byte : ℕ) : Decoder × List Char :=
  if d.needed = 0 then first byte
  else if byte < d.lower ∨ d.upper < byte then
    ((first byte).1, Char.ofNat 0xFFFD :: (first byte).2)
  else if d.needed = 1 then (start, [Char.ofNat (d.codePoint * 64 + byte % 64)])
  else (⟨d.needed - 1, d.codePoint * 64 + byte % 64, 0x80, 0xBF⟩, [])

def run (d : Decoder) : List UInt8 → Decoder × List Char
  | [] => (d, [])
  | byte :: rest =>
    ((run (d.step byte.toNat).1 rest).1, (d.step byte.toNat).2 ++ (run (d.step byte.toNat).1 rest).2)

theorem run_append (d : Decoder) (bytes rest : List UInt8) :
    d.run (bytes ++ rest) =
      (((d.run bytes).1.run rest).1, (d.run bytes).2 ++ ((d.run bytes).1.run rest).2) := by
  induction bytes generalizing d with
  | nil => rfl
  | cons byte bytes ih => rw [List.cons_append, run, ih, run, List.append_assoc]

theorem step_start (byte : ℕ) : start.step byte = first byte := rfl

theorem step_last {d : Decoder} {byte : ℕ} (hn : d.needed = 1) (hlower : d.lower ≤ byte)
    (hupper : byte ≤ d.upper) :
    d.step byte = (start, [Char.ofNat (d.codePoint * 64 + byte % 64)]) := by
  rw [step, if_neg (by omega), if_neg (by omega), if_pos hn]

theorem step_more {d : Decoder} {byte : ℕ} (hn : 1 < d.needed) (hlower : d.lower ≤ byte)
    (hupper : byte ≤ d.upper) :
    d.step byte = (⟨d.needed - 1, d.codePoint * 64 + byte % 64, 0x80, 0xBF⟩, []) := by
  rw [step, if_neg (by omega), if_neg (by omega), if_neg (by omega)]

/-- The bytes of one character bring the decoder back to its start. -/
theorem run_utf8EncodeChar (c : Char) : start.run (String.utf8EncodeChar c) = (start, [c]) := by
  have hc : Char.ofNat c.val.toNat = c := Char.ofNat_toNat c
  have hvalid : c.val.toNat < 0xD800 ∨ 0xDFFF < c.val.toNat ∧ c.val.toNat < 0x110000 := c.valid
  generalize hv : c.val.toNat = v at hc hvalid
  have hnat : ∀ n, n < 256 → (UInt8.ofNat n).toNat = n := fun n hn => UInt8.toNat_ofNat_of_lt' hn
  unfold String.utf8EncodeChar
  simp only [hv]
  split_ifs with h1 h2 h3
  · simp only [run, hnat v (by omega), step_start, first, h1, if_true, List.append_nil, hc]
  · have hb0 := hnat (v / 64 % 32 + 0xC0) (by omega)
    have hb1 := hnat (v % 64 + 0x80) (by omega)
    have hfirst : first (v / 64 % 32 + 0xC0) = (⟨1, v / 64, 0x80, 0xBF⟩, []) := by
      rw [first, if_neg (by omega), if_pos (by omega)]
      simp only [Prod.mk.injEq, Decoder.mk.injEq, and_true, true_and]
      omega
    simp only [run, hb0, hb1, step_start, hfirst]
    rw [step_last rfl (by simp) (by simp only; omega)]
    simp only [List.nil_append, List.append_nil]
    rw [show v / 64 * 64 + (v % 64 + 0x80) % 64 = v by omega, hc]
  · have hb0 := hnat (v / 4096 % 16 + 0xE0) (by omega)
    have hb1 := hnat (v / 64 % 64 + 0x80) (by omega)
    have hb2 := hnat (v % 64 + 0x80) (by omega)
    set lower := if v / 4096 = 0 then 0xA0 else 0x80 with hlower
    set upper := if v / 4096 = 13 then 0x9F else 0xBF with hupper
    have hfirst : first (v / 4096 % 16 + 0xE0) = (⟨2, v / 4096, lower, upper⟩, []) := by
      rw [first, if_neg (by omega), if_neg (by omega), if_pos (by omega)]
      simp only [Prod.mk.injEq, Decoder.mk.injEq, and_true, true_and]
      refine ⟨by omega, ?_, ?_⟩
      · rw [hlower]
        exact if_congr (by omega) rfl rfl
      · rw [hupper]
        exact if_congr (by omega) rfl rfl
    have hrange : lower ≤ v / 64 % 64 + 0x80 ∧ v / 64 % 64 + 0x80 ≤ upper := by
      rw [hlower, hupper]
      split_ifs <;> omega
    have hmore : (⟨2, v / 4096, lower, upper⟩ : Decoder).step (v / 64 % 64 + 0x80) =
        (⟨1, v / 4096 * 64 + (v / 64 % 64 + 0x80) % 64, 0x80, 0xBF⟩, []) :=
      step_more (by decide : 1 < 2) hrange.1 hrange.2
    simp only [run, hb0, hb1, hb2, step_start, hfirst, hmore]
    rw [step_last rfl (by simp) (by simp only; omega)]
    simp only [List.nil_append, List.append_nil]
    rw [show (v / 4096 * 64 + (v / 64 % 64 + 0x80) % 64) * 64 + (v % 64 + 0x80) % 64 = v by omega,
      hc]
  · have hb0 := hnat (v / 262144 % 8 + 0xF0) (by omega)
    have hb1 := hnat (v / 4096 % 64 + 0x80) (by omega)
    have hb2 := hnat (v / 64 % 64 + 0x80) (by omega)
    have hb3 := hnat (v % 64 + 0x80) (by omega)
    set lower := if v / 262144 = 0 then 0x90 else 0x80 with hlower
    set upper := if v / 262144 = 4 then 0x8F else 0xBF with hupper
    have hfirst : first (v / 262144 % 8 + 0xF0) = (⟨3, v / 262144, lower, upper⟩, []) := by
      rw [first, if_neg (by omega), if_neg (by omega), if_neg (by omega), if_pos (by omega)]
      simp only [Prod.mk.injEq, Decoder.mk.injEq, and_true, true_and]
      refine ⟨by omega, ?_, ?_⟩
      · rw [hlower]
        exact if_congr (by omega) rfl rfl
      · rw [hupper]
        exact if_congr (by omega) rfl rfl
    have hrange : lower ≤ v / 4096 % 64 + 0x80 ∧ v / 4096 % 64 + 0x80 ≤ upper := by
      rw [hlower, hupper]
      split_ifs <;> omega
    have hmore : (⟨3, v / 262144, lower, upper⟩ : Decoder).step (v / 4096 % 64 + 0x80) =
        (⟨2, v / 262144 * 64 + (v / 4096 % 64 + 0x80) % 64, 0x80, 0xBF⟩, []) :=
      step_more (by decide : 1 < 3) hrange.1 hrange.2
    have hlast : (⟨2, v / 262144 * 64 + (v / 4096 % 64 + 0x80) % 64, 0x80, 0xBF⟩ : Decoder).step
        (v / 64 % 64 + 0x80) = (⟨1, (v / 262144 * 64 + (v / 4096 % 64 + 0x80) % 64) * 64 +
          (v / 64 % 64 + 0x80) % 64, 0x80, 0xBF⟩, []) :=
      step_more (by decide : 1 < 2) (by simp) (by simp only; omega)
    simp only [run, hb0, hb1, hb2, hb3, step_start, hfirst, hmore, hlast]
    rw [step_last rfl (by simp) (by simp only; omega)]
    simp only [List.nil_append, List.append_nil]
    rw [show ((v / 262144 * 64 + (v / 4096 % 64 + 0x80) % 64) * 64 + (v / 64 % 64 + 0x80) % 64) * 64
      + (v % 64 + 0x80) % 64 = v by omega, hc]

theorem run_encode (text : List Char) : start.run (encode text) = (start, text) := by
  induction text with
  | nil => rfl
  | cons c text ih =>
    rw [encode, List.flatMap_cons, run_append, run_utf8EncodeChar, ← encode, ih]
    rfl

end Decoder

end PJS.Utf8
