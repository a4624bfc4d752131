import PJS.Lib.Reader

/-! IP addresses and their text forms, as the standard library parses them. -/
namespace PJS

inductive IpAddr where
  | v4 (a b c d : UInt8)
  | v6 (a b c d e f g h : UInt16)
deriving DecidableEq

namespace IpAddr

/-- An IPv4-mapped IPv6 address as the IPv4 address; any other address as it is. -/
def toCanonical : IpAddr → IpAddr
  | .v6 0 0 0 0 0 0xffff ab cd =>
    .v4 (ab >>> 8).toUInt8 ab.toUInt8 (cd >>> 8).toUInt8 cd.toUInt8
  | ip => ip

section Parser

/-- `char::to_digit`. -/
def toDigit (c : Char) (radix : ℕ) : Option ℕ :=
  let value :=
    if '0' ≤ c ∧ c ≤ '9' then some (c.toNat - '0'.toNat)
    else if 'a' ≤ c ∧ c ≤ 'z' then some (c.toNat - 'a'.toNat + 10)
    else if 'A' ≤ c ∧ c ≤ 'Z' then some (c.toNat - 'A'.toNat + 10)
    else none
  value.filter (· < radix)

/-- Read a number of at most `maxDigits` digits that is below `bound`. A longer run of digits is
no number at all. -/
def readNumber (radix maxDigits bound : ℕ) (allowZeroPrefix : Bool) : Reader ℕ := do
  let digits ← Reader.takeWhile fun c => (toDigit c radix).isSome
  let result := digits.foldl (fun acc c => acc * radix + (toDigit c radix).getD 0) 0
  if digits.length > maxDigits ∨ result ≥ bound then failure
  else if digits.length = 0 then failure
  else if !allowZeroPrefix ∧ digits.head? = some '0' ∧ digits.length > 1 then failure
  else pure result

/-- Read the separator, unless `index` is the first, and then by `inner`. -/
def readSeparator {α : Type} (sep : Char) (index : ℕ) (inner : Reader α) : Reader α := do
  if index > 0 then Reader.char sep
  inner

def readOctet (index : ℕ) : Reader UInt8 :=
  UInt8.ofNat <$> readSeparator '.' index (readNumber 10 3 256 false)

/-- The four octets of an IPv4 address. -/
def readIpv4Addr : Reader (UInt8 × UInt8 × UInt8 × UInt8) := do
  let a ← readOctet 0
  let b ← readOctet 1
  let c ← readOctet 2
  let d ← readOctet 3
  pure (a, b, c, d)

def fromBeBytes (high low : UInt8) : UInt16 := (high.toUInt16 <<< 8) ||| low.toUInt16

/-- Read up to `limit` groups, the first of which has the number `index`. An embedded IPv4 address
stands for the last two of them; the flag tells that there was one. -/
def readGroups : ℕ → ℕ → Reader (List UInt16 × Bool)
  | 0, _ => pure ([], false)
  | limit + 1, index =>
    let ipv4 : Reader (List UInt16 × Bool) := do
      if limit = 0 then failure
      let (a, b, c, d) ← readSeparator ':' index readIpv4Addr
      pure ([fromBeBytes a b, fromBeBytes c d], true)
    let group : Reader (List UInt16 × Bool) := do
      let g ← readSeparator ':' index (readNumber 16 4 65536 true)
      let (groups, embedded) ← readGroups limit (index + 1)
      pure (UInt16.ofNat g :: groups, embedded)
    Reader.either ipv4 (Reader.either group (pure ([], false)))

def ofGroups : List UInt16 → Option IpAddr
  | [a, b, c, d, e, f, g, h] => some (.v6 a b c d e f g h)
  | _ => none

/-- Read the groups before `::`, then those after it, and fill with zeros in between. -/
def readIpv6Addr : Reader IpAddr := do
  let (head, headIpv4) ← readGroups 8 0
  if head.length = 8 then (ofGroups head : Reader IpAddr)
  else if headIpv4 then failure
  else
    Reader.char ':'
    Reader.char ':'
    let (tail, _) ← readGroups (8 - (head.length + 1)) 0
    ofGroups (head ++ List.replicate (8 - head.length - tail.length) 0 ++ tail)

def readIpAddr : Reader IpAddr :=
  Reader.either ((fun (a, b, c, d) => .v4 a b c d) <$> readIpv4Addr) readIpv6Addr

/-- `str::parse::<IpAddr>`. -/
def parse (s : List Char) : Option IpAddr := readIpAddr.all s

end Parser

section Ascii

/-- A seven-bit character. -/
def IsAscii (c : Char) : Prop := c.toNat < 128

instance (c : Char) : Decidable (IsAscii c) := inferInstanceAs (Decidable (_ < _))

theorem isAscii_of_toDigit {c : Char} {radix : ℕ} (h : (toDigit c radix).isSome) : IsAscii c := by
  have hle : ∀ a b : Char, a ≤ b → a.toNat ≤ b.toNat := fun a b hab => hab
  unfold toDigit at h
  unfold IsAscii
  split_ifs at h with h0 ha hA
  · have := hle _ _ h0.2
    exact lt_of_le_of_lt this (by decide)
  · have := hle _ _ ha.2
    exact lt_of_le_of_lt this (by decide)
  · have := hle _ _ hA.2
    exact lt_of_le_of_lt this (by decide)
  · cases h

theorem takes_readNumber (radix maxDigits bound : ℕ) (allowZeroPrefix : Bool) :
    (readNumber radix maxDigits bound allowZeroPrefix).Takes IsAscii := by
  refine Reader.Takes.bind (Reader.takes_takeWhile fun c hc => isAscii_of_toDigit hc)
    fun digits => ?_
  dsimp only
  split_ifs
  · exact Reader.takes_failure
  · exact Reader.takes_failure
  · exact Reader.takes_failure
  · exact Reader.takes_pure _

theorem takes_readSeparator {α : Type} {sep : Char} (hsep : IsAscii sep) (index : ℕ)
    {inner : Reader α} (h : inner.Takes IsAscii) :
    (readSeparator sep index inner).Takes IsAscii := by
  unfold readSeparator
  split_ifs
  · exact (Reader.takes_char hsep).bind fun _ => h
  · exact h

theorem takes_readIpv4Addr : readIpv4Addr.Takes IsAscii := by
  have hoctet : ∀ index, (readOctet index).Takes IsAscii := fun index =>
    (takes_readSeparator (by decide) index (takes_readNumber 10 3 256 false)).map _
  refine (hoctet 0).bind fun a => (hoctet 1).bind fun b => (hoctet 2).bind fun c => ?_
  exact (hoctet 3).bind fun d => Reader.takes_pure _

theorem takes_readGroups (limit index : ℕ) : (readGroups limit index).Takes IsAscii := by
  induction limit generalizing index with
  | zero => exact Reader.takes_pure _
  | succ limit ih =>
    rw [readGroups]
    refine Reader.Takes.either ?_ (Reader.Takes.either ?_ (Reader.takes_pure _))
    · have hrest := (takes_readSeparator (show IsAscii ':' by decide) index takes_readIpv4Addr).bind
        (f := fun (a, b, c, d) => (pure ([fromBeBytes a b, fromBeBytes c d], true) :
          Reader (List UInt16 × Bool))) fun _ => Reader.takes_pure _
      split_ifs
      · exact Reader.takes_failure.bind fun _ => hrest
      · exact hrest
    · refine (takes_readSeparator (by decide) index (takes_readNumber 16 4 65536 true)).bind
        fun g => (ih (index + 1)).bind fun _ => Reader.takes_pure _

theorem takes_ofGroups (groups : List UInt16) :
    Reader.Takes IsAscii (ofGroups groups : Reader IpAddr) := by
  intro cs ip rest h
  obtain ⟨ip', -, hpure⟩ := Option.bind_eq_some_iff.mp h
  cases hpure
  exact ⟨[], rfl, by simp⟩

theorem takes_readIpv6Addr : readIpv6Addr.Takes IsAscii := by
  refine (takes_readGroups 8 0).bind fun (head, headIpv4) => ?_
  dsimp only
  split_ifs
  · exact takes_ofGroups head
  · exact Reader.takes_failure
  · refine (Reader.takes_char (by decide)).bind fun _ =>
      (Reader.takes_char (by decide)).bind fun _ => (takes_readGroups _ 0).bind fun _ => ?_
    exact takes_ofGroups _

/-- Only seven-bit characters stand in the text of an address. -/
theorem isAscii_of_parse {s : List Char} {ip : IpAddr} (h : parse s = some ip) :
    ∀ c ∈ s, IsAscii c :=
  Reader.forall_mem_of_all ((takes_readIpv4Addr.map _).either takes_readIpv6Addr) h

end Ascii

end IpAddr

end PJS
