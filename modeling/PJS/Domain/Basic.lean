import Mathlib

/-! Identifiers, instants, errors and priorities of the domain crate. -/
namespace PJS

/-- The variants of `DomainError` that modelled operations raise, with their texts. -/
inductive DomainError where
  | invalidStateTransition (msg : String)
  | invalidStreamState (msg : String)
  | invalidSessionState (msg : String)
  | invalidFrame (msg : String)
  | invalidPriority (msg : String)
  | invalidPath (msg : String)
  | streamNotFound (msg : String)
  | sessionNotFound (msg : String)
  | tooManyStreams (msg : String)
  | compressionError (msg : String)
  | invalidInput (msg : String)
deriving DecidableEq

abbrev DomainResult := Except DomainError

section Ids

inductive IdMarker where
  | session
  | stream
deriving DecidableEq

/-- A UUID-based identifier; the marker keeps session and stream identifiers apart. -/
structure Id (marker : IdMarker) where
  value : BitVec 128
deriving DecidableEq

abbrev SessionId := Id .session
abbrev StreamId := Id .stream

/-- The hyphenated lower-case form of a UUID. -/
def Id.toString {marker : IdMarker} (id : Id marker) : String :=
  let digit (i : ℕ) : Char := Nat.digitChar (id.value.toNat >>> (4 * (31 - i)) % 16)
  let run (lo hi : ℕ) : List Char := (List.range' lo (hi - lo)).map digit
  String.ofList (run 0 8 ++ '-' :: run 8 12 ++ '-' :: run 12 16 ++ '-' :: run 16 20 ++
    '-' :: run 20 32)

end Ids

section Time

/-- A `DateTime<Utc>`: nanoseconds since the Unix epoch, from year -262143 to year 262142. -/
structure DateTime where
  nanos : ℤ
  lower : -8334601228800 * 1000000000 ≤ nanos
  upper : nanos ≤ 8210266876799 * 1000000000 + 999999999
deriving DecidableEq

namespace DateTime

instance : LE DateTime := ⟨fun a b => a.nanos ≤ b.nanos⟩
instance : LT DateTime := ⟨fun a b => a.nanos < b.nanos⟩
instance (a b : DateTime) : Decidable (a ≤ b) := inferInstanceAs (Decidable (a.nanos ≤ b.nanos))
instance (a b : DateTime) : Decidable (a < b) := inferInstanceAs (Decidable (a.nanos < b.nanos))

/-- The Unix epoch. -/
def epoch : DateTime := ⟨0, by decide, by decide⟩

/-- `DateTime + Duration::seconds(s)`. Both the duration and the sum are range checked, and
`none` is the panic that follows when a check fails. -/
def addSeconds? (t : DateTime) (s : ℤ) : Option DateTime :=
  if -9223372036854775 ≤ s ∧ s ≤ 9223372036854775 then
    if h : -8334601228800 * 1000000000 ≤ t.nanos + s * 1000000000 ∧
        t.nanos + s * 1000000000 ≤ 8210266876799 * 1000000000 + 999999999
    then some ⟨t.nanos + s * 1000000000, h.1, h.2⟩ else none
  else none

/-- `(end - start).num_milliseconds()`. -/
def millisSince (stop start : DateTime) : ℤ := (stop.nanos - start.nanos).tdiv 1000000

end DateTime

end Time

/-- Priority value, between 1 and 255. -/
structure Priority where
  value : ℕ
  pos : 0 < value
  le_max : value ≤ 255
deriving DecidableEq

namespace Priority

theorem value_injective : Function.Injective Priority.value := fun a b h => by
  cases a
  cases b
  cases h
  rfl

instance : LinearOrder Priority := LinearOrder.lift' Priority.value value_injective

def critical : Priority := ⟨100, by decide, by decide⟩
def high : Priority := ⟨80, by decide, by decide⟩
def medium : Priority := ⟨50, by decide, by decide⟩
def low : Priority := ⟨25, by decide, by decide⟩
def background : Priority := ⟨10, by decide, by decide⟩

/-- Create priority with validation. -/
def new (value : UInt8) : DomainResult Priority :=
  if h : 0 < value.toNat then .ok ⟨value.toNat, h, Nat.le_of_lt_succ value.toNat_lt⟩
  else .error (.invalidPriority "Priority cannot be zero")

/-- Increase priority by delta, saturating at 255. -/
def increaseBy (p : Priority) (delta : ℕ) : Priority :=
  ⟨min (p.value + delta) 255, by have := p.pos; omega, min_le_right _ _⟩

/-- Decrease priority by delta, saturating at 1. -/
def decreaseBy (p : Priority) (delta : ℕ) : Priority :=
  ⟨max (p.value - delta) 1, by omega, by have := p.le_max; omega⟩

def isCritical (p : Priority) : Bool := critical.value ≤ p.value

def isHighOrAbove (p : Priority) : Bool := high.value ≤ p.value

/-- The smallest threshold: no priority falls below it. -/
def minimum : Priority := ⟨1, by decide, by decide⟩

theorem minimum_le (p : Priority) : minimum ≤ p := p.pos

end Priority

end PJS
