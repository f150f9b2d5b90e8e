/-!
# Decimal numbers

How a state text spells its values. A number is written with no sign and no leading zero. Reading
is more generous: one plus sign may stand in front, leading zeros are skipped, and the value must
fit 64 bits.
-/

namespace Keystream.Text.Decimal

def digitChar (digit : Nat) : Char :=
  Char.ofNat ('0'.toNat + digit)

def write (value : Nat) : List Char :=
  if value < 10 then [digitChar value] else write (value / 10) ++ [digitChar (value % 10)]

def digit? (c : Char) : Option Nat :=
  if '0' ≤ c ∧ c ≤ '9' then some (c.toNat - '0'.toNat) else none

/-- The number whose digits are those of `value` and then `digits`. -/
def extend? (value : Nat) : List Char → Option Nat
  | [] => some value
  | c :: rest =>
      match digit? c with
      | some digit => extend? (10 * value + digit) rest
      | none => none

def unsigned : List Char → List Char
  | '+' :: digits => digits
  | digits => digits

/-- The value of a token, if the token is a number of at most 64 bits. -/
def read? (token : List Char) : Option Nat :=
  match unsigned token with
  | [] => none
  | digits => (extend? 0 digits).filter (· < UInt64.size)

end Keystream.Text.Decimal
