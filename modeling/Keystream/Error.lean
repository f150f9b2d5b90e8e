/-!
# Causes of refusal

Everything the library can refuse, as one type of causes. `Error.message` is the only place that
fixes a wording.
-/

namespace Keystream

/-- Why a request or a saved state is refused. -/
inductive Error
  /-- A draw below zero, or from an empty range. -/
  | nothingToDraw
  | tooManyValues (len bits : Nat)
  | emptyKey
  | unsupportedSize (size max : Nat)
  | endsEarly (expected found : Nat)
  | goesOn (expected : Nat)
  | notANumber (position : Nat) (token : String)
  | notBelow (position value limit : Nat)
  | repeatedEntry (value : Nat)
  deriving Repr, DecidableEq

namespace Error

def message : Error → String
  | nothingToDraw => "Upper bound must be greater than zero"
  | tooManyValues len bits => s!"Range of {len} values exceeds the {bits}-bit engine output"
  | emptyKey => "Key material must contain at least one entry"
  | unsupportedSize size max =>
      s!"Table size {size} is outside the supported range [2, {max}]"
  | endsEarly expected found =>
      s!"Serialized state ended after {found} of {expected} values"
  | goesOn expected => s!"Unexpected data after {expected} state values"
  | notANumber position token => s!"Malformed token '{token}' at position {position}"
  | notBelow position value limit =>
      s!"Value {value} at position {position} must be below {limit}"
  | repeatedEntry value =>
      s!"Serialized table is not a permutation: {value} appears more than once"

end Error

end Keystream
