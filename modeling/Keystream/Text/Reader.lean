import Keystream.Error
import Keystream.Text.Decimal
import Keystream.Text.Token

/-!
# State texts

An engine's state is saved as decimal numbers with one space between them. `writeNumbers` makes
such a text. A `Reader` takes one apart, token by token, and reports the first token that does not
hold the value it should.
-/

namespace Keystream.Text

def writeNumbers (values : List Nat) : List Char :=
  match values with
  | [] => []
  | first :: rest => Decimal.write first ++ rest.flatMap fun value => ' ' :: Decimal.write value

structure Reader where
  pending : List (List Char)
  position : Nat
  expected : Nat

/-- A value or a cause of refusal, and the reader after it in either case. -/
abbrev Reading := ExceptT Error (StateM Reader)

namespace Reader

def ofText (text : String) (expected : Nat) : Reader :=
  ⟨tokens text.toList, 0, expected⟩

/-- A token that is no number is taken all the same, but does not count as a value read. -/
def number : Reading Nat := fun reader =>
  match reader.pending with
  | [] => (.error (.endsEarly reader.expected reader.position), reader)
  | token :: pending =>
      match Decimal.read? token with
      | some value => (.ok value, ⟨pending, reader.position + 1, reader.expected⟩)
      | none =>
          (.error (.notANumber reader.position (String.ofList token)),
            ⟨pending, reader.position, reader.expected⟩)

def numberBelow (limit : Nat) : Reading Nat := do
  let value ← number
  if value < limit then
    return value
  else
    throw (.notBelow ((← get).position - 1) value limit)

def finish : Reading Unit := do
  let reader ← get
  if reader.pending.isEmpty then
    return ()
  else
    throw (.goesOn reader.expected)

def decode {α : Type} (text : String) (expected : Nat) (reading : Reading α) : Except Error α :=
  let whole : Reading α := do
    let state ← reading
    finish
    return state
  (whole (ofText text expected)).1

end Reader

end Keystream.Text
