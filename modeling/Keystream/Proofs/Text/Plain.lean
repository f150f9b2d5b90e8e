import Keystream.Proofs.Text.Decimal
import Keystream.Text.Reader

/-!
# Plain texts

A number can be spelled in many ways: a plus sign and any number of leading zeros may stand in front
of its digits. A token is made plain by taking these away, and a text by writing its plain tokens
with one space between them. Writing the numbers that have been read from a text gives that text
made plain.
-/

namespace Keystream.Text

namespace Decimal

/-- The digits without the zeros in front, of which one stays if there is nothing else. -/
def withoutZeros (digits : List Char) : List Char :=
  match digits.dropWhile (· == '0') with
  | [] => ['0']
  | digits => digits

/-- The token without its plus sign and without leading zeros. -/
def plain (token : List Char) : List Char :=
  withoutZeros (unsigned token)

theorem eq_digitChar_of_digit? {c : Char} {digit : Nat} (hdigit : digit? c = some digit) :
    digit < 10 ∧ c = digitChar digit := by
  unfold digit? at hdigit
  split at hdigit
  · rename_i hc
    have hlow : '0'.toNat ≤ c.toNat := hc.1
    have hhigh : c.toNat ≤ '9'.toNat := hc.2
    have hvalue : '0'.toNat + digit = c.toNat := by
      rw [← Option.some.inj hdigit]
      exact Nat.add_sub_of_le hlow
    have hnine : '9'.toNat = '0'.toNat + 9 := rfl
    refine ⟨by omega, ?_⟩
    rw [digitChar, hvalue, Char.ofNat_toNat]
  · cases hdigit

theorem write_append_digit {value digit : Nat} (hvalue : 0 < value) (hdigit : digit < 10) :
    write (10 * value + digit) = write value ++ [digitChar digit] := by
  rw [write, if_neg (by omega), Nat.mul_add_div (by decide), Nat.mul_add_mod,
    Nat.div_eq_of_lt hdigit, Nat.mod_eq_of_lt hdigit, Nat.add_zero]

theorem write_of_extend?_of_pos {digits : List Char} {value number : Nat} (hvalue : 0 < value)
    (hextend : extend? value digits = some number) : write number = write value ++ digits := by
  induction digits generalizing value with
  | nil =>
      obtain rfl := Option.some.inj hextend
      exact (List.append_nil _).symm
  | cons c rest ih =>
      rw [extend?] at hextend
      split at hextend
      · rename_i digit hread
        obtain ⟨hdigit, rfl⟩ := eq_digitChar_of_digit? hread
        rw [ih (by omega) hextend, write_append_digit hvalue hdigit, List.append_assoc]
        rfl
      · cases hextend

theorem digitChar_ne_zero : ∀ {digit : Nat}, digit < 10 → 0 < digit → digitChar digit ≠ '0' := by
  decide

theorem withoutZeros_zero_cons (digits : List Char) :
    withoutZeros ('0' :: digits) = withoutZeros digits := by
  rw [withoutZeros, withoutZeros, List.dropWhile_cons, if_pos (beq_self_eq_true '0')]

theorem withoutZeros_cons_of_ne {c : Char} (hc : c ≠ '0') (digits : List Char) :
    withoutZeros (c :: digits) = c :: digits := by
  rw [withoutZeros, List.dropWhile_cons, if_neg (by simpa using hc)]

theorem write_of_extend? {digits : List Char} {number : Nat}
    (hextend : extend? 0 digits = some number) : write number = withoutZeros digits := by
  induction digits with
  | nil =>
      obtain rfl := Option.some.inj hextend
      rw [write, if_pos (by decide)]
      rfl
  | cons c rest ih =>
      rw [extend?] at hextend
      split at hextend
      · rename_i digit hread
        obtain ⟨hdigit, rfl⟩ := eq_digitChar_of_digit? hread
        rw [Nat.mul_zero, Nat.zero_add] at hextend
        -- zeros are skipped until the first other digit, from which on nothing is
        rcases Nat.eq_zero_or_pos digit with rfl | hpos
        · exact (ih hextend).trans (withoutZeros_zero_cons rest).symm
        · rw [write_of_extend?_of_pos hpos hextend, write, if_pos hdigit,
            withoutZeros_cons_of_ne (digitChar_ne_zero hdigit hpos)]
          rfl
      · cases hextend

theorem write_of_read? {token : List Char} {value : Nat} (hread : read? token = some value) :
    write value = plain token :=
  write_of_extend? (extend?_of_read? hread).1

end Decimal

/-- The text with its tokens made plain and one space between them. -/
def plainText (text : List Char) : List Char :=
  [' '].intercalate ((tokens text).map Decimal.plain)

theorem writeNumbers_eq (values : List Nat) :
    writeNumbers values = [' '].intercalate (values.map Decimal.write) := by
  cases values with
  | nil => rfl
  | cons first later =>
      induction later generalizing first with
      | nil => simp [writeNumbers]
      | cons second later ih =>
          rw [List.map_cons, List.map_cons, List.intercalate_cons_cons, ← List.map_cons, ← ih]
          simp [writeNumbers]

theorem map_write_of_reads {tokens : List (List Char)} {values : List Nat}
    (hreads : tokens.map Decimal.read? = values.map some) :
    values.map Decimal.write = tokens.map Decimal.plain := by
  induction tokens generalizing values with
  | nil => rw [List.map_eq_nil_iff.1 hreads.symm, List.map_nil, List.map_nil]
  | cons token rest ih =>
      obtain ⟨value, later, rfl, hvalue, hlater⟩ := List.map_eq_cons_iff.1 hreads.symm
      rw [List.map_cons, List.map_cons, Decimal.write_of_read? hvalue.symm, ih hlater.symm]

theorem writeNumbers_of_reads {text : List Char} {values : List Nat}
    (hreads : (tokens text).map Decimal.read? = values.map some) :
    writeNumbers values = plainText text := by
  rw [writeNumbers_eq, plainText, map_write_of_reads hreads]

example : plainText "\t+007 000\n\u300019 ".toList = "7 0 19".toList := by
  decide

end Keystream.Text
