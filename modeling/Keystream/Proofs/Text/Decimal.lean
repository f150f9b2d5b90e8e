import Keystream.Text.Decimal

/-!
# Numbers written and read back

A number that is written in decimal reads as itself, as long as it fits 64 bits. Its digits are no
plus sign, so none of them is taken for one.
-/

namespace Keystream.Text.Decimal

theorem digit?_digitChar : ∀ {digit : Nat}, digit < 10 → digit? (digitChar digit) = some digit := by
  decide

theorem digitChar_ne_plus : ∀ {digit : Nat}, digit < 10 → digitChar digit ≠ '+' := by
  decide

theorem write_ne_nil (value : Nat) : write value ≠ [] := by
  fun_cases write value with
  | case1 => exact List.cons_ne_nil _ _
  | case2 => exact List.append_ne_nil_of_right_ne_nil _ (List.cons_ne_nil _ _)

theorem exists_digit_of_mem_write {value : Nat} {c : Char} (hmem : c ∈ write value) :
    ∃ digit < 10, c = digitChar digit := by
  fun_induction write value with
  | case1 value hlt => exact ⟨value, hlt, List.mem_singleton.1 hmem⟩
  | case2 value hlt ih =>
      rcases List.mem_append.1 hmem with hfirst | hlast
      · exact ih hfirst
      · exact ⟨value % 10, Nat.mod_lt value (by decide), List.mem_singleton.1 hlast⟩

theorem extend?_append (value : Nat) (first later : List Char) :
    extend? value (first ++ later) = (extend? value first).bind fun read => extend? read later := by
  induction first generalizing value with
  | nil => rfl
  | cons c first ih =>
      rw [List.cons_append, extend?, extend?]
      cases digit? c with
      | none => rfl
      | some digit => exact ih _

theorem extend?_write (value : Nat) : extend? 0 (write value) = some value := by
  fun_induction write value with
  | case1 value hlt => simp [extend?, digit?_digitChar hlt]
  | case2 value hlt ih =>
      have hlast : value % 10 < 10 := Nat.mod_lt value (by decide)
      rw [extend?_append, ih, Option.bind_some, extend?, digit?_digitChar hlast]
      exact congrArg some (Nat.div_add_mod value 10)

theorem unsigned_write (value : Nat) : unsigned (write value) = write value := by
  unfold unsigned
  split
  · rename_i digits hwrite
    obtain ⟨digit, hlt, hplus⟩ := exists_digit_of_mem_write (hwrite ▸ List.mem_cons_self)
    exact absurd hplus.symm (digitChar_ne_plus hlt)
  · rfl

theorem read?_write {value : Nat} (hfits : value < UInt64.size) :
    read? (write value) = some value := by
  unfold read?
  rw [unsigned_write]
  split
  · rename_i hnil
    exact absurd hnil (write_ne_nil value)
  · rw [extend?_write, Option.filter_some, if_pos (decide_eq_true hfits)]

theorem extend?_of_read? {token : List Char} {value : Nat} (hread : read? token = some value) :
    extend? 0 (unsigned token) = some value ∧ value < UInt64.size := by
  unfold read? at hread
  split at hread
  · cases hread
  · obtain ⟨hextend, hlt⟩ := Option.filter_eq_some_iff.1 hread
    exact ⟨hextend, of_decide_eq_true hlt⟩

end Keystream.Text.Decimal
