import Keystream.Proofs.Text.Decimal
import Keystream.Text.Reader

/-!
# The tokens of a written text

A text of numbers is cut into the numbers it was written from: digits are not blank, and a space
stands between any two numbers.
-/

namespace Keystream.Text

theorem isBlank_digitChar : ∀ {digit : Nat}, digit < 10 →
    isBlank (Decimal.digitChar digit) = false := by
  decide

theorem isBlank_of_mem_write {value : Nat} {c : Char} (hmem : c ∈ Decimal.write value) :
    isBlank c = false := by
  obtain ⟨digit, hlt, rfl⟩ := Decimal.exists_digit_of_mem_write hmem
  exact isBlank_digitChar hlt

section

variable {word : List Char}

theorem foldr_cons_of_not_blank (hword : ∀ c ∈ word, isBlank c = false) (cut : Cut) :
    word.foldr Cut.cons cut = ⟨word ++ cut.front, cut.later⟩ := by
  induction word with
  | nil => rfl
  | cons c word ih =>
      have hc : ¬ isBlank c = true := by simp [hword c List.mem_cons_self]
      rw [List.foldr_cons, ih fun d hmem => hword d (List.mem_cons_of_mem c hmem), Cut.cons,
        if_neg hc, List.cons_append]

theorem Cut.tokens_of_ne_nil {cut : Cut} (hfront : cut.front ≠ []) :
    cut.tokens = cut.front :: cut.later :=
  if_neg (mt List.isEmpty_iff.1 hfront)

theorem tokens_word (hword : ∀ c ∈ word, isBlank c = false) (hne : word ≠ []) :
    tokens word = [word] := by
  rw [tokens, foldr_cons_of_not_blank hword, List.append_nil]
  exact Cut.tokens_of_ne_nil hne

theorem tokens_word_append_space (hword : ∀ c ∈ word, isBlank c = false) (hne : word ≠ [])
    (later : List Char) : tokens (word ++ ' ' :: later) = word :: tokens later := by
  rw [tokens, List.foldr_append, List.foldr_cons, Cut.cons, if_pos (by decide),
    foldr_cons_of_not_blank hword, List.append_nil]
  exact Cut.tokens_of_ne_nil hne

end

theorem tokens_writeNumbers (values : List Nat) :
    tokens (writeNumbers values) = values.map Decimal.write := by
  cases values with
  | nil => rfl
  | cons first later =>
      -- the induction is on the numbers behind the first, which all stand behind a space
      induction later generalizing first with
      | nil =>
          rw [writeNumbers, List.flatMap_nil, List.append_nil]
          exact tokens_word (fun c => isBlank_of_mem_write) (Decimal.write_ne_nil first)
      | cons second later ih =>
          rw [writeNumbers, List.flatMap_cons, List.cons_append,
            tokens_word_append_space (fun c => isBlank_of_mem_write) (Decimal.write_ne_nil first)]
          exact congrArg _ (ih second)

theorem read?_tokens_writeNumbers {values : List Nat}
    (hfits : ∀ value ∈ values, value < UInt64.size) :
    (tokens (writeNumbers values)).map Decimal.read? = values.map some := by
  rw [tokens_writeNumbers, List.map_map]
  exact List.map_congr_left fun value hmem => Decimal.read?_write (hfits value hmem)

end Keystream.Text
