import Keystream.Proofs.Stateful
import Keystream.Text.Reader

/-!
# Positions in errors

Each call of a reader takes one token as long as there are any, whatever it makes of it, so call
number `k` answers to token number `k` even when calls before it have failed. The position in an
error is another count: that of the numbers read before. A number that is not below its limit counts
as read, but a token that is no number does not, and every such token before the one at fault makes
the position smaller by one. The position is where the token stands exactly if there is none.
-/

namespace Keystream.Text.Reader

inductive Call
  | number
  | numberBelow (limit : Nat)

def Call.reading : Call → Reading Nat
  | number => Reader.number
  | numberBelow limit => Reader.numberBelow limit

/-- Later calls go on after an error. -/
def answers : List Call → Reader → List (Except Error Nat) × Reader
  | [], reader => ([], reader)
  | call :: later, reader =>
      let (answer, reader) := call.reading reader
      let (rest, reader) := answers later reader
      (answer :: rest, reader)

def isNumber (token : List Char) : Bool :=
  (Decimal.read? token).isSome

/-- What a call makes of a token, with the given position in its error. -/
def Call.answerTo (position : Nat) (token : List Char) (call : Call) : Except Error Nat :=
  match Decimal.read? token with
  | none => .error (.notANumber position (String.ofList token))
  | some value =>
      match call with
      | number => .ok value
      | numberBelow limit =>
          if value < limit then .ok value else .error (.notBelow position value limit)

section

variable {pending : List (List Char)} {token : List Char} {position expected : Nat}

theorem Call.reading_nil (call : Call) :
    call.reading ⟨[], position, expected⟩ =
      (.error (.endsEarly expected position), ⟨[], position, expected⟩) := by
  cases call with
  | number => rfl
  | numberBelow limit => exact Stateful.bind_of_error rfl

theorem Call.reading_cons (call : Call) :
    call.reading ⟨token :: pending, position, expected⟩ =
      (call.answerTo position token,
        ⟨pending, position + (if isNumber token then 1 else 0), expected⟩) := by
  rcases hread : Decimal.read? token with _ | value
  · have hnumber : Reader.number ⟨token :: pending, position, expected⟩ =
        (.error (.notANumber position (String.ofList token)), ⟨pending, position, expected⟩) := by
      simp only [Reader.number, hread]
    have hcount : isNumber token = false := by rw [isNumber, hread, Option.isSome_none]
    rw [hcount, if_neg Bool.false_ne_true, Nat.add_zero, answerTo, hread]
    cases call with
    | number => exact hnumber
    | numberBelow limit => exact Stateful.bind_of_error hnumber
  · have hnumber : Reader.number ⟨token :: pending, position, expected⟩ =
        (.ok value, ⟨pending, position + 1, expected⟩) := by
      simp only [Reader.number, hread]
    have hcount : isNumber token = true := by rw [isNumber, hread, Option.isSome_some]
    rw [hcount, if_pos rfl, answerTo, hread]
    cases call with
    | number => exact hnumber
    | numberBelow limit =>
        rw [reading, Reader.numberBelow, Stateful.bind_of_ok hnumber]
        by_cases hlt : value < limit
        · simp only [if_pos hlt]
          rfl
        · simp only [if_neg hlt]
          rfl

end

theorem getElem?_answers (calls : List Call) (tokens : List (List Char))
    (position expected k : Nat) :
    (answers calls ⟨tokens, position, expected⟩).1[k]? = calls[k]?.map fun call =>
      let read := position + (tokens.take k).countP isNumber
      match tokens[k]? with
      | none => .error (.endsEarly expected read)
      | some token => call.answerTo read token := by
  induction calls generalizing tokens position k with
  | nil => rfl
  | cons call later ih =>
      cases tokens with
      | nil =>
          rw [answers, call.reading_nil]
          cases k with
          | zero => rfl
          | succ k =>
              have hlater := ih [] position k
              simp only [List.take_nil, List.countP_nil, List.getElem?_nil] at hlater ⊢
              exact hlater
      | cons token pending =>
          rw [answers, call.reading_cons]
          cases k with
          | zero => rfl
          | succ k =>
              have hlater := ih pending (position + if isNumber token then 1 else 0) k
              simp only [List.take_succ_cons, List.countP_cons, List.getElem?_cons_succ] at hlater ⊢
              rw [hlater, Nat.add_assoc, Nat.add_comm (if isNumber token then 1 else 0)]

/-- The number of tokens before token number `k` that are no numbers. -/
def missedBefore (tokens : List (List Char)) (k : Nat) : Nat :=
  (tokens.take k).countP fun token => ¬ isNumber token

theorem countP_add_missedBefore {tokens : List (List Char)} {k : Nat} (hk : k < tokens.length) :
    (tokens.take k).countP isNumber + missedBefore tokens k = k := by
  rw [missedBefore, ← List.length_eq_countP_add_countP, List.length_take,
    Nat.min_eq_left (Nat.le_of_lt hk)]

theorem exists_of_getElem?_answers {calls : List Call} {text : String} {expected k : Nat}
    {answer : Except Error Nat}
    (hanswer : (answers calls (ofText text expected)).1[k]? = some answer) :
    ∃ call, calls[k]? = some call ∧
      ((tokens text.toList)[k]? = none ∧ answer = .error (.endsEarly expected
          ((tokens text.toList).countP isNumber)) ∨
        ∃ token position, (tokens text.toList)[k]? = some token ∧
          position + missedBefore (tokens text.toList) k = k ∧
          answer = call.answerTo position token) := by
  rw [ofText, getElem?_answers, Option.map_eq_some_iff] at hanswer
  obtain ⟨call, hcall, rfl⟩ := hanswer
  refine ⟨call, hcall, ?_⟩
  rcases htoken : (tokens text.toList)[k]? with _ | token
  · refine .inl ⟨rfl, ?_⟩
    simp only [Nat.zero_add, List.take_of_length_le (List.getElem?_eq_none_iff.1 htoken)]
  · obtain ⟨hk, -⟩ := List.getElem?_eq_some_iff.1 htoken
    refine .inr ⟨token, _, rfl, countP_add_missedBefore hk, ?_⟩
    simp only [Nat.zero_add]

section

variable {call : Call} {here position : Nat} {token : List Char}

theorem Call.of_answerTo_notANumber {reported : String}
    (hanswer : call.answerTo here token = .error (.notANumber position reported)) :
    Decimal.read? token = none ∧ position = here ∧ reported = String.ofList token := by
  rcases hread : Decimal.read? token with _ | value
  · simp only [answerTo, hread] at hanswer
    cases hanswer
    exact ⟨rfl, rfl, rfl⟩
  · simp only [answerTo, hread] at hanswer
    split at hanswer
    · cases hanswer
    · split at hanswer <;> cases hanswer

theorem Call.of_answerTo_notBelow {value limit : Nat}
    (hanswer : call.answerTo here token = .error (.notBelow position value limit)) :
    Decimal.read? token = some value ∧ position = here ∧ call = .numberBelow limit ∧
      limit ≤ value := by
  rcases hread : Decimal.read? token with _ | read
  · simp only [answerTo, hread] at hanswer
    cases hanswer
  · simp only [answerTo, hread] at hanswer
    cases call with
    | number => cases hanswer
    | numberBelow bound =>
        by_cases hlt : read < bound
        · simp only [if_pos hlt] at hanswer
          cases hanswer
        · simp only [if_neg hlt] at hanswer
          cases hanswer
          exact ⟨rfl, rfl, rfl, Nat.not_lt.1 hlt⟩

end

/-- **Positions count the numbers before.** An error of call `k` is about token `k`, and its
position is smaller than `k` by the tokens before that are no numbers. -/
theorem positions_count_numbers (text : String) (expected : Nat) (calls : List Call) (k : Nat) :
    let tokens := tokens text.toList
    let answer? := (answers calls (ofText text expected)).1[k]?
    (∀ position reported, answer? = some (.error (.notANumber position reported)) →
        (∃ token, tokens[k]? = some token ∧ Decimal.read? token = none ∧
          reported = String.ofList token) ∧ position + missedBefore tokens k = k) ∧
      (∀ position value limit, answer? = some (.error (.notBelow position value limit)) →
        (∃ token, tokens[k]? = some token ∧ Decimal.read? token = some value) ∧
          calls[k]? = some (.numberBelow limit) ∧ limit ≤ value ∧
          position + missedBefore tokens k = k) ∧
      (missedBefore tokens k = 0 ↔ ∀ token ∈ tokens.take k, (Decimal.read? token).isSome) := by
  intro tokens answer?
  refine ⟨?_, ?_, ?_⟩
  · intro position reported hanswer
    obtain ⟨call, -, ⟨-, hend⟩ | ⟨token, here, htoken, hhere, herror⟩⟩ :=
      exists_of_getElem?_answers hanswer
    · cases hend
    · obtain ⟨hread, rfl, hreported⟩ := Call.of_answerTo_notANumber herror.symm
      exact ⟨⟨token, htoken, hread, hreported⟩, hhere⟩
  · intro position value limit hanswer
    obtain ⟨call, hcall, ⟨-, hend⟩ | ⟨token, here, htoken, hhere, herror⟩⟩ :=
      exists_of_getElem?_answers hanswer
    · cases hend
    · obtain ⟨hread, rfl, rfl, hle⟩ := Call.of_answerTo_notBelow herror.symm
      exact ⟨⟨token, htoken, hread⟩, hcall, hle, hhere⟩
  · simp only [missedBefore, List.countP_eq_zero, decide_eq_true_eq, Decidable.not_not]
    exact Iff.rfl

/-- Behind a token that is no number, two more faults are reported one place too early. -/
theorem positions_count_numbers_after_miss :
    let calls : List Call := [.number, .number, .numberBelow 9, .number]
    let answers := (answers calls (ofText "7 x 9 y" 4)).1
    let tokens := tokens "7 x 9 y".toList
    answers[2]? = some (.error (.notBelow 1 9 9)) ∧ 1 + missedBefore tokens 2 = 2 ∧
      answers[3]? = some (.error (.notANumber 2 "y")) ∧ 2 + missedBefore tokens 3 = 3 := by
  intro calls answers tokens
  have hlarge : answers[2]? = some (.error (.notBelow 1 9 9)) := by rfl
  have hlast : answers[3]? = some (.error (.notANumber 2 "y")) := by rfl
  have hsecond := (positions_count_numbers "7 x 9 y" 4 calls 2).2.1 1 9 9 hlarge
  have hthird := (positions_count_numbers "7 x 9 y" 4 calls 3).1 2 "y" hlast
  exact ⟨hlarge, hsecond.2.2.2, hlast, hthird.2⟩

/-- The second of two tokens that are no numbers is reported at the place of the first one. -/
theorem position_behind_token :
    ¬ ∀ (text : String) (expected : Nat) (calls : List Call) (k position : Nat) (reported : String),
      (answers calls (ofText text expected)).1[k]? = some (.error (.notANumber position reported)) →
        (tokens text.toList)[position]? = some reported.toList := by
  intro hplace
  have hanswer : (answers [.number, .number] (ofText "x y" 2)).1[1]? =
      some (.error (.notANumber 0 "y")) := by rfl
  have htoken : (tokens "x y".toList)[0]? = some "y".toList :=
    hplace "x y" 2 [.number, .number] 1 0 "y" hanswer
  exact absurd htoken (by decide)

end Keystream.Text.Reader
