import Keystream.Proofs.Text.Decimal
import Keystream.Proofs.Text.Format
import Keystream.Proofs.Text.Reading

/-!
# Readings that follow a format

A decoder does not look for faults. It reads one number after another and stops where it cannot go
on. A reading follows a format when it has either taken numbers that are faultless so far or stopped
with the leftmost fault. This passes from the parts of a reading to the whole, so each decoder only
has to be taken apart; it then accepts the texts in its format and refuses any other text for its
leftmost fault.
-/

namespace Keystream.Text

namespace Reader

open Stateful

variable {α β : Type} {reader after : Reader} {reading : Reading α} {text : String} {expected : Nat}

theorem fst_bind_of_error {rest : α → Reading β} {cause : Error}
    (hreading : (reading reader).1 = .error cause) :
    ((reading >>= rest) reader).1 = .error cause := by
  have hrun : reading reader = (.error cause, (reading reader).2) := Prod.ext hreading rfl
  rw [bind_of_error hrun]

theorem decode_of_error {cause : Error}
    (hreading : (reading (ofText text expected)).1 = .error cause) :
    decode text expected reading = .error cause :=
  fst_bind_of_error hreading

theorem decode_of_pending_ne_nil {a : α}
    (hreading : reading (ofText text expected) = (.ok a, after)) (hpending : after.pending ≠ []) :
    decode text expected reading = .error (.goesOn after.expected) := by
  rw [decode, bind_of_ok hreading]
  rcases after with ⟨_ | ⟨token, pending⟩, position, expected⟩
  · exact absurd rfl hpending
  · rfl

end Reader

namespace Format

open Reader Stateful

variable {format : Format} {tokens : List (List Char)}

/-! ### The numbers taken so far -/

section

variable (format tokens)

/-- The reader that has taken the given values. -/
def reached (values : List Nat) : Reader :=
  ⟨tokens.drop values.length, values.length, format.count⟩

/-- The tokens start with the given values, without a fault so far. -/
structure ReadTo (values : List Nat) : Prop where
  reads : (tokens.map Decimal.read?).take values.length = values.map some
  faultless : format.FaultlessTo tokens values.length

/-- The reading goes on from `values` to those of its result, or to the leftmost fault. -/
def Follows {α : Type} (values : List Nat) (reading : Reading α) (read : α → List Nat) : Prop :=
  format.ReadTo tokens values →
    (∃ a, reading (format.reached tokens values) = (.ok a, format.reached tokens (read a)) ∧
        format.ReadTo tokens (read a)) ∨
      ∃ cause, (reading (format.reached tokens values)).1 = .error cause ∧
        format.Leftmost tokens cause

end

theorem readTo_nil : format.ReadTo tokens [] :=
  ⟨rfl, fun _ hlt => absurd hlt (Nat.not_lt_zero _)⟩

section

variable {values : List Nat} {token : List Char} {value : Nat}

theorem ReadTo.leftmost (hvalues : format.ReadTo tokens values) {cause : Error}
    (hfault : format.fault? tokens values.length = some cause) : format.Leftmost tokens cause :=
  ⟨values.length, hfault, hvalues.faultless⟩

theorem ReadTo.mem_iff (hvalues : format.ReadTo tokens values) :
    some value ∈ ((tokens.map Decimal.read?).take values.length).drop format.distinctFrom ↔
      value ∈ values.drop format.distinctFrom := by
  rw [hvalues.reads, ← List.map_drop, List.mem_map_of_injective fun _ _ => Option.some.inj]

theorem ReadTo.push (hvalues : format.ReadTo tokens values) (hplace : values.length < format.count)
    (htoken : tokens[values.length]? = some token) (hread : Decimal.read? token = some value)
    (hbelow : ∀ limit, format.limit? values.length = some limit → value < limit)
    (hnew : value ∉ values.drop format.distinctFrom) :
    format.ReadTo tokens (values ++ [value]) where
  reads := by
    have hvalue : (tokens.map Decimal.read?)[values.length]? = some (some value) :=
      hread ▸ getElem?_map_read? htoken
    rw [List.length_append, List.length_singleton, List.take_add_one, hvalues.reads, hvalue,
      List.map_append]
    rfl
  faultless := by
    intro place hlt
    rw [List.length_append, List.length_singleton, Nat.lt_succ_iff_lt_or_eq] at hlt
    rcases hlt with hlt | rfl
    · exact hvalues.faultless place hlt
    · rw [fault?_of_some hplace htoken, faultOf?_eq_none]
      exact ⟨value, hread, hbelow, mt hvalues.mem_iff.1 hnew⟩

theorem ReadTo.leftmost_repeatedEntry (hvalues : format.ReadTo tokens values)
    (hplace : values.length < format.count) (htoken : tokens[values.length]? = some token)
    (hread : Decimal.read? token = some value)
    (hbelow : ∀ limit, format.limit? values.length = some limit → value < limit)
    (hseen : value ∈ values.drop format.distinctFrom) :
    format.Leftmost tokens (.repeatedEntry value) := by
  apply hvalues.leftmost
  rw [fault?_of_some hplace htoken, faultOf?_of_below hread hbelow,
    if_pos (hvalues.mem_iff.2 hseen)]

theorem ReadTo.length_le (hvalues : format.ReadTo tokens values) :
    values.length ≤ tokens.length := by
  have hlength := congrArg List.length hvalues.reads
  rw [List.length_take, List.length_map, List.length_map] at hlength
  omega

theorem ReadTo.number_cases (hvalues : format.ReadTo tokens values)
    (hplace : values.length < format.count) :
    (∃ token value, tokens[values.length]? = some token ∧ Decimal.read? token = some value ∧
        number (format.reached tokens values) =
          (.ok value, format.reached tokens (values ++ [value]))) ∨
      ∃ cause, (number (format.reached tokens values)).1 = .error cause ∧
        format.Leftmost tokens cause := by
  rcases htoken : tokens[values.length]? with _ | token
  · have hend : tokens.length = values.length :=
      Nat.le_antisymm (List.getElem?_eq_none_iff.1 htoken) hvalues.length_le
    refine .inr ⟨_, ?_, hvalues.leftmost (fault?_of_none hplace htoken)⟩
    simp only [number, reached, List.drop_eq_nil_of_le (Nat.le_of_eq hend), hend]
  · obtain ⟨hlt, htoken'⟩ := List.getElem?_eq_some_iff.1 htoken
    have hpending : tokens.drop values.length = token :: tokens.drop (values.length + 1) := by
      rw [List.drop_eq_getElem_cons hlt, htoken']
    rcases hread : Decimal.read? token with _ | value
    · have hfault : format.fault? tokens values.length =
          some (.notANumber values.length (String.ofList token)) := by
        rw [fault?_of_some hplace htoken, faultOf?_of_not_number hread]
      refine .inr ⟨_, ?_, hvalues.leftmost hfault⟩
      simp only [number, reached, hpending, hread]
    · refine .inl ⟨token, value, rfl, hread, ?_⟩
      simp only [number, reached, hpending, hread, List.length_append, List.length_singleton]

theorem ReadTo.numberBelow_cases (hvalues : format.ReadTo tokens values)
    (hplace : values.length < format.count) {limit : Nat}
    (hlimit : format.limit? values.length = some limit) :
    (∃ token value, tokens[values.length]? = some token ∧ Decimal.read? token = some value ∧
        value < limit ∧ numberBelow limit (format.reached tokens values) =
          (.ok value, format.reached tokens (values ++ [value]))) ∨
      ∃ cause, (numberBelow limit (format.reached tokens values)).1 = .error cause ∧
        format.Leftmost tokens cause := by
  rcases hvalues.number_cases hplace with
    ⟨token, value, htoken, hread, hnumber⟩ | ⟨cause, hnumber, hleftmost⟩
  · rcases Nat.lt_or_ge value limit with hlt | hle
    · exact .inl ⟨token, value, htoken, hread, hlt, numberBelow_eq_ok.2 ⟨hlt, hnumber⟩⟩
    · have hfault : format.fault? tokens values.length =
          some (.notBelow values.length value limit) := by
        rw [fault?_of_some hplace htoken, faultOf?_of_limit_le hread hlimit hle]
      refine .inr ⟨_, ?_, hvalues.leftmost hfault⟩
      rw [numberBelow, bind_of_ok hnumber, if_neg (Nat.not_lt.2 hle)]
      simp only [reached, List.length_append, List.length_singleton]
      rfl
  · exact .inr ⟨cause, fst_bind_of_error hnumber, hleftmost⟩

end

namespace Follows

variable {α β : Type} {values : List Nat} {read : α → List Nat}

theorem pure {a : α} (hread : read a = values) :
    format.Follows tokens values (Pure.pure a) read := by
  subst hread
  exact fun hvalues => .inl ⟨a, rfl, hvalues⟩

theorem bind {first : Reading α} {rest : α → Reading β} {final : β → List Nat}
    (hfirst : format.Follows tokens values first read)
    (hrest : ∀ a, format.Follows tokens (read a) (rest a) final) :
    format.Follows tokens values (first >>= rest) final := by
  intro hvalues
  rcases hfirst hvalues with ⟨a, hrun, hread⟩ | ⟨cause, hrun, hleftmost⟩
  · rw [bind_of_ok hrun]
    exact hrest a hread
  · exact .inr ⟨cause, fst_bind_of_error hrun, hleftmost⟩

section

variable {rest : Nat → Reading β} {final : β → List Nat}

theorem number_bind (hplace : values.length < format.count)
    (hlimit : format.limit? values.length = none)
    (hdistinct : values.length ≤ format.distinctFrom)
    (hrest : ∀ value < UInt64.size, format.Follows tokens (values ++ [value]) (rest value) final) :
    format.Follows tokens values (number >>= rest) final := by
  intro hvalues
  rcases hvalues.number_cases hplace with
    ⟨token, value, htoken, hread, hrun⟩ | ⟨cause, hrun, hleftmost⟩
  · rw [bind_of_ok hrun]
    refine hrest value (Decimal.extend?_of_read? hread).2 (hvalues.push hplace htoken hread ?_ ?_)
    · simp [hlimit]
    · simp [List.drop_eq_nil_of_le hdistinct]
  · exact .inr ⟨cause, fst_bind_of_error hrun, hleftmost⟩

theorem numberBelow_bind (hplace : values.length < format.count) {limit : Nat}
    (hlimit : format.limit? values.length = some limit)
    (hdistinct : values.length ≤ format.distinctFrom)
    (hrest : ∀ value < limit, format.Follows tokens (values ++ [value]) (rest value) final) :
    format.Follows tokens values (numberBelow limit >>= rest) final := by
  intro hvalues
  rcases hvalues.numberBelow_cases hplace hlimit with
    ⟨token, value, htoken, hread, hlt, hrun⟩ | ⟨cause, hrun, hleftmost⟩
  · rw [bind_of_ok hrun]
    refine hrest value hlt (hvalues.push hplace htoken hread ?_ ?_)
    · simp [hlimit, hlt]
    · simp [List.drop_eq_nil_of_le hdistinct]
  · exact .inr ⟨cause, fst_bind_of_error hrun, hleftmost⟩

end

end Follows

/-! ### Decoders -/

/-- The texts in the format are accepted, and all others refused for their leftmost fault. -/
def DecodedBy {α : Type} (format : Format) (saved : α → List Nat)
    (decode : String → Except Error α) : Prop :=
  ∀ text,
    (∃ a, decode text = .ok a ∧ format.Accepts (Text.tokens text.toList) ∧
        (Text.tokens text.toList).map Decimal.read? = (saved a).map some) ∨
      ∃ cause, decode text = .error cause ∧ format.Leftmost (Text.tokens text.toList) cause

section

variable {α : Type} {saved : α → List Nat}

theorem ReadTo.accepts {values : List Nat} (hvalues : format.ReadTo tokens values)
    (hlength : values.length = format.count) (hend : tokens.length ≤ format.count) :
    format.Accepts tokens ∧ tokens.map Decimal.read? = values.map some := by
  constructor
  · refine accepts_iff.2 fun place => ?_
    rcases Nat.lt_or_ge place format.count with hlt | hge
    · exact hvalues.faultless place (hlength ▸ hlt)
    · exact fault?_of_end hge (List.getElem?_eq_none (Nat.le_trans hend hge))
  · rw [← hvalues.reads, List.take_of_length_le]
    rw [List.length_map, hlength]
    exact hend

theorem decodedBy_of_follows {reading : Reading α}
    (hreading : ∀ tokens, format.Follows tokens [] reading saved)
    (hlength : ∀ {reader after a}, reading reader = (.ok a, after) →
      (saved a).length = format.count) :
    format.DecodedBy saved fun text => Reader.decode text format.count reading := by
  intro text
  have hstart : ofText text format.count = format.reached (Text.tokens text.toList) [] := rfl
  rcases hreading (Text.tokens text.toList) readTo_nil with
    ⟨a, hrun, hread⟩ | ⟨cause, hrun, hleftmost⟩
  · rw [← hstart] at hrun
    have hcount := hlength hrun
    rcases Nat.lt_or_ge format.count (Text.tokens text.toList).length with hmore | hend
    · have hfault : format.fault? (Text.tokens text.toList) (saved a).length =
          some (.goesOn format.count) :=
        fault?_of_ge (Nat.le_of_eq hcount.symm) (List.getElem?_eq_getElem (hcount ▸ hmore))
      refine .inr ⟨_, decode_of_pending_ne_nil hrun ?_, hread.leftmost hfault⟩
      rw [reached, hcount]
      exact List.ne_nil_of_length_pos (by simpa using Nat.sub_pos_of_lt hmore)
    · obtain ⟨haccepts, hvalues⟩ := hread.accepts hcount hend
      have hpending := List.drop_eq_nil_of_le (hcount ▸ hend)
      exact .inl ⟨a, decode_eq_ok.2 ⟨_, hrun, hpending⟩, haccepts, hvalues⟩
  · exact .inr ⟨cause, decode_of_error hrun, hleftmost⟩

namespace DecodedBy

theorem map {β : Type} {savedMap : β → List Nat} {decode : String → Except Error α}
    (hdecode : format.DecodedBy saved decode) (f : α → β) (hsaved : ∀ a, savedMap (f a) = saved a) :
    format.DecodedBy savedMap fun text => f <$> decode text := by
  intro text
  rcases hdecode text with ⟨a, hok, haccepts, hreads⟩ | ⟨cause, herror, hleftmost⟩
  · exact .inl ⟨f a, congrArg (f <$> ·) hok, haccepts, hsaved a ▸ hreads⟩
  · exact .inr ⟨cause, congrArg (f <$> ·) herror, hleftmost⟩

variable {decode : String → Except Error α} (hdecode : format.DecodedBy saved decode)
  {text : String}

include hdecode

theorem exists_ok_iff :
    (∃ a, decode text = .ok a) ↔ format.Accepts (Text.tokens text.toList) := by
  rcases hdecode text with ⟨a, hok, haccepts, -⟩ | ⟨cause, herror, hleftmost⟩
  · exact ⟨fun _ => haccepts, fun _ => ⟨a, hok⟩⟩
  · refine ⟨fun ⟨a, hok⟩ => ?_, fun haccepts => absurd hleftmost (haccepts.not_leftmost cause)⟩
    rw [herror] at hok
    cases hok

theorem reads {a : α} (hok : decode text = .ok a) :
    (Text.tokens text.toList).map Decimal.read? = (saved a).map some := by
  rcases hdecode text with ⟨b, hb, -, hreads⟩ | ⟨cause, herror, -⟩
  · obtain rfl : a = b := Except.ok.inj (hok.symm.trans hb)
    exact hreads
  · rw [herror] at hok
    cases hok

theorem eq_error_iff {cause : Error} :
    decode text = .error cause ↔ format.Leftmost (Text.tokens text.toList) cause := by
  rcases hdecode text with ⟨a, hok, haccepts, -⟩ | ⟨found, herror, hfound⟩
  · refine ⟨fun herror => ?_, fun hleftmost => absurd hleftmost (haccepts.not_leftmost cause)⟩
    rw [hok] at herror
    cases herror
  · rw [herror]
    exact ⟨fun hsame => Except.error.inj hsame ▸ hfound, fun hleftmost =>
      congrArg Except.error (hfound.unique hleftmost)⟩

theorem spec (text : String) :
    ((∃ a, decode text = .ok a) ↔ format.Accepts (Text.tokens text.toList)) ∧
      (∀ a, decode text = .ok a →
        (Text.tokens text.toList).map Decimal.read? = (saved a).map some) ∧
      ∀ cause, decode text = .error cause ↔ format.Leftmost (Text.tokens text.toList) cause :=
  ⟨hdecode.exists_ok_iff, fun _ => hdecode.reads, fun _ => hdecode.eq_error_iff⟩

end DecodedBy

end

end Format

end Keystream.Text
