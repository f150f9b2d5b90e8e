import Keystream.Text.Reader
import Mathlib.Data.List.Nodup

/-!
# Formats and their faults

A format says what the tokens of a saved state have to be: how many there are, that each is a
number, which numbers have a limit, and from which place on no number may come twice. The tokens of
a text are then faulty at some places or at none. What is wrong at a place depends on the token
there and on the tokens before it, so the first place at which anything is wrong decides why a text
is refused. The tokens with no fault at all are those in the format.
-/

namespace Keystream.Text

/-- The number that the token at a place spells, if there is one. -/
def valueAt? (tokens : List (List Char)) (place : Nat) : Option Nat :=
  tokens[place]?.bind Decimal.read?

/-- What a saved state has to consist of. -/
structure Format where
  count : Nat
  /-- What the value at a place has to be below, if anything. -/
  limit? : Nat → Option Nat
  /-- The values from this place on differ from one another. -/
  distinctFrom : Nat

namespace Format

variable (format : Format) (tokens : List (List Char))

/-- What is wrong with a token at a place that a value should stand in. -/
def faultOf? (place : Nat) (token : List Char) : Option Error :=
  match Decimal.read? token with
  | none => some (.notANumber place (String.ofList token))
  | some value =>
      match (format.limit? place).filter (· ≤ value) with
      | some limit => some (.notBelow place value limit)
      | none =>
          if some value ∈ ((tokens.map Decimal.read?).take place).drop format.distinctFrom then
            some (.repeatedEntry value)
          else
            none

def fault? (place : Nat) : Option Error :=
  match tokens[place]? with
  | none => if place < format.count then some (.endsEarly format.count tokens.length) else none
  | some token =>
      if place < format.count then format.faultOf? tokens place token
      else some (.goesOn format.count)

def FaultlessTo (place : Nat) : Prop :=
  ∀ earlier < place, format.fault? tokens earlier = none

instance (place : Nat) : Decidable (format.FaultlessTo tokens place) :=
  inferInstanceAs (Decidable (∀ earlier < place, format.fault? tokens earlier = none))

/-- The cause is what is wrong at the first place at which anything is. -/
def Leftmost (cause : Error) : Prop :=
  ∃ place, format.fault? tokens place = some cause ∧ format.FaultlessTo tokens place

structure Accepts : Prop where
  length_eq : tokens.length = format.count
  value : ∀ place < format.count, ∃ value, valueAt? tokens place = some value ∧
    ∀ limit, format.limit? place = some limit → value < limit
  nodup : ((tokens.map Decimal.read?).drop format.distinctFrom).Nodup

variable {format tokens}

theorem Leftmost.unique {cause other : Error} (hcause : format.Leftmost tokens cause)
    (hother : format.Leftmost tokens other) : cause = other := by
  obtain ⟨place, hfault, hbefore⟩ := hcause
  obtain ⟨second, hsecond, hbeforeSecond⟩ := hother
  rcases Nat.lt_trichotomy place second with hlt | rfl | hlt
  · rw [hbeforeSecond place hlt] at hfault
    cases hfault
  · exact Option.some.inj (hfault.symm.trans hsecond)
  · rw [hbefore second hlt] at hsecond
    cases hsecond

/-! ### One place -/

section

variable {place value : Nat} {token : List Char}

theorem fault?_of_none (hplace : place < format.count) (htoken : tokens[place]? = none) :
    format.fault? tokens place = some (.endsEarly format.count tokens.length) := by
  simp only [fault?, htoken, if_pos hplace]

theorem fault?_of_some (hplace : place < format.count) (htoken : tokens[place]? = some token) :
    format.fault? tokens place = format.faultOf? tokens place token := by
  simp only [fault?, htoken, if_pos hplace]

theorem fault?_of_ge (hplace : format.count ≤ place) (htoken : tokens[place]? = some token) :
    format.fault? tokens place = some (.goesOn format.count) := by
  simp only [fault?, htoken, if_neg (Nat.not_lt.2 hplace)]

theorem fault?_of_end (hplace : format.count ≤ place) (htoken : tokens[place]? = none) :
    format.fault? tokens place = none := by
  simp only [fault?, htoken, if_neg (Nat.not_lt.2 hplace)]

theorem faultOf?_of_not_number (hread : Decimal.read? token = none) :
    format.faultOf? tokens place token = some (.notANumber place (String.ofList token)) := by
  simp only [faultOf?, hread]

theorem faultOf?_of_limit_le {limit : Nat} (hread : Decimal.read? token = some value)
    (hlimit : format.limit? place = some limit) (hle : limit ≤ value) :
    format.faultOf? tokens place token = some (.notBelow place value limit) := by
  simp only [faultOf?, hread, hlimit, Option.filter_some, decide_eq_true hle, if_true]

theorem faultOf?_of_below (hread : Decimal.read? token = some value)
    (hbelow : ∀ limit, format.limit? place = some limit → value < limit) :
    format.faultOf? tokens place token =
      if some value ∈ ((tokens.map Decimal.read?).take place).drop format.distinctFrom then
        some (.repeatedEntry value)
      else
        none := by
  have hfilter : (format.limit? place).filter (· ≤ value) = none := by
    rw [Option.filter_eq_none_iff]
    intro limit hlimit
    simpa using hbelow limit hlimit
  simp only [faultOf?, hread, hfilter]

theorem faultOf?_eq_none :
    format.faultOf? tokens place token = none ↔
      ∃ value, Decimal.read? token = some value ∧
        (∀ limit, format.limit? place = some limit → value < limit) ∧
        some value ∉ ((tokens.map Decimal.read?).take place).drop format.distinctFrom := by
  rcases hread : Decimal.read? token with _ | value
  · simp [faultOf?_of_not_number hread]
  · by_cases hbelow : ∀ limit, format.limit? place = some limit → value < limit
    · rw [faultOf?_of_below hread hbelow]
      simpa using fun _ => hbelow
    · obtain ⟨limit, hlimit, hle⟩ : ∃ limit, format.limit? place = some limit ∧ limit ≤ value := by
        simpa using hbelow
      rw [faultOf?_of_limit_le hread hlimit hle]
      simp [hbelow]

end

/-! ### The leftmost fault -/

theorem FaultlessTo.mono {place later : Nat} (hlater : format.FaultlessTo tokens later)
    (hle : place ≤ later) : format.FaultlessTo tokens place :=
  fun earlier hlt => hlater earlier (Nat.lt_of_lt_of_le hlt hle)

theorem leftmost_iff {cause : Error} :
    format.Leftmost tokens cause ↔
      (∃ place token, place < format.count ∧ tokens[place]? = some token ∧
          format.FaultlessTo tokens place ∧ format.faultOf? tokens place token = some cause) ∨
        (tokens.length < format.count ∧ format.FaultlessTo tokens tokens.length ∧
          cause = .endsEarly format.count tokens.length) ∨
        (format.count < tokens.length ∧ format.FaultlessTo tokens format.count ∧
          cause = .goesOn format.count) := by
  constructor
  · intro ⟨place, hfault, hbefore⟩
    rcases Nat.lt_or_ge place format.count with hplace | hplace <;>
      rcases htoken : tokens[place]? with _ | token
    · rw [fault?_of_none hplace htoken] at hfault
      have hend := List.getElem?_eq_none_iff.1 htoken
      exact .inr (.inl ⟨Nat.lt_of_le_of_lt hend hplace, hbefore.mono hend,
        (Option.some.inj hfault).symm⟩)
    · rw [fault?_of_some hplace htoken] at hfault
      exact .inl ⟨place, token, hplace, htoken, hbefore, hfault⟩
    · rw [fault?_of_end hplace htoken] at hfault
      cases hfault
    · rw [fault?_of_ge hplace htoken] at hfault
      obtain ⟨hinside, -⟩ := List.getElem?_eq_some_iff.1 htoken
      exact .inr (.inr ⟨Nat.lt_of_le_of_lt hplace hinside, hbefore.mono hplace,
        (Option.some.inj hfault).symm⟩)
  · rintro (⟨place, token, hplace, htoken, hbefore, hfault⟩ | ⟨hfew, hbefore, rfl⟩ |
      ⟨hmany, hbefore, rfl⟩)
    · exact ⟨place, (fault?_of_some hplace htoken).trans hfault, hbefore⟩
    · exact ⟨tokens.length, fault?_of_none hfew (List.getElem?_eq_none (Nat.le_refl _)), hbefore⟩
    · exact ⟨format.count, fault?_of_ge (Nat.le_refl _) (List.getElem?_eq_getElem hmany), hbefore⟩

/-! ### All places -/

theorem nodup_iff_notMem_take {α : Type} {items : List α} :
    items.Nodup ↔ ∀ place item, items[place]? = some item → item ∉ items.take place := by
  rw [List.nodup_iff_getElem?_ne_getElem?]
  constructor
  · intro hne place item hitem hmem
    obtain ⟨earlier, hearlier⟩ := List.mem_iff_getElem?.1 hmem
    obtain ⟨hplace, -⟩ := List.getElem?_eq_some_iff.1 hitem
    rw [List.getElem?_take] at hearlier
    split at hearlier
    · rename_i hlt
      exact hne earlier place hlt hplace (hearlier.trans hitem.symm)
    · cases hearlier
  · intro hnotMem earlier place hlt hplace hsame
    have hitem := List.getElem?_eq_getElem hplace
    apply hnotMem place _ hitem
    refine List.mem_iff_getElem?.2 ⟨earlier, ?_⟩
    rw [List.getElem?_take_of_lt hlt, hsame, hitem]

theorem nodup_drop_iff {values : List (Option Nat)} {start : Nat} :
    (values.drop start).Nodup ↔
      ∀ place value, values[place]? = some value → value ∉ (values.take place).drop start := by
  rw [nodup_iff_notMem_take]
  simp only [List.getElem?_drop, List.drop_take]
  constructor
  · intro hnotMem place value hvalue
    rcases Nat.lt_or_ge place start with hbefore | hfrom
    · simp [Nat.sub_eq_zero_of_le (Nat.le_of_lt hbefore)]
    · exact hnotMem (place - start) value (by rw [Nat.add_sub_cancel' hfrom, hvalue])
  · intro hnotMem place value hvalue
    have hlater := hnotMem (start + place) value hvalue
    rwa [Nat.add_sub_cancel_left] at hlater

theorem getElem?_map_read? {place : Nat} {token : List Char}
    (htoken : tokens[place]? = some token) :
    (tokens.map Decimal.read?)[place]? = some (Decimal.read? token) := by
  rw [List.getElem?_map, htoken, Option.map_some]

theorem valueAt?_eq_some {place value : Nat} :
    valueAt? tokens place = some value ↔
      ∃ token, tokens[place]? = some token ∧ Decimal.read? token = some value :=
  Option.bind_eq_some_iff

theorem Accepts.fault?_eq_none (haccepts : format.Accepts tokens) (place : Nat) :
    format.fault? tokens place = none := by
  rcases Nat.lt_or_ge place format.count with hplace | hend
  · obtain ⟨value, hvalue, hbelow⟩ := haccepts.value place hplace
    obtain ⟨token, htoken, hread⟩ := valueAt?_eq_some.1 hvalue
    rw [fault?_of_some hplace htoken, faultOf?_eq_none]
    refine ⟨value, hread, hbelow, ?_⟩
    exact nodup_drop_iff.1 haccepts.nodup place _ (hread ▸ getElem?_map_read? htoken)
  · exact fault?_of_end hend (List.getElem?_eq_none (haccepts.length_eq ▸ hend))

theorem length_eq_of_fault?_eq_none (hnone : ∀ place, format.fault? tokens place = none) :
    tokens.length = format.count := by
  rcases Nat.lt_trichotomy tokens.length format.count with hfew | heq | hmany
  · have hfault := hnone tokens.length
    rw [fault?_of_none hfew (List.getElem?_eq_none (Nat.le_refl _))] at hfault
    cases hfault
  · exact heq
  · have hfault := hnone format.count
    rw [fault?_of_ge (Nat.le_refl _) (List.getElem?_eq_getElem hmany)] at hfault
    cases hfault

theorem accepts_iff : format.Accepts tokens ↔ ∀ place, format.fault? tokens place = none := by
  refine ⟨Accepts.fault?_eq_none, fun hnone => ?_⟩
  have hlength := length_eq_of_fault?_eq_none hnone
  have hplain : ∀ {place token}, tokens[place]? = some token →
      format.faultOf? tokens place token = none := by
    intro place token htoken
    obtain ⟨hplace, -⟩ := List.getElem?_eq_some_iff.1 htoken
    rw [← fault?_of_some (hlength ▸ hplace) htoken]
    exact hnone place
  refine ⟨hlength, ?_, ?_⟩
  · intro place hplace
    have htoken := List.getElem?_eq_getElem (hlength ▸ hplace)
    obtain ⟨value, hread, hbelow, -⟩ := faultOf?_eq_none.1 (hplain htoken)
    exact ⟨value, valueAt?_eq_some.2 ⟨_, htoken, hread⟩, hbelow⟩
  · refine nodup_drop_iff.2 fun place read hread => ?_
    rw [List.getElem?_map, Option.map_eq_some_iff] at hread
    obtain ⟨token, htoken, rfl⟩ := hread
    obtain ⟨value, hread, -, hnew⟩ := faultOf?_eq_none.1 (hplain htoken)
    rwa [hread]

theorem Accepts.not_leftmost (haccepts : format.Accepts tokens) (cause : Error) :
    ¬ format.Leftmost tokens cause := by
  intro ⟨place, hfault, _⟩
  rw [haccepts.fault?_eq_none] at hfault
  cases hfault

end Format

end Keystream.Text
