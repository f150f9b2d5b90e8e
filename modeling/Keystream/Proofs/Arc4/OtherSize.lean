import Keystream.Proofs.Arc4.Decode
import Keystream.Proofs.Arc4.Saved

/-!
# Saved engines read at another size

The text of a saved engine does not say how large the table is. It is nevertheless restored at its
own size only. At a larger size the text ends too early. At a smaller one some number in it is too
large, or the first entries happen to be a table of that size and the text goes on behind them; no
number can be found to come twice, as the entries differ from one another.
-/

namespace Keystream.Arc4

open Text Text.Format

variable {shape : Shape} {s t : Arc4 shape} {other place : Nat} {cause : Error}

section

variable (hs : s.Valid) (hsize : shape.Supports s.size)

include hs hsize

theorem length_tokens_encode : (tokens s.encode.toList).length = s.size + 2 := by
  rw [length_eq_of_reads (read?_tokens_encode hs hsize), State.length_savedValues]

theorem valueAt?_encode (place : Nat) :
    valueAt? (tokens s.encode.toList) place = s.savedValues[place]? :=
  valueAt?_of_reads (read?_tokens_encode hs hsize) place

theorem nodup_entries_encode :
    (((tokens s.encode.toList).map Decimal.read?).drop 2).Nodup := by
  rw [read?_tokens_encode hs hsize]
  exact (hs.perm.nodup_iff.2 List.nodup_range).map fun _ _ => Option.some.inj

theorem faultOf?_encode {token : List Char}
    (htoken : (tokens s.encode.toList)[place]? = some token)
    (hfault : (format other).faultOf? (tokens s.encode.toList) place token = some cause) :
    ∃ value, s.savedValues[place]? = some value ∧ other ≤ value ∧
      cause = .notBelow place value other := by
  obtain ⟨value, hvalue⟩ : ∃ value, s.savedValues[place]? = some value := by
    obtain ⟨hinside, -⟩ := List.getElem?_eq_some_iff.1 htoken
    rw [length_tokens_encode hs hsize, ← State.length_savedValues] at hinside
    exact ⟨_, List.getElem?_eq_getElem hinside⟩
  have hread : Decimal.read? token = some value := by
    rw [← hvalue, ← valueAt?_encode hs hsize, valueAt?, htoken, Option.bind_some]
  rcases Nat.lt_or_ge value other with hlt | hle
  · have hnew := nodup_drop_iff.1 (nodup_entries_encode hs hsize) place (some value)
      (hread ▸ getElem?_map_read? htoken)
    have hbelow : ∀ limit, some other = some limit → value < limit :=
      fun limit hlimit => Option.some.inj hlimit ▸ hlt
    rw [faultOf?_eq_none.2 ⟨value, hread, hbelow, hnew⟩] at hfault
    cases hfault
  · rw [faultOf?_of_limit_le hread rfl hle] at hfault
    exact ⟨value, hvalue, hle, (Option.some.inj hfault).symm⟩

theorem lt_of_faultlessTo (hfaultless : (format other).FaultlessTo (tokens s.encode.toList) place)
    (hplace : place ≤ other + 2) : ∀ value ∈ s.savedValues.take place, value < other := by
  intro value hmem
  obtain ⟨earlier, hearlier⟩ := List.mem_iff_getElem?.1 hmem
  rw [List.getElem?_take] at hearlier
  split at hearlier
  · rename_i hlt
    rw [← valueAt?_encode hs hsize, valueAt?_eq_some] at hearlier
    obtain ⟨token, htoken, hvalue⟩ := hearlier
    have hnone := hfaultless earlier hlt
    rw [fault?_of_some (Nat.lt_of_lt_of_le hlt hplace) htoken] at hnone
    obtain ⟨found, hfound, hbelow, -⟩ := faultOf?_eq_none.1 hnone
    obtain rfl : value = found := Option.some.inj (hvalue.symm.trans hfound)
    exact hbelow other rfl
  · cases hearlier

theorem exists_leftmost_of_ne (hother : shape.Supports other) (hne : s.size ≠ other) :
    ∃ cause, (decodeWithSize other s.encode : Except Error (Arc4 shape)) = .error cause ∧
      (format other).Leftmost (tokens s.encode.toList) cause := by
  rw [decodeWithSize_eq hother]
  rcases hdecode : (decodeSized other s.encode : Except Error (Arc4 shape)) with cause | t
  · exact ⟨cause, rfl, (decodedBy_decodeSized hother).eq_error_iff.1 hdecode⟩
  · exact absurd ((decodeSized_encode_eq_ok hs hsize hother).1 hdecode).2 hne

end

theorem encode_injective (hs : s.Valid) (hsize : shape.Supports s.size) (ht : t.Valid)
    (hsizeOther : shape.Supports t.size) (hencode : s.encode = t.encode) : s = t := by
  have hs' := (decodeSized_encode_eq_ok hs hsize hsize).2 ⟨rfl, rfl⟩
  rw [hencode] at hs'
  exact ((decodeSized_encode_eq_ok ht hsizeOther hsize).1 hs').1

/-- **A saved engine is restored at its own size and at no other.** A larger size finds that the
text ends early, and a smaller one a number that is too large for it or that the text goes on. -/
theorem restored_at_own_size_only (hs : s.Valid) (hsize : shape.Supports s.size) :
    decodeWithSize s.size s.encode = .ok s ∧
      (s.size = shape.fullSize → decode s.encode = .ok s) ∧
      (∀ other, shape.Supports other → s.size < other →
        (decodeWithSize other s.encode : Except Error (Arc4 shape)) =
          .error (.endsEarly (other + 2) (s.size + 2))) ∧
      (∀ other, shape.Supports other → other < s.size →
        (∃ place < other + 2, ∃ value, s.savedValues[place]? = some value ∧ other ≤ value ∧
          (∀ earlier ∈ s.savedValues.take place, earlier < other) ∧
          (decodeWithSize other s.encode : Except Error (Arc4 shape)) =
            .error (.notBelow place value other)) ∨
        ((∀ earlier ∈ s.savedValues.take (other + 2), earlier < other) ∧
          (decodeWithSize other s.encode : Except Error (Arc4 shape)) =
            .error (.goesOn (other + 2)))) ∧
      ∀ t : Arc4 shape, t.Valid → shape.Supports t.size → t.encode = s.encode → t = s := by
  have hown : decodeSized s.size s.encode = .ok s :=
    (decodeSized_encode_eq_ok hs hsize hsize).2 ⟨rfl, rfl⟩
  have hlength := length_tokens_encode hs hsize
  refine ⟨?_, ?_, ?_, ?_, ?_⟩
  · rw [decodeWithSize_eq hsize, hown]
  · intro hfull
    rw [decode, ← hfull, hown]
  · intro other hother hlarger
    obtain ⟨cause, herror, hleftmost⟩ :=
      exists_leftmost_of_ne hs hsize hother (Nat.ne_of_lt hlarger)
    rcases leftmost_iff.1 hleftmost with
      ⟨place, token, -, htoken, -, hfault⟩ | ⟨-, -, rfl⟩ | ⟨hmany, -, -⟩
    · obtain ⟨value, hvalue, hle, -⟩ := faultOf?_encode hs hsize htoken hfault
      have hlt := hs.savedValues_lt value (List.mem_of_getElem? hvalue)
      exact absurd (Nat.lt_of_le_of_lt hle hlt) (Nat.lt_asymm hlarger)
    · rw [herror, hlength]
      rfl
    · have hsmaller : other + 2 < s.size + 2 := hlength ▸ hmany
      exact absurd (Nat.lt_of_add_lt_add_right hsmaller) (Nat.lt_asymm hlarger)
  · intro other hother hsmaller
    obtain ⟨cause, herror, hleftmost⟩ :=
      exists_leftmost_of_ne hs hsize hother (Nat.ne_of_gt hsmaller)
    rcases leftmost_iff.1 hleftmost with
      ⟨place, token, hplace, htoken, hbefore, hfault⟩ | ⟨hfew, -, -⟩ | ⟨-, hbefore, rfl⟩
    · obtain ⟨value, hvalue, hle, rfl⟩ := faultOf?_encode hs hsize htoken hfault
      have hbelow := lt_of_faultlessTo hs hsize hbefore (Nat.le_of_lt hplace)
      exact .inl ⟨place, hplace, value, hvalue, hle, hbelow, herror⟩
    · have hlarger : s.size + 2 < other + 2 := hlength ▸ hfew
      exact absurd (Nat.lt_of_add_lt_add_right hlarger) (Nat.lt_asymm hsmaller)
    · exact .inr ⟨lt_of_faultlessTo hs hsize hbefore (Nat.le_refl _), herror⟩
  · intro t ht hsizeOther hencode
    exact encode_injective ht hsizeOther hs hsize hencode

/-- The first two entries are a table of their own, and only the one behind them gives it away. -/
theorem restored_at_own_size_only_three :
    let s : Arc4 .bytes32 := ⟨⟨0, 1, #[1, 0, 2]⟩⟩
    decodeWithSize 3 s.encode = .ok s ∧
      (decodeWithSize 9 s.encode : Except Error (Arc4 .bytes32)) = .error (.endsEarly 11 5) ∧
      (decodeWithSize 2 s.encode : Except Error (Arc4 .bytes32)) = .error (.goesOn 4) := by
  intro s
  have hs : s.Valid := ⟨by decide, by decide, by decide⟩
  have hown := restored_at_own_size_only hs (by decide)
  refine ⟨hown.1, hown.2.2.1 9 (by decide) (by decide), ?_⟩
  rcases hown.2.2.2.1 2 (by decide) (by decide) with
    ⟨place, hplace, value, hvalue, hle, -⟩ | hgoesOn
  · have hmem : value ∈ s.savedValues.take 4 :=
      List.mem_iff_getElem?.2 ⟨place, (List.getElem?_take_of_lt hplace).trans hvalue⟩
    have hbelow : ∀ value ∈ s.savedValues.take 4, value < 2 := by decide
    exact absurd (hbelow value hmem) (Nat.not_lt.2 hle)
  · exact hgoesOn.2

end Keystream.Arc4
