import Keystream.Proofs.Text.Follows
import Keystream.Proofs.Text.Plain
import Keystream.Proofs.Text.Tokens

/-!
# Restored states

A state is saved as numbers. If these fit the format that a decoder accepts, the decoder restores a
state with the same numbers, and so the same state as far as its numbers determine it. Conversely a
state that has been decoded from any text is saved as that text made plain.
-/

namespace Keystream.Text.Format

structure Fits (format : Format) (values : List Nat) : Prop where
  length_eq : values.length = format.count
  lt_size : ∀ value ∈ values, value < UInt64.size
  lt_limit : ∀ place value, values[place]? = some value →
    ∀ limit, format.limit? place = some limit → value < limit
  nodup : (values.drop format.distinctFrom).Nodup

variable {format : Format} {values : List Nat}

section

variable {tokens : List (List Char)} (hreads : tokens.map Decimal.read? = values.map some)

include hreads

theorem length_eq_of_reads : tokens.length = values.length := by
  rw [← List.length_map Decimal.read?, hreads, List.length_map]

theorem valueAt?_of_reads (place : Nat) : valueAt? tokens place = values[place]? := by
  have hread : tokens[place]?.map Decimal.read? = values[place]?.map some := by
    rw [← List.getElem?_map, hreads, List.getElem?_map]
  have hjoin := congrArg (Option.bind · id) hread
  simp only [Option.bind_map] at hjoin
  exact hjoin.trans (Option.bind_fun_some _)

theorem fits_iff_accepts : format.Fits values ↔ format.Accepts tokens := by
  have hlength := length_eq_of_reads hreads
  have hnodup : ((tokens.map Decimal.read?).drop format.distinctFrom).Nodup ↔
      (values.drop format.distinctFrom).Nodup := by
    rw [hreads, ← List.map_drop, List.nodup_map_iff fun _ _ => Option.some.inj]
  constructor
  · intro hvalues
    refine ⟨hlength.trans hvalues.length_eq, fun place hplace => ?_, hnodup.2 hvalues.nodup⟩
    have hvalue := List.getElem?_eq_getElem (hvalues.length_eq ▸ hplace)
    exact ⟨_, (valueAt?_of_reads hreads place).trans hvalue, hvalues.lt_limit place _ hvalue⟩
  · intro haccepts
    refine ⟨hlength.symm.trans haccepts.length_eq, ?_, ?_, hnodup.1 haccepts.nodup⟩
    · intro value hmem
      obtain ⟨place, hvalue⟩ := List.mem_iff_getElem?.1 hmem
      rw [← valueAt?_of_reads hreads, valueAt?_eq_some] at hvalue
      obtain ⟨token, -, hread⟩ := hvalue
      exact (Decimal.extend?_of_read? hread).2
    · intro place value hvalue
      obtain ⟨hplace, -⟩ := List.getElem?_eq_some_iff.1 hvalue
      obtain ⟨found, hfound, hlimit⟩ :=
        haccepts.value place (haccepts.length_eq ▸ hlength.symm ▸ hplace)
      rw [valueAt?_of_reads hreads, hvalue] at hfound
      exact Option.some.inj hfound ▸ hlimit

end

namespace DecodedBy

variable {α : Type} {saved : α → List Nat} {decode : String → Except Error α}

/-- Numbers that fit the format are decoded from every text that spells them. -/
theorem exists_ok_of_fits (hdecode : format.DecodedBy saved decode) {text : String}
    (hvalues : format.Fits values)
    (hreads : (Text.tokens text.toList).map Decimal.read? = values.map some) :
    ∃ a, decode text = .ok a ∧ saved a = values := by
  obtain ⟨a, hok⟩ := hdecode.exists_ok_iff.2 ((fits_iff_accepts hreads).1 hvalues)
  have hsaved := (hdecode.reads hok).symm.trans hreads
  exact ⟨a, hok, (List.map_inj_right fun _ _ => Option.some.inj).1 hsaved⟩

theorem exists_ok_writeNumbers (hdecode : format.DecodedBy saved decode)
    (hvalues : format.Fits values) :
    ∃ a, decode (String.ofList (writeNumbers values)) = .ok a ∧ saved a = values := by
  apply hdecode.exists_ok_of_fits hvalues
  rw [String.toList_ofList]
  exact read?_tokens_writeNumbers hvalues.lt_size

theorem eq_ok_iff (hdecode : format.DecodedBy saved decode) (hsaved : Function.Injective saved)
    {text : String} {a : α} :
    decode text = .ok a ↔
      format.Fits (saved a) ∧ (Text.tokens text.toList).map Decimal.read? = (saved a).map some := by
  constructor
  · intro hok
    have hreads := hdecode.reads hok
    exact ⟨(fits_iff_accepts hreads).2 (hdecode.exists_ok_iff.1 ⟨a, hok⟩), hreads⟩
  · intro ⟨hvalues, hreads⟩
    obtain ⟨b, hok, hsame⟩ := hdecode.exists_ok_of_fits hvalues hreads
    rw [hok, hsaved hsame]

theorem writeNumbers_saved (hdecode : format.DecodedBy saved decode) {text : String} {a : α}
    (hok : decode text = .ok a) : writeNumbers (saved a) = plainText text.toList :=
  writeNumbers_of_reads (hdecode.reads hok)

end DecodedBy

end Keystream.Text.Format
