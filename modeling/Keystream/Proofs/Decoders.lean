import Keystream.Proofs.Arc4.Decode
import Keystream.Proofs.ChaCha.Saved
import Keystream.Proofs.SplitMix

/-!
# The decoders

Three decoders read saved engines. Each accepts the texts in its format, with the engine that the
numbers of the text stand for, and refuses any other text for the leftmost thing that is wrong with
it. An engine is restored from its own text; a ChaCha engine may then keep another block, which no
call can tell. An engine that has been decoded is saved as the text that it was decoded from, made
plain.
-/

namespace Keystream

open Text Text.Format

namespace Arc4

theorem accepts_format_iff {size : Nat} {tokens : List (List Char)} :
    (format size).Accepts tokens ↔
      tokens.length = size + 2 ∧
        (∀ place < size + 2, ∃ value < size, valueAt? tokens place = some value) ∧
        ((tokens.map Decimal.read?).drop 2).Nodup := by
  constructor
  · intro ⟨hlength, hvalue, hnodup⟩
    refine ⟨hlength, fun place hplace => ?_, hnodup⟩
    obtain ⟨value, hat, hlimit⟩ := hvalue place hplace
    exact ⟨value, hlimit size rfl, hat⟩
  · intro ⟨hlength, hvalue, hnodup⟩
    refine ⟨hlength, fun place hplace => ?_, hnodup⟩
    obtain ⟨value, hlt, hat⟩ := hvalue place hplace
    refine ⟨value, hat, fun limit hlimit => ?_⟩
    rwa [← Option.some.inj hlimit]

theorem decode_eq_decodeWithSize {shape : Shape} (text : String) :
    (decode text : Except Error (Arc4 shape)) = decodeWithSize shape.fullSize text :=
  (decodeWithSize_eq shape.supports_fullSize text).symm

end Arc4

theorem ChaCha.accepts_format_iff {tokens : List (List Char)} :
    ChaCha.format.Accepts tokens ↔
      tokens.length = 9 ∧
        ∀ place < 9, ∃ value, valueAt? tokens place = some value ∧
          (place < 8 → value < UInt32.size) := by
  constructor
  · intro ⟨hlength, hvalue, _⟩
    refine ⟨hlength, fun place hplace => ?_⟩
    obtain ⟨value, hat, hlimit⟩ := hvalue place hplace
    exact ⟨value, hat, fun hword => hlimit _ (if_pos hword)⟩
  · intro ⟨hlength, hvalue⟩
    refine ⟨hlength, fun place hplace => ?_, ?_⟩
    · obtain ⟨value, hat, hlt⟩ := hvalue place hplace
      refine ⟨value, hat, fun limit hlimit => ?_⟩
      obtain ⟨hword, rfl⟩ : place < 8 ∧ UInt32.size = limit := by simpa [format] using hlimit
      exact hlt hword
    · rw [List.drop_eq_nil_of_le (by simpa [format] using Nat.le_of_eq hlength)]
      exact List.nodup_nil

theorem SplitMix.accepts_format_iff {tokens : List (List Char)} :
    SplitMix.format.Accepts tokens ↔
      ∃ token value, tokens = [token] ∧ Decimal.read? token = some value := by
  constructor
  · intro ⟨hlength, hvalue, _⟩
    obtain ⟨token, rfl⟩ := List.length_eq_one_iff.1 hlength
    obtain ⟨value, hat, _⟩ := hvalue 0 Nat.zero_lt_one
    exact ⟨token, value, rfl, hat⟩
  · intro ⟨token, value, htokens, hread⟩
    subst htokens
    refine ⟨rfl, fun place hplace => ?_, List.nodup_nil⟩
    obtain rfl : place = 0 := Nat.lt_one_iff.1 hplace
    exact ⟨value, hread, fun limit hlimit => by cases hlimit⟩

/-- **The decoders accept exactly their formats and report the leftmost fault.** A table is two
cursors and distinct entries below the size, a ChaCha engine eight words and a position, and a
SplitMix engine a single number. -/
theorem decoders_exact (text : String) :
    let tokens := Text.tokens text.toList
    (∀ (shape : Arc4.Shape) (size : Nat), shape.Supports size →
      ((∃ s : Arc4 shape, Arc4.decodeWithSize size text = .ok s) ↔
        tokens.length = size + 2 ∧
          (∀ place < size + 2, ∃ value < size, valueAt? tokens place = some value) ∧
          ((tokens.map Decimal.read?).drop 2).Nodup) ∧
      (∀ s : Arc4 shape, Arc4.decodeWithSize size text = .ok s →
        tokens.map Decimal.read? = s.savedValues.map some) ∧
      ∀ cause, (Arc4.decodeWithSize size text : Except Error (Arc4 shape)) = .error cause ↔
        (Arc4.format size).Leftmost tokens cause) ∧
    (∀ shape : Arc4.Shape, (Arc4.decode text : Except Error (Arc4 shape)) =
      Arc4.decodeWithSize shape.fullSize text) ∧
    (∀ rounds : Nat,
      ((∃ s : ChaCha rounds, ChaCha.decode text = .ok s) ↔
        tokens.length = 9 ∧
          ∀ place < 9, ∃ value, valueAt? tokens place = some value ∧
            (place < 8 → value < UInt32.size)) ∧
      (∀ s : ChaCha rounds, ChaCha.decode text = .ok s →
        tokens.map Decimal.read? = s.savedValues.map some) ∧
      ∀ cause, (ChaCha.decode text : Except Error (ChaCha rounds)) = .error cause ↔
        ChaCha.format.Leftmost tokens cause) ∧
    ((∃ s, SplitMix.decode text = .ok s) ↔
      ∃ token value, tokens = [token] ∧ Decimal.read? token = some value) ∧
    (∀ s, SplitMix.decode text = .ok s → tokens.map Decimal.read? = [some s.state.toNat]) ∧
    ∀ cause, SplitMix.decode text = .error cause ↔ SplitMix.format.Leftmost tokens cause := by
  intro tokens
  refine ⟨fun shape size hsize => ?_, fun shape => Arc4.decode_eq_decodeWithSize text,
    fun rounds => ?_, ?_⟩
  · rw [Arc4.decodeWithSize_eq hsize, ← Arc4.accepts_format_iff]
    exact (Arc4.decodedBy_decodeSized hsize).spec text
  · rw [← ChaCha.accepts_format_iff]
    exact ChaCha.decodedBy_decode.spec text
  · rw [← SplitMix.accepts_format_iff]
    exact SplitMix.decodedBy_decode.spec text

/-- Each of the refused texts has faults behind the one that is reported. -/
theorem decoders_exact_at_faults :
    (∃ s : Arc4 .bytes32, Arc4.decodeWithSize 3 "\t1 +2 2 00\u00A01 " = .ok s) ∧
      (Arc4.decodeWithSize 3 "0 0 2 1 +02 x" : Except Error (Arc4 .bytes32)) =
        .error (.repeatedEntry 2) ∧
      (ChaCha.decode "1 2 4294967296 - 5" : Except Error (ChaCha 20)) =
        .error (.notBelow 2 4294967296 4294967296) ∧
      SplitMix.decode "18446744073709551615 x" = .error (.goesOn 1) := by
  refine ⟨?_, ?_, ?_, ?_⟩
  · exact ((decoders_exact _).1 .bytes32 3 (by decide)).1.2
      ⟨by decide +kernel, by decide +kernel, by decide +kernel⟩
  · exact (((decoders_exact _).1 .bytes32 3 (by decide)).2.2 _).2
      ⟨4, by decide +kernel, by decide +kernel⟩
  · exact (((decoders_exact _).2.2.1 20).2.2 _).2 ⟨2, by decide +kernel, by decide +kernel⟩
  · exact ((decoders_exact _).2.2.2.2.2 _).2 ⟨1, by decide +kernel, by decide +kernel⟩

/-- **Engines are restored from their texts.** A ChaCha engine is restored as an equal one that no
calls tell from it, and a SplitMix engine as it was. An engine decoded from any text is saved as
that text made plain. -/
theorem restored_from_text :
    (∀ {adapter : Adapter}, adapter.Lawful →
      ∀ {rounds : Nat} {origin : ChaCha.Origin} {first : ChaCha rounds},
      origin.engine = .ok first → ∀ calls : List ChaCha.Call,
        let s := (ChaCha.answers adapter calls first).2
        let t : ChaCha rounds := ChaCha.ofKey s.key s.position
        ChaCha.decode s.encode = .ok t ∧ (t == s) = true ∧ ChaCha.Alike adapter t s) ∧
      (∀ {rounds : Nat} {text : String} {s : ChaCha rounds}, ChaCha.decode text = .ok s →
        s.encode = String.ofList (plainText text.toList) ∧ ChaCha.decode s.encode = .ok s) ∧
      (∀ s : SplitMix, SplitMix.decode s.encode = .ok s) ∧
      ∀ {text : String} {s : SplitMix}, SplitMix.decode text = .ok s →
        s.encode = String.ofList (plainText text.toList) ∧ SplitMix.decode s.encode = .ok s := by
  refine ⟨?_, ?_, SplitMix.decode_encode, ?_⟩
  · intro adapter hadapter rounds origin first hengine calls s t
    have hs : s.Current := ChaCha.Origin.current_answers hadapter hengine calls
    exact ⟨s.decode_encode, hs.same_ofKey.beq, hs.same_ofKey.alike hadapter⟩
  · intro rounds text s hdecode
    refine ⟨congrArg String.ofList (ChaCha.decodedBy_decode.writeNumbers_saved hdecode), ?_⟩
    rw [s.decode_encode, ← ChaCha.eq_ofKey_of_decode hdecode]
  · intro text s hdecode
    exact ⟨congrArg String.ofList (SplitMix.decodedBy_decode.writeNumbers_saved hdecode),
      s.decode_encode⟩

/-- At the start of a block the engine still keeps the block before, which is not restored. -/
theorem restored_from_text_at_block_start :
    (let s := (ChaCha.answers .lowFirst [.move .next, .move (.discard 15)]
        (ChaCha.ofSeed 7 0 : ChaCha 8)).2
      let t : ChaCha 8 := ChaCha.ofKey s.key s.position
      ChaCha.decode s.encode = .ok t ∧ t.block.get 0 ≠ s.block.get 0 ∧
        ChaCha.Alike .lowFirst t s) ∧
      (∃ s : ChaCha 8, ChaCha.decode "+1 02 3 4 5 6 7 8\u30009" = .ok s ∧
        s.encode = String.ofList "1 2 3 4 5 6 7 8 9".toList) ∧
      (⟨7⟩ : SplitMix).encode = String.ofList "7".toList := by
  refine ⟨?_, ?_, ?_⟩
  · intro s t
    obtain ⟨hdecode, -, halike⟩ := restored_from_text.1 Adapter.lawful_lowFirst
      (rfl : (ChaCha.Origin.seeded 7 0).engine = .ok (ChaCha.ofSeed 7 0)) _
    exact ⟨hdecode, by decide +kernel, halike⟩
  · have haccepts : ChaCha.format.Accepts (tokens "+1 02 3 4 5 6 7 8\u30009".toList) :=
      ChaCha.accepts_format_iff.2 ⟨by decide +kernel, by decide +kernel⟩
    obtain ⟨s, hdecode⟩ := ChaCha.decodedBy_decode.exists_ok_iff.2 haccepts
    exact ⟨s, hdecode, (restored_from_text.2.1 hdecode).1⟩
  · exact (restored_from_text.2.2.2 (rfl : SplitMix.decode "\t+007\u3000" = .ok ⟨7⟩)).1

end Keystream
