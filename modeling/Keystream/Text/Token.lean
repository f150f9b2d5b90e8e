/-!
# Tokens

A text is cut into its tokens, the maximal runs of characters that are not blank. Blank are those
with the Unicode property `White_Space`. The cut is built from the last character to the first, so
that adding one character in front changes at most the first token.
-/

namespace Keystream.Text

/-- The code points with the property `White_Space`, as closed ranges. -/
def blankRanges : List (Nat × Nat) :=
  [(0x09, 0x0D), (0x20, 0x20), (0x85, 0x85), (0xA0, 0xA0), (0x1680, 0x1680), (0x2000, 0x200A),
    (0x2028, 0x2029), (0x202F, 0x202F), (0x205F, 0x205F), (0x3000, 0x3000)]

def isBlank (c : Char) : Bool :=
  blankRanges.any fun range => range.1 ≤ c.toNat && c.toNat ≤ range.2

/-- A text cut at its blanks. -/
structure Cut where
  /-- The run at the front of the text, empty if the text starts with a blank. -/
  front : List Char
  later : List (List Char)

namespace Cut

def tokens (cut : Cut) : List (List Char) :=
  if cut.front.isEmpty then cut.later else cut.front :: cut.later

def cons (c : Char) (cut : Cut) : Cut :=
  if isBlank c then ⟨[], cut.tokens⟩ else ⟨c :: cut.front, cut.later⟩

end Cut

def tokens (text : List Char) : List (List Char) :=
  (text.foldr Cut.cons ⟨[], []⟩).tokens

end Keystream.Text
