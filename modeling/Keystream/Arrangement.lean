import Keystream.Draw

/-!
# Arrangements

What an algorithm that rearranges items in place leaves behind: the items, the engine, and how it
ended. All three are there however it ended, so that an early end hides nothing.
-/

namespace Keystream

/-- Items and the engine that drew positions among them. -/
structure Arrangement (α σ : Type) where
  items : Array α
  engine : σ
  ended : Except Stop Unit

namespace Arrangement

variable {α σ : Type}

def finished (items : Array α) (engine : σ) : Arrangement α σ :=
  ⟨items, engine, .ok ()⟩

def stopped (items : Array α) (engine : σ) (reason : Stop) : Arrangement α σ :=
  ⟨items, engine, .error reason⟩

/-- The same end, with the items among others. -/
def among (before after : Array α) (a : Arrangement α σ) : Arrangement α σ :=
  { a with items := before ++ a.items ++ after }

end Arrangement

end Keystream
