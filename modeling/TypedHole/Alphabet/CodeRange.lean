/-! Sets of characters given by ranges of their code points. -/
namespace TypedHole
namespace Alphabet

/-- Every `step`-th code point from `first` to `last`. -/
structure CodeRange where
  first : Nat
  last : Nat
  step : Nat

namespace CodeRange

def holds (r : CodeRange) (c : Char) : Bool :=
  r.first ≤ c.toNat && c.toNat ≤ r.last && (c.toNat - r.first) % r.step == 0

@[simp] theorem holds_eq_true (r : CodeRange) (c : Char) :
    r.holds c = true ↔ r.first ≤ c.toNat ∧ c.toNat ≤ r.last ∧ (c.toNat - r.first) % r.step = 0 := by
  simp [holds,and_assoc]

end CodeRange
end Alphabet
end TypedHole
