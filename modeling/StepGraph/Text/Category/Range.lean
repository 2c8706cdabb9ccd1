/-! Classes of characters given as inclusive ranges of code points. -/
set_option autoImplicit false

namespace StepGraph.Text

def within (ranges : List (Nat × Nat)) (c : Char) : Bool :=
  ranges.any fun r => r.1 ≤ c.toNat && c.toNat ≤ r.2

end StepGraph.Text
