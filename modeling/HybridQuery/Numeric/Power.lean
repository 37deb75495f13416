/-!
# Powers

The powers by which numbers are scaled and bounded.
-/

namespace HybridQuery.Power

/-- Two to the power of `n`. -/
def two (n : Nat) : Nat := Nat.pow 2 n

/-- Five to the power of `n`. -/
def five (n : Nat) : Nat := Nat.pow 5 n

/-- Ten to the power of `n`. -/
def ten (n : Nat) : Nat := Nat.pow 10 n

end HybridQuery.Power
