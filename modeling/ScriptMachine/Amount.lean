/-!
# Saturating amounts

Costs and counters are 64-bit amounts. Arithmetic on them never wraps: a result that would pass the
largest amount stays there.
-/

namespace ScriptMachine.Amount

/-- The largest amount. As a limit it means that there is none. -/
def top : Nat := UInt64.size - 1

def add (a b : Nat) : Nat := min (a + b) top

def mul (a b : Nat) : Nat := min (a * b) top

theorem add_le_top (a b : Nat) : add a b ≤ top := Nat.min_le_right _ _

end ScriptMachine.Amount
