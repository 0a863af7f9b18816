import ScriptMachine.Text.Align

/-!
# Log messages

Messages have a level, and those below the least level asked for are dropped.
-/

namespace ScriptMachine.Command

inductive Level
  | info | warn | error
  deriving DecidableEq, Repr

namespace Level

def name : Level → String
  | info => "INFO"
  | warn => "WARN"
  | error => "ERROR"

def padded (l : Level) : String := Text.padRight 5 l.name

def rank : Level → Nat
  | info => 1
  | warn => 2
  | error => 3

/-- A message of this level is shown where `least` is the least level asked for. -/
def isEnabled (l least : Level) : Bool := decide (least.rank ≤ l.rank)

def line (l least : Level) (message : String) : String :=
  if l.isEnabled least then s!"[{l.padded}] {message}\n" else ""

end Level

end ScriptMachine.Command
