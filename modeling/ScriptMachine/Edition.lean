/-!
# Editions of the instruction set

Each protocol upgrade fixes an instruction set and its limits.
-/

namespace ScriptMachine

inductive Edition
  /-- Short items and numbers, and a limit on operations. -/
  | y2023
  /-- Long items and numbers, and budgets that grow with the input. -/
  | y2025
  /-- The rules of 2025, and loops. -/
  | y2026
  deriving DecidableEq, Repr, Inhabited

namespace Edition

def hasLoops : Edition → Bool
  | y2026 => true
  | _ => false

def ofLabel? : String → Option Edition
  | "2023" | "bch_2023" => some y2023
  | "2025" | "bch_2025" => some y2025
  | "2026" | "bch_2026" => some y2026
  | _ => none

def name : Edition → String
  | y2023 => "BCH_2023"
  | y2025 => "BCH_2025"
  | y2026 => "BCH_2026"

end Edition

end ScriptMachine
