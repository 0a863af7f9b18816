import ScriptMachine.Amount
import ScriptMachine.Edition

/-!
# Policy

The limits and costs that an evaluation is held to. They differ between editions, and between
standard rules and the laxer ones of consensus.
-/

namespace ScriptMachine

structure Limits where
  bytecodeLength : Nat
  itemLength : Nat
  /-- Items on both stacks together. -/
  stackDepth : Nat
  controlDepth : Option Nat
  numberLength : Nat
  /-- Opcodes that do more than push. -/
  operationCount : Option Nat
  deriving DecidableEq, Repr

structure Ratio where
  numerator : Nat
  denominator : Nat
  deriving DecidableEq, Repr

structure Costs where
  baseInstruction : Nat
  pushedByte : Nat
  arithmeticByte : Nat
  hashIterationStandard : Nat
  hashIterationNonstandard : Nat
  signatureCheck : Nat
  repeatedByte : Nat
  /-- Cost allowed for each byte of density; without it no budget applies. -/
  perDensityByte : Option Nat
  hashRatioStandard : Ratio
  hashRatioNonstandard : Ratio
  /-- Signature checks are allowed up to `(density + offset) / divisor`. -/
  signatureOffset : Nat
  signatureDivisor : Nat
  deriving DecidableEq, Repr

structure Policy where
  edition : Edition
  limits : Limits
  costs : Costs
  /-- Standard rules charge more for hashing and refuse opcodes kept for later editions. -/
  standard : Bool
  deriving DecidableEq, Repr

def Limits.y2023 : Limits where
  bytecodeLength := 10000
  itemLength := 520
  stackDepth := 1000
  controlDepth := none
  numberLength := 8
  operationCount := some 201

def Limits.y2025 : Limits where
  bytecodeLength := 10000
  itemLength := 10000
  stackDepth := 1000
  controlDepth := some 100
  numberLength := 10000
  operationCount := none

def Costs.y2025 : Costs where
  baseInstruction := 100
  pushedByte := 1
  arithmeticByte := 1
  hashIterationStandard := 192
  hashIterationNonstandard := 64
  signatureCheck := 26000
  repeatedByte := 1
  perDensityByte := some 800
  hashRatioStandard := ⟨1, 2⟩
  hashRatioNonstandard := ⟨7, 2⟩
  signatureOffset := 19
  signatureDivisor := 43

/-- The costs of 2025 are counted, but nothing is bounded by them. -/
def Costs.y2023 : Costs := { Costs.y2025 with perDensityByte := none }

namespace Policy

def ofEdition : Edition → Policy
  | .y2023 => ⟨.y2023, .y2023, .y2023, true⟩
  | .y2025 => ⟨.y2025, .y2025, .y2025, true⟩
  | .y2026 => ⟨.y2026, .y2025, .y2025, true⟩

def nonstandard (p : Policy) : Policy := { p with standard := false }

def hashIterationCost (p : Policy) : Nat :=
  if p.standard then p.costs.hashIterationStandard else p.costs.hashIterationNonstandard

def maxCost (p : Policy) (density : Nat) : Nat :=
  match p.costs.perDensityByte with
  | some perByte => Amount.mul density perByte
  | none => Amount.top

def maxHashIterations (p : Policy) (density : Nat) : Nat :=
  match p.costs.perDensityByte with
  | some _ =>
    let ratio := if p.standard then p.costs.hashRatioStandard else p.costs.hashRatioNonstandard
    Amount.mul density ratio.numerator / max ratio.denominator 1
  | none => Amount.top

def maxSignatureChecks (p : Policy) (density : Nat) : Nat :=
  match p.costs.perDensityByte with
  | some _ => Amount.add density p.costs.signatureOffset / max p.costs.signatureDivisor 1
  | none => Amount.top

end Policy

end ScriptMachine
