import ScriptMachine.Policy

/-!
# Meter

Counters of the work that an evaluation has done, its cost by kind of work, and the budgets that
both are held to.
-/

namespace ScriptMachine

inductive Work
  /-- Evaluating an instruction, taken or not. -/
  | base
  | push
  | arithmetic
  | hashing
  | signatureChecks
  /-- Bytes evaluated again by a loop. -/
  | repeated
  deriving DecidableEq, Repr

namespace Work

def all : List Work := [base, push, arithmetic, hashing, signatureChecks, repeated]

def label : Work → String
  | base => "Instruction Base"
  | push => "Stack Push"
  | arithmetic => "Arithmetic"
  | hashing => "Hashing"
  | signatureChecks => "Signature Checks"
  | repeated => "Repeated Bytes"

end Work

structure Profile where
  base : Nat := 0
  push : Nat := 0
  arithmetic : Nat := 0
  hashing : Nat := 0
  signatureChecks : Nat := 0
  repeated : Nat := 0
  deriving DecidableEq, Repr, Inhabited

namespace Profile

def get (p : Profile) : Work → Nat
  | .base => p.base
  | .push => p.push
  | .arithmetic => p.arithmetic
  | .hashing => p.hashing
  | .signatureChecks => p.signatureChecks
  | .repeated => p.repeated

def add (p : Profile) (work : Work) (amount : Nat) : Profile :=
  match work with
  | .base => { p with base := Amount.add p.base amount }
  | .push => { p with push := Amount.add p.push amount }
  | .arithmetic => { p with arithmetic := Amount.add p.arithmetic amount }
  | .hashing => { p with hashing := Amount.add p.hashing amount }
  | .signatureChecks => { p with signatureChecks := Amount.add p.signatureChecks amount }
  | .repeated => { p with repeated := Amount.add p.repeated amount }

def toList (p : Profile) : List Nat := Work.all.map p.get

def total (p : Profile) : Nat := p.toList.foldl Amount.add 0

@[simp] theorem get_add_self (p : Profile) (work : Work) (amount : Nat) :
    (p.add work amount).get work = Amount.add (p.get work) amount := by
  cases work <;> rfl

theorem get_add_of_ne (p : Profile) {work other : Work} (h : other ≠ work) (amount : Nat) :
    (p.add work amount).get other = p.get other := by
  cases work <;> cases other <;> first | rfl | exact absurd rfl h

end Profile

/-- The budgets of an input, all derived from its density length. -/
structure Budget where
  density : Nat := 0
  cost : Nat := 0
  hashIterations : Nat := 0
  signatureChecks : Nat := 0
  deriving DecidableEq, Repr, Inhabited

def Policy.budget (p : Policy) (density : Nat) : Budget where
  density := density
  cost := p.maxCost density
  hashIterations := p.maxHashIterations density
  signatureChecks := p.maxSignatureChecks density

inductive Overdraft
  | cost (limit : Nat)
  | hashIterations (limit : Nat)
  | signatureChecks (limit : Nat)
  deriving DecidableEq, Repr

structure Meter where
  instructions : Nat := 0
  cost : Nat := 0
  signatureChecks : Nat := 0
  hashIterations : Nat := 0
  /-- The most bytes that both stacks held together after a step. -/
  peakMemory : Nat := 0
  repeatedBytes : Nat := 0
  arithmeticBytes : Nat := 0
  pushedBytes : Nat := 0
  profile : Profile := {}
  budget : Budget := {}
  deriving DecidableEq, Repr, Inhabited

namespace Meter

def start (p : Policy) (density : Nat) : Meter := { budget := p.budget density }

def charge (m : Meter) (work : Work) (amount : Nat) : Meter :=
  { m with cost := Amount.add m.cost amount, profile := m.profile.add work amount }

def countInstruction (m : Meter) (p : Policy) : Meter :=
  { m with instructions := m.instructions + 1 }.charge .base p.costs.baseInstruction

def countPush (m : Meter) (p : Policy) (bytes : Nat) : Meter :=
  { m with pushedBytes := Amount.add m.pushedBytes bytes }.charge .push
    (Amount.mul bytes p.costs.pushedByte)

def countArithmetic (m : Meter) (p : Policy) (bytes : Nat) : Meter :=
  { m with arithmeticBytes := Amount.add m.arithmeticBytes bytes }.charge .arithmetic
    (Amount.mul bytes p.costs.arithmeticByte)

def countHash (m : Meter) (p : Policy) (iterations : Nat) : Meter :=
  { m with hashIterations := Amount.add m.hashIterations iterations }.charge .hashing
    (Amount.mul iterations p.hashIterationCost)

def countSignatureChecks (m : Meter) (p : Policy) (count : Nat) : Meter :=
  { m with signatureChecks := Amount.add m.signatureChecks count }.charge .signatureChecks
    (Amount.mul count p.costs.signatureCheck)

def countRepeated (m : Meter) (p : Policy) (bytes : Nat) : Meter :=
  { m with repeatedBytes := Amount.add m.repeatedBytes bytes }.charge .repeated
    (Amount.mul bytes p.costs.repeatedByte)

def observeMemory (m : Meter) (bytes : Nat) : Meter :=
  { m with peakMemory := max m.peakMemory bytes }

/-- The first budget that a counter has passed. -/
def overdraft? (m : Meter) : Option Overdraft :=
  if m.budget.cost < m.cost then some (.cost m.budget.cost)
  else if m.budget.hashIterations < m.hashIterations then
    some (.hashIterations m.budget.hashIterations)
  else if m.budget.signatureChecks < m.signatureChecks then
    some (.signatureChecks m.budget.signatureChecks)
  else none

end Meter

end ScriptMachine
