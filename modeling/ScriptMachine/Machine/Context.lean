import ScriptMachine.Transaction.Wire

/-!
# Spending contexts

What an evaluation can see of the transaction it is part of.
-/

namespace ScriptMachine

structure Context where
  transaction : Transaction := {}
  sources : List Output := []
  inputIndex : Nat := 0
  deriving DecidableEq, Repr

namespace Context

def singleInput (unlocking locking : Bytes) : Context where
  transaction :=
    { version := 2
      inputs := [{ unlocking := unlocking }]
      outputs := [{}] }
  sources := [{ value := 10000, locking := locking }]

def input? (ctx : Context) : Option Input := ctx.transaction.inputs[ctx.inputIndex]?

def source? (ctx : Context) : Option Output := ctx.sources[ctx.inputIndex]?

/-- The density length of the input; without an input, that of one with `length` bytes. -/
def density (ctx : Context) (length : Nat) : Nat :=
  match ctx.input? with
  | some input => input.densityLength
  | none => densityLength length

end Context

end ScriptMachine
