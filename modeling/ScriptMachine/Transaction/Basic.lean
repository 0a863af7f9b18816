import ScriptMachine.Bytes

/-!
# Transactions

A transaction spends outputs of earlier ones. Only what an evaluation can observe is kept.
-/

namespace ScriptMachine

/-- The hash of a transaction, in wire order. -/
structure TransactionHash where
  bytes : Bytes := List.replicate 32 0
  length_eq : bytes.length = 32 := by decide
  deriving DecidableEq, Repr

structure Outpoint where
  hash : TransactionHash := {}
  index : UInt32 := 0
  deriving DecidableEq, Repr

structure Input where
  outpoint : Outpoint := {}
  unlocking : Bytes := []
  sequence : UInt32 := 0
  deriving DecidableEq, Repr

/-- An output: a value, and the bytecode that must be satisfied to spend it. -/
structure Output where
  value : UInt64 := 0
  locking : Bytes := []
  deriving DecidableEq, Repr

structure Transaction where
  version : UInt32 := 0
  inputs : List Input := []
  outputs : List Output := []
  lockTime : UInt32 := 0
  deriving DecidableEq, Repr

end ScriptMachine
