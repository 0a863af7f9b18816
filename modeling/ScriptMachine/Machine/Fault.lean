import ScriptMachine.Hex
import ScriptMachine.Meter
import ScriptMachine.Opcode.Basic
import ScriptMachine.ScriptNumber
import ScriptMachine.Signing

/-!
# Faults

Everything that can end an evaluation, and its wording.
-/

namespace ScriptMachine

inductive Fault
  -- structure
  | malformedPush
  | nonMinimalPush
  | bytecodeTooLong (limit : Nat)
  | requiresPushOnly
  -- opcodes
  | calledReturn
  | disabledOpcode (op : Opcode)
  | calledReserved (op : Opcode)
  | unknownOpcode (byte : UInt8)
  | calledUpgradable (op : Opcode)
  | failedVerify (op : Opcode)
  -- control flow
  | unexpectedElse
  | repeatedElse
  | unexpectedEndIf
  | unexpectedUntil
  | unbalancedControl (depth : Nat)
  | requiresCleanStack (found : Nat)
  | unsuccessful
  -- stack
  | emptyStack
  | emptyAltStack
  | invalidStackIndex (index : Int) (depth : Nat)
  | invalidSplitIndex (index : Int) (length : Nat)
  | mismatchedLengths
  -- numbers
  | number (fault : ScriptNumber.Fault)
  | numberOverflow (limit : Nat)
  | divisionByZero
  | negativeNumber
  -- limits
  | itemTooLong (length limit : Nat)
  | stackTooDeep (limit : Nat)
  | controlTooDeep (limit : Nat)
  | tooManyOperations (limit : Nat)
  | overdraft (budget : Overdraft)
  -- signatures
  | invalidPublicKey
  | invalidSignature
  | nonNullSignatureFailure
  | invalidMultisigCount
  | invalidBitfield
  | schnorrInLegacyMultisig
  | signing (fault : Signing.Fault)
  -- the spending transaction
  | invalidIntrospectionIndex (index : Int)
  | missingContext
  | lockTimeTypeMismatch
  | unsatisfiedLockTime
  | lockTimeDisabled
  | unsatisfiedSequence
  deriving DecidableEq, Repr

def ScriptNumber.Fault.message : ScriptNumber.Fault → String
  | tooLong length limit =>
    s!"Program attempted to read a {length}-byte number (maximum {limit} bytes)."
  | notMinimal =>
    "Program attempted to read a number encoded in more than the minimum number of bytes."
  | insufficientSize size =>
    s!"Program attempted an OP_NUM2BIN into {size} bytes, which cannot encode the number."

def Overdraft.message : Overdraft → String
  | cost limit => s!"Program exceeded the maximum operation cost ({limit})."
  | hashIterations limit => s!"Program exceeded the maximum hash digest iterations ({limit})."
  | signatureChecks limit => s!"Program exceeded the maximum signature check count ({limit})."

def Fault.message : Fault → String
  | malformedPush => "Program must be long enough to push the requested number of bytes."
  | nonMinimalPush => "Push operations must use the smallest possible encoding."
  | bytecodeTooLong limit => s!"Program exceeded the maximum bytecode length ({limit} bytes)."
  | requiresPushOnly => "Unlocking bytecode may contain only push operations."
  | calledReturn => "Program called an OP_RETURN operation."
  | disabledOpcode op => s!"Program contains a disabled opcode: {op.mnemonic}."
  | calledReserved op => s!"Program called a reserved opcode: {op.mnemonic}."
  | unknownOpcode byte =>
    "Program called an unassigned opcode: 0x" ++ String.ofList (Hex.byte byte) ++ "."
  | calledUpgradable op =>
    s!"Program called a disallowed upgradable non-operation: {op.mnemonic}."
  | failedVerify op => s!"Program failed an {op.mnemonic} operation."
  | unexpectedElse => "Encountered an OP_ELSE outside of an OP_IF ... OP_ENDIF block."
  | repeatedElse => "Encountered a second OP_ELSE in the same OP_IF ... OP_ENDIF block."
  | unexpectedEndIf => "Encountered an OP_ENDIF which is not following a matching OP_IF."
  | unexpectedUntil => "Encountered an OP_UNTIL which is not following a matching OP_BEGIN."
  | unbalancedControl depth =>
    s!"Program completed with an unbalanced conditional or loop (control stack depth {depth})."
  | requiresCleanStack found =>
    "Program completed with an unexpected number of items on the stack " ++
      s!"(must be exactly 1, found {found})."
  | unsuccessful => "Program completed with a non-truthy value on top of the stack."
  | emptyStack => "Tried to read from an empty stack."
  | emptyAltStack => "Tried to read from an empty alternate stack."
  | invalidStackIndex index depth =>
    s!"Tried to access stack index {index} with a stack depth of {depth}."
  | invalidSplitIndex index length =>
    s!"Program attempted to split an item of length {length} at index {index}."
  | mismatchedLengths => "Program attempted a bitwise operation on items of different lengths."
  | number fault => fault.message
  | numberOverflow limit =>
    s!"Program produced a number exceeding the maximum length ({limit} bytes)."
  | divisionByZero => "Program attempted to divide a number by zero."
  | negativeNumber => "Program expected a non-negative number."
  | itemTooLong length limit =>
    s!"Program attempted to push an item of {length} bytes (maximum {limit} bytes)."
  | stackTooDeep limit => s!"Program exceeded the maximum stack depth ({limit} items)."
  | controlTooDeep limit =>
    s!"Program exceeded the maximum control stack depth ({limit} items)."
  | tooManyOperations limit =>
    s!"Program exceeded the maximum operation count ({limit} operations)."
  | overdraft budget => budget.message
  | invalidPublicKey => "Program attempted to use a public key with an invalid encoding."
  | invalidSignature => "Program attempted to use a signature with an invalid encoding."
  | nonNullSignatureFailure =>
    "Program failed a signature verification with a non-null signature."
  | invalidMultisigCount =>
    "Program requested an invalid number of keys or signatures for OP_CHECKMULTISIG."
  | invalidBitfield => "Program provided an invalid OP_CHECKMULTISIG signature bitfield."
  | schnorrInLegacyMultisig =>
    "Program used a Schnorr signature in legacy OP_CHECKMULTISIG mode."
  | signing fault => s!"Invalid signing serialization: {fault.message}"
  | invalidIntrospectionIndex index =>
    s!"Program requested transaction introspection index {index}, which is out of range."
  | missingContext => "Program requested introspection without a valid transaction input."
  | lockTimeTypeMismatch =>
    "Program used a locktime of a different type than the transaction."
  | unsatisfiedLockTime => "The transaction locktime is lower than the required locktime."
  | lockTimeDisabled =>
    "Program requires a locktime, but the input has a finalized sequence number."
  | unsatisfiedSequence =>
    "The input sequence number does not satisfy the required relative locktime."

end ScriptMachine
