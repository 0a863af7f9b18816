/-!
# Opcodes

The named opcodes, grouped by what they do. Single bytes that push as many bytes as their value
says, and bytes without a meaning, are no opcodes here.
-/

namespace ScriptMachine

inductive PushOp
  | empty | data1 | data2 | data4
  deriving DecidableEq, Repr

/-- Opcodes that fail. The two conditional ones fail even in a branch that is not taken. -/
inductive ReservedOp
  | reserved | ver | verIf | verNotIf | reserved1 | reserved2
  deriving DecidableEq, Repr

/-- Opcodes without effect that later editions may put to use. -/
inductive UpgradableOp
  | nop1 | nop4 | nop5 | nop6 | nop7 | nop8 | nop9 | nop10
  deriving DecidableEq, Repr

/-- Branches, and the two opcodes that end an evaluation. -/
inductive FlowOp
  | branch | branchNot | otherwise | endBranch | verify | halt
  deriving DecidableEq, Repr

inductive LoopOp
  | begin | until
  deriving DecidableEq, Repr

inductive StackOp
  | toAlt | fromAlt | drop2 | dup2 | dup3 | over2 | rot2 | swap2 | ifDup | depth | drop | dup
  | nip | over | pick | roll | rot | swap | tuck
  deriving DecidableEq, Repr

inductive SpliceOp
  | cat | split | numToBin | binToNum | size | reverse
  deriving DecidableEq, Repr

inductive BitwiseOp
  | and | or | xor
  deriving DecidableEq, Repr

inductive UnaryOp
  | increment | decrement | negate | abs | not | isNonzero
  deriving DecidableEq, Repr

inductive BinaryOp
  | add | sub | mul | div | mod | boolAnd | boolOr | equal | equalVerify | notEqual | less
  | greater | lessOrEqual | greaterOrEqual | min | max
  deriving DecidableEq, Repr

inductive HashOp
  | ripemd160 | sha1 | sha256 | hash160 | hash256
  deriving DecidableEq, Repr

inductive LocktimeOp
  | lockTime | sequence
  deriving DecidableEq, Repr

inductive IntrospectionOp
  | inputIndex | activeBytecode | version | inputCount | outputCount | lockTime | utxoValue
  | utxoBytecode | outpointHash | outpointIndex | inputBytecode | sequenceNumber | outputValue
  | outputBytecode
  deriving DecidableEq, Repr

/-- Opcodes that fail even in a branch that is not taken. -/
inductive DisabledOp
  | invert | double | halve | shiftLeft | shiftRight
  deriving DecidableEq, Repr

/-- What a signature check is about: the spending transaction, the transaction under several keys,
or a message on the stack. -/
inductive CheckOp
  | transaction | multi | data
  deriving DecidableEq, Repr

inductive Opcode
  | pushing (op : PushOp)
  | reserved (op : ReservedOp)
  | upgradable (op : UpgradableOp)
  | flow (op : FlowOp)
  | loop (op : LoopOp)
  | stack (op : StackOp)
  | splice (op : SpliceOp)
  | bitwise (op : BitwiseOp)
  | unary (op : UnaryOp)
  | binary (op : BinaryOp)
  | hash (op : HashOp)
  | locktime (op : LocktimeOp)
  | introspection (op : IntrospectionOp)
  | disabled (op : DisabledOp)
  | negativeOne
  /-- Pushes one more than `n`. -/
  | small (n : Fin 16)
  | nop
  | equal
  | equalVerify
  | within
  /-- Lets signatures cover only what follows. -/
  | codeSeparator
  /-- Checks signatures; with `verify` a failure ends the evaluation. -/
  | check (op : CheckOp) (verify : Bool)
  deriving DecidableEq, Repr

inductive Category
  | push | constant | flow | loop | stack | splice | bitwise | arithmetic | crypto | locktime
  | introspection | nop | reserved | disabled
  deriving DecidableEq, Repr

namespace Opcode

/-- The opcodes of the editions without loops, in the order of their bytes. -/
def table : List Opcode :=
  [ .pushing .empty, .pushing .data1, .pushing .data2, .pushing .data4, .negativeOne,
    .reserved .reserved, .small 0, .small 1, .small 2, .small 3, .small 4, .small 5, .small 6,
    .small 7, .small 8, .small 9, .small 10, .small 11, .small 12, .small 13, .small 14,
    .small 15, .nop, .reserved .ver, .flow .branch, .flow .branchNot, .reserved .verIf,
    .reserved .verNotIf, .flow .otherwise, .flow .endBranch, .flow .verify, .flow .halt,
    .stack .toAlt, .stack .fromAlt, .stack .drop2, .stack .dup2, .stack .dup3, .stack .over2,
    .stack .rot2, .stack .swap2, .stack .ifDup, .stack .depth, .stack .drop, .stack .dup,
    .stack .nip, .stack .over, .stack .pick, .stack .roll, .stack .rot, .stack .swap,
    .stack .tuck, .splice .cat, .splice .split, .splice .numToBin, .splice .binToNum,
    .splice .size, .disabled .invert, .bitwise .and, .bitwise .or, .bitwise .xor, .equal,
    .equalVerify, .reserved .reserved1, .reserved .reserved2, .unary .increment,
    .unary .decrement, .disabled .double, .disabled .halve, .unary .negate, .unary .abs,
    .unary .not, .unary .isNonzero, .binary .add, .binary .sub, .binary .mul, .binary .div,
    .binary .mod, .disabled .shiftLeft, .disabled .shiftRight, .binary .boolAnd,
    .binary .boolOr, .binary .equal, .binary .equalVerify, .binary .notEqual, .binary .less,
    .binary .greater, .binary .lessOrEqual, .binary .greaterOrEqual, .binary .min,
    .binary .max, .within, .hash .ripemd160, .hash .sha1, .hash .sha256, .hash .hash160,
    .hash .hash256, .codeSeparator, .check .transaction false, .check .transaction true,
    .check .multi false, .check .multi true, .upgradable .nop1, .locktime .lockTime,
    .locktime .sequence, .upgradable .nop4, .upgradable .nop5, .upgradable .nop6,
    .upgradable .nop7, .upgradable .nop8, .upgradable .nop9, .upgradable .nop10,
    .check .data false, .check .data true, .splice .reverse, .introspection .inputIndex,
    .introspection .activeBytecode, .introspection .version, .introspection .inputCount,
    .introspection .outputCount, .introspection .lockTime, .introspection .utxoValue,
    .introspection .utxoBytecode, .introspection .outpointHash, .introspection .outpointIndex,
    .introspection .inputBytecode, .introspection .sequenceNumber, .introspection .outputValue,
    .introspection .outputBytecode ]

def byte : Opcode → UInt8
  | .pushing .empty => 0x00
  | .pushing .data1 => 0x4c
  | .pushing .data2 => 0x4d
  | .pushing .data4 => 0x4e
  | .reserved .reserved => 0x50
  | .reserved .ver => 0x62
  | .reserved .verIf => 0x65
  | .reserved .verNotIf => 0x66
  | .reserved .reserved1 => 0x89
  | .reserved .reserved2 => 0x8a
  | .upgradable .nop1 => 0xb0
  | .upgradable .nop4 => 0xb3
  | .upgradable .nop5 => 0xb4
  | .upgradable .nop6 => 0xb5
  | .upgradable .nop7 => 0xb6
  | .upgradable .nop8 => 0xb7
  | .upgradable .nop9 => 0xb8
  | .upgradable .nop10 => 0xb9
  | .flow .branch => 0x63
  | .flow .branchNot => 0x64
  | .flow .otherwise => 0x67
  | .flow .endBranch => 0x68
  | .flow .verify => 0x69
  | .flow .halt => 0x6a
  | .loop .begin => 0x65
  | .loop .until => 0x66
  | .stack .toAlt => 0x6b
  | .stack .fromAlt => 0x6c
  | .stack .drop2 => 0x6d
  | .stack .dup2 => 0x6e
  | .stack .dup3 => 0x6f
  | .stack .over2 => 0x70
  | .stack .rot2 => 0x71
  | .stack .swap2 => 0x72
  | .stack .ifDup => 0x73
  | .stack .depth => 0x74
  | .stack .drop => 0x75
  | .stack .dup => 0x76
  | .stack .nip => 0x77
  | .stack .over => 0x78
  | .stack .pick => 0x79
  | .stack .roll => 0x7a
  | .stack .rot => 0x7b
  | .stack .swap => 0x7c
  | .stack .tuck => 0x7d
  | .splice .cat => 0x7e
  | .splice .split => 0x7f
  | .splice .numToBin => 0x80
  | .splice .binToNum => 0x81
  | .splice .size => 0x82
  | .splice .reverse => 0xbc
  | .bitwise .and => 0x84
  | .bitwise .or => 0x85
  | .bitwise .xor => 0x86
  | .unary .increment => 0x8b
  | .unary .decrement => 0x8c
  | .unary .negate => 0x8f
  | .unary .abs => 0x90
  | .unary .not => 0x91
  | .unary .isNonzero => 0x92
  | .binary .add => 0x93
  | .binary .sub => 0x94
  | .binary .mul => 0x95
  | .binary .div => 0x96
  | .binary .mod => 0x97
  | .binary .boolAnd => 0x9a
  | .binary .boolOr => 0x9b
  | .binary .equal => 0x9c
  | .binary .equalVerify => 0x9d
  | .binary .notEqual => 0x9e
  | .binary .less => 0x9f
  | .binary .greater => 0xa0
  | .binary .lessOrEqual => 0xa1
  | .binary .greaterOrEqual => 0xa2
  | .binary .min => 0xa3
  | .binary .max => 0xa4
  | .hash .ripemd160 => 0xa6
  | .hash .sha1 => 0xa7
  | .hash .sha256 => 0xa8
  | .hash .hash160 => 0xa9
  | .hash .hash256 => 0xaa
  | .locktime .lockTime => 0xb1
  | .locktime .sequence => 0xb2
  | .introspection .inputIndex => 0xc0
  | .introspection .activeBytecode => 0xc1
  | .introspection .version => 0xc2
  | .introspection .inputCount => 0xc3
  | .introspection .outputCount => 0xc4
  | .introspection .lockTime => 0xc5
  | .introspection .utxoValue => 0xc6
  | .introspection .utxoBytecode => 0xc7
  | .introspection .outpointHash => 0xc8
  | .introspection .outpointIndex => 0xc9
  | .introspection .inputBytecode => 0xca
  | .introspection .sequenceNumber => 0xcb
  | .introspection .outputValue => 0xcc
  | .introspection .outputBytecode => 0xcd
  | .disabled .invert => 0x83
  | .disabled .double => 0x8d
  | .disabled .halve => 0x8e
  | .disabled .shiftLeft => 0x98
  | .disabled .shiftRight => 0x99
  | .negativeOne => 0x4f
  | .small n => 0x51 + UInt8.ofNat n.val
  | .nop => 0x61
  | .equal => 0x87
  | .equalVerify => 0x88
  | .within => 0xa5
  | .codeSeparator => 0xab
  | .check .transaction false => 0xac
  | .check .transaction true => 0xad
  | .check .multi false => 0xae
  | .check .multi true => 0xaf
  | .check .data false => 0xba
  | .check .data true => 0xbb

def mnemonic : Opcode → String
  | .pushing .empty => "OP_0"
  | .pushing .data1 => "OP_PUSHDATA_1"
  | .pushing .data2 => "OP_PUSHDATA_2"
  | .pushing .data4 => "OP_PUSHDATA_4"
  | .reserved .reserved => "OP_RESERVED"
  | .reserved .ver => "OP_VER"
  | .reserved .verIf => "OP_VERIF"
  | .reserved .verNotIf => "OP_VERNOTIF"
  | .reserved .reserved1 => "OP_RESERVED1"
  | .reserved .reserved2 => "OP_RESERVED2"
  | .upgradable .nop1 => "OP_NOP1"
  | .upgradable .nop4 => "OP_NOP4"
  | .upgradable .nop5 => "OP_NOP5"
  | .upgradable .nop6 => "OP_NOP6"
  | .upgradable .nop7 => "OP_NOP7"
  | .upgradable .nop8 => "OP_NOP8"
  | .upgradable .nop9 => "OP_NOP9"
  | .upgradable .nop10 => "OP_NOP10"
  | .flow .branch => "OP_IF"
  | .flow .branchNot => "OP_NOTIF"
  | .flow .otherwise => "OP_ELSE"
  | .flow .endBranch => "OP_ENDIF"
  | .flow .verify => "OP_VERIFY"
  | .flow .halt => "OP_RETURN"
  | .loop .begin => "OP_BEGIN"
  | .loop .until => "OP_UNTIL"
  | .stack .toAlt => "OP_TOALTSTACK"
  | .stack .fromAlt => "OP_FROMALTSTACK"
  | .stack .drop2 => "OP_2DROP"
  | .stack .dup2 => "OP_2DUP"
  | .stack .dup3 => "OP_3DUP"
  | .stack .over2 => "OP_2OVER"
  | .stack .rot2 => "OP_2ROT"
  | .stack .swap2 => "OP_2SWAP"
  | .stack .ifDup => "OP_IFDUP"
  | .stack .depth => "OP_DEPTH"
  | .stack .drop => "OP_DROP"
  | .stack .dup => "OP_DUP"
  | .stack .nip => "OP_NIP"
  | .stack .over => "OP_OVER"
  | .stack .pick => "OP_PICK"
  | .stack .roll => "OP_ROLL"
  | .stack .rot => "OP_ROT"
  | .stack .swap => "OP_SWAP"
  | .stack .tuck => "OP_TUCK"
  | .splice .cat => "OP_CAT"
  | .splice .split => "OP_SPLIT"
  | .splice .numToBin => "OP_NUM2BIN"
  | .splice .binToNum => "OP_BIN2NUM"
  | .splice .size => "OP_SIZE"
  | .splice .reverse => "OP_REVERSEBYTES"
  | .bitwise .and => "OP_AND"
  | .bitwise .or => "OP_OR"
  | .bitwise .xor => "OP_XOR"
  | .unary .increment => "OP_1ADD"
  | .unary .decrement => "OP_1SUB"
  | .unary .negate => "OP_NEGATE"
  | .unary .abs => "OP_ABS"
  | .unary .not => "OP_NOT"
  | .unary .isNonzero => "OP_0NOTEQUAL"
  | .binary .add => "OP_ADD"
  | .binary .sub => "OP_SUB"
  | .binary .mul => "OP_MUL"
  | .binary .div => "OP_DIV"
  | .binary .mod => "OP_MOD"
  | .binary .boolAnd => "OP_BOOLAND"
  | .binary .boolOr => "OP_BOOLOR"
  | .binary .equal => "OP_NUMEQUAL"
  | .binary .equalVerify => "OP_NUMEQUALVERIFY"
  | .binary .notEqual => "OP_NUMNOTEQUAL"
  | .binary .less => "OP_LESSTHAN"
  | .binary .greater => "OP_GREATERTHAN"
  | .binary .lessOrEqual => "OP_LESSTHANOREQUAL"
  | .binary .greaterOrEqual => "OP_GREATERTHANOREQUAL"
  | .binary .min => "OP_MIN"
  | .binary .max => "OP_MAX"
  | .hash .ripemd160 => "OP_RIPEMD160"
  | .hash .sha1 => "OP_SHA1"
  | .hash .sha256 => "OP_SHA256"
  | .hash .hash160 => "OP_HASH160"
  | .hash .hash256 => "OP_HASH256"
  | .locktime .lockTime => "OP_CHECKLOCKTIMEVERIFY"
  | .locktime .sequence => "OP_CHECKSEQUENCEVERIFY"
  | .introspection .inputIndex => "OP_INPUTINDEX"
  | .introspection .activeBytecode => "OP_ACTIVEBYTECODE"
  | .introspection .version => "OP_TXVERSION"
  | .introspection .inputCount => "OP_TXINPUTCOUNT"
  | .introspection .outputCount => "OP_TXOUTPUTCOUNT"
  | .introspection .lockTime => "OP_TXLOCKTIME"
  | .introspection .utxoValue => "OP_UTXOVALUE"
  | .introspection .utxoBytecode => "OP_UTXOBYTECODE"
  | .introspection .outpointHash => "OP_OUTPOINTTXHASH"
  | .introspection .outpointIndex => "OP_OUTPOINTINDEX"
  | .introspection .inputBytecode => "OP_INPUTBYTECODE"
  | .introspection .sequenceNumber => "OP_INPUTSEQUENCENUMBER"
  | .introspection .outputValue => "OP_OUTPUTVALUE"
  | .introspection .outputBytecode => "OP_OUTPUTBYTECODE"
  | .disabled .invert => "OP_INVERT"
  | .disabled .double => "OP_2MUL"
  | .disabled .halve => "OP_2DIV"
  | .disabled .shiftLeft => "OP_LSHIFT"
  | .disabled .shiftRight => "OP_RSHIFT"
  | .negativeOne => "OP_1NEGATE"
  | .small n => s!"OP_{n.val + 1}"
  | .nop => "OP_NOP"
  | .equal => "OP_EQUAL"
  | .equalVerify => "OP_EQUALVERIFY"
  | .within => "OP_WITHIN"
  | .codeSeparator => "OP_CODESEPARATOR"
  | .check .transaction false => "OP_CHECKSIG"
  | .check .transaction true => "OP_CHECKSIGVERIFY"
  | .check .multi false => "OP_CHECKMULTISIG"
  | .check .multi true => "OP_CHECKMULTISIGVERIFY"
  | .check .data false => "OP_CHECKDATASIG"
  | .check .data true => "OP_CHECKDATASIGVERIFY"

def category : Opcode → Category
  | .pushing _ => .push
  | .reserved _ => .reserved
  | .nop | .upgradable _ => .nop
  | .flow _ => .flow
  | .loop _ => .loop
  | .stack _ => .stack
  | .splice _ => .splice
  | .bitwise _ | .equal | .equalVerify => .bitwise
  | .unary _ | .binary _ | .within => .arithmetic
  | .hash _ | .codeSeparator | .check _ _ => .crypto
  | .locktime _ => .locktime
  | .introspection _ => .introspection
  | .disabled _ => .disabled
  | .negativeOne | .small _ => .constant

def isDisabled (op : Opcode) : Bool := op.category == .disabled

/-- The opcode takes part in evaluation even in a branch that is not taken. -/
def isConditional : Opcode → Bool
  | .flow .branch | .flow .branchNot | .flow .otherwise | .flow .endBranch => true
  | .loop _ => true
  | _ => false

end Opcode

end ScriptMachine
