import ScriptMachine.Machine.Run

/-!
# Spends

An input is verified in up to three phases, each on the stack of the one before: its unlocking
bytecode, which only pushes; the locking bytecode of the output it spends; and, where that is one of
two templates for the hash of a script, the script itself, which is the last item that the unlocking
bytecode pushed. All phases share one meter.
-/

namespace ScriptMachine

inductive Phase
  | unlocking | locking | redeem
  deriving DecidableEq, Repr

structure PhaseTrace where
  phase : Phase
  bytecode : Bytes
  trace : List State
  deriving DecidableEq, Repr

/-- The state that later phases go on from, if the phase did not fail. -/
def PhaseTrace.outcome? (t : PhaseTrace) : Option State :=
  t.trace.getLast?.filter (·.fault.isNone)

structure Spend where
  unlocking : Bytes
  locking : Bytes
  deriving DecidableEq, Repr

namespace Spend

/-- The locking bytecode asks for a script by a digest of `length` bytes. -/
def matchesTemplate (op : HashOp) (length : UInt8) (locking : Bytes) : Bool :=
  locking.length == length.toNat + 3 && locking.take 2 == [(Opcode.hash op).byte, length] &&
    locking.getLast? == some Opcode.equal.byte

def isScriptHash (locking : Bytes) : Bool :=
  matchesTemplate .hash160 0x14 locking || matchesTemplate .hash256 0x20 locking

def ofContext (ctx : Context) : Except Fault Spend :=
  match ctx.input?, ctx.source? with
  | some input, some source => .ok ⟨input.unlocking, source.locking⟩
  | _, _ => .error .missingContext

variable (sp : Spend) (m : Machine) (ctx : Context)

/-- The state before the unlocking bytecode, which fails at once if it does more than push. -/
def unlockingStart : State :=
  let s := m.start ctx sp.unlocking
  if s.fault.isNone && !Instruction.isPushOnly s.program then
    { s with fault := some .requiresPushOnly }
  else s

def unlockingPhase : PhaseTrace where
  phase := .unlocking
  bytecode := sp.unlocking
  trace := m.debug ctx (sp.unlockingStart m ctx) .partway

/-- A digest that was asked for must have been found, which is what the top item says. -/
def requireTruthyTop (s : State) : State :=
  if s.fault.isNone && !s.top?.any ScriptNumber.isTruthy then
    { s with fault := some .unsuccessful }
  else s

def lockingTrace (unlocked : State) : List State :=
  let s := m.load sp.locking unlocked.stack unlocked.meter
  if isScriptHash sp.locking then
    let trace := m.debug ctx s .partway
    trace.dropLast ++ (trace.getLast?.map requireTruthyTop).toList
  else m.debug ctx s .final

def lockingPhase (unlocked : State) : PhaseTrace where
  phase := .locking
  bytecode := sp.locking
  trace := sp.lockingTrace m ctx unlocked

/-- The phase of the script that the unlocking bytecode pushed last, on the items below it. -/
def redeemPhase (script : Bytes) (stack : List Bytes) (meter : Meter) : PhaseTrace where
  phase := .redeem
  bytecode := script
  trace := m.debug ctx (m.load script stack meter) .final

def debug : List PhaseTrace :=
  let unlocking := sp.unlockingPhase m ctx
  match unlocking.outcome? with
  | none => [unlocking]
  | some unlocked =>
    let locking := sp.lockingPhase m ctx unlocked
    match locking.outcome?, unlocked.stack with
    | some locked, script :: rest =>
      if isScriptHash sp.locking then
        [unlocking, locking, redeemPhase m ctx script rest locked.meter]
      else [unlocking, locking]
    | _, _ => [unlocking, locking]

def verdictOf (phases : List PhaseTrace) : Option Fault :=
  match phases.getLast?.bind (·.trace.getLast?) with
  | some s => s.fault
  | none => some .unsuccessful

def verdict : Option Fault := verdictOf (sp.debug m ctx)

end Spend

end ScriptMachine
