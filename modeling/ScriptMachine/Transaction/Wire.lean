import ScriptMachine.Digest.Basic
import ScriptMachine.Transaction.Basic

/-!
# The wire form

Integers are little-endian and of fixed width; counts and lengths take one, three, five or nine
bytes, as their size asks for; byte strings follow their length. A wire form is written to a sink in
parts. One sink keeps the bytes, another one only counts them.
-/

namespace ScriptMachine

/-- What takes in the parts of a wire form one after the other. -/
structure Sink (σ : Type) where
  empty : σ
  write : σ → Bytes → σ

namespace Sink

def collect {σ : Type} (sink : Sink σ) (parts : List Bytes) : σ :=
  parts.foldl sink.write sink.empty

def buffer : Sink Bytes := ⟨[], fun written part ↦ written ++ part⟩

def counter : Sink Nat := ⟨0, fun count part ↦ count + part.length⟩

@[simp] theorem collect_buffer (parts : List Bytes) : buffer.collect parts = parts.flatten := by
  have hfold : ∀ written : Bytes, parts.foldl buffer.write written = written ++ parts.flatten := by
    induction parts with
    | nil => simp
    | cons part parts ih =>
      intro written
      rw [List.foldl_cons, ih, List.flatten_cons, ← List.append_assoc]
      rfl
  exact hfold []

theorem collect_append (xs ys : List Bytes) :
    buffer.collect (xs ++ ys) = buffer.collect xs ++ buffer.collect ys := by
  simp

theorem collect_flatMap {α : Type} (parts : α → List Bytes) (as : List α) :
    buffer.collect (as.flatMap parts) = as.flatMap fun a ↦ buffer.collect (parts a) := by
  induction as with
  | nil => rfl
  | cons a as ih => rw [List.flatMap_cons, collect_append, ih, List.flatMap_cons]

/-- Counting what is written gives the length of what is kept. -/
theorem collect_counter (parts : List Bytes) :
    counter.collect parts = (buffer.collect parts).length := by
  have hfold : ∀ count : Nat, parts.foldl counter.write count = count + parts.flatten.length := by
    induction parts with
    | nil => simp
    | cons part parts ih =>
      intro count
      rw [List.foldl_cons, ih, List.flatten_cons, List.length_append, ← Nat.add_assoc]
      rfl
  rw [collect_buffer]
  exact (hfold 0).trans (Nat.zero_add _)

end Sink

namespace Wire

def word32 (n : UInt32) : Bytes := Bytes.ofNatLE 4 n.toNat

def word64 (n : UInt64) : Bytes := Bytes.ofNatLE 8 n.toNat

/-- A count: one byte below `0xfd`, and otherwise a marker and two, four or eight bytes. -/
def compactSizeParts (n : Nat) : List Bytes :=
  if n < 0xfd then [[UInt8.ofNat n]]
  else if n ≤ 0xffff then [[0xfd], Bytes.ofNatLE 2 n]
  else if n ≤ 0xffffffff then [[0xfe], Bytes.ofNatLE 4 n]
  else [[0xff], Bytes.ofNatLE 8 n]

def compactSize (n : Nat) : Bytes := Sink.buffer.collect (compactSizeParts n)

/-- The number of bytes of a count, without writing it. -/
def compactSizeLength (n : Nat) : Nat :=
  if n < 0xfd then 1 else if n ≤ 0xffff then 3 else if n ≤ 0xffffffff then 5 else 9

theorem length_compactSize (n : Nat) : (compactSize n).length = compactSizeLength n := by
  rw [compactSize, Sink.collect_buffer]
  unfold compactSizeParts compactSizeLength
  repeat' split
  all_goals simp

def byteStringParts (bytes : Bytes) : List Bytes := compactSizeParts bytes.length ++ [bytes]

def byteString (bytes : Bytes) : Bytes := Sink.buffer.collect (byteStringParts bytes)

theorem byteString_eq (bytes : Bytes) : byteString bytes = compactSize bytes.length ++ bytes :=
  Sink.collect_append _ _

end Wire

namespace Outpoint

variable (o : Outpoint)

def parts : List Bytes := [o.hash.bytes, Wire.word32 o.index]

def encode : Bytes := Sink.buffer.collect o.parts

theorem encode_eq : o.encode = o.hash.bytes ++ Wire.word32 o.index := rfl

end Outpoint

namespace Input

variable (i : Input)

def parts : List Bytes :=
  i.outpoint.parts ++ Wire.byteStringParts i.unlocking ++ [Wire.word32 i.sequence]

def encode : Bytes := Sink.buffer.collect i.parts

def encodedLength : Nat := Sink.counter.collect i.parts

theorem encode_eq :
    i.encode = i.outpoint.encode ++ Wire.byteString i.unlocking ++ Wire.word32 i.sequence := by
  rw [encode, parts, Sink.collect_append, Sink.collect_append]
  rfl

end Input

namespace Output

variable (o : Output)

def parts : List Bytes := Wire.word64 o.value :: Wire.byteStringParts o.locking

def encode : Bytes := Sink.buffer.collect o.parts

def encodedLength : Nat := Sink.counter.collect o.parts

theorem encode_eq : o.encode = Wire.word64 o.value ++ Wire.byteString o.locking :=
  Sink.collect_append [Wire.word64 o.value] _

end Output

namespace Transaction

variable (tx : Transaction)

def parts : List Bytes :=
  [Wire.word32 tx.version] ++
    Wire.compactSizeParts tx.inputs.length ++ tx.inputs.flatMap Input.parts ++
    Wire.compactSizeParts tx.outputs.length ++ tx.outputs.flatMap Output.parts ++
    [Wire.word32 tx.lockTime]

def encode : Bytes := Sink.buffer.collect tx.parts

def encodedLength : Nat := Sink.counter.collect tx.parts

/-- The hash of a transaction, in wire order. -/
def hash : Bytes := Digest.hash256 tx.encode

theorem encode_eq :
    tx.encode = Wire.word32 tx.version ++
      Wire.compactSize tx.inputs.length ++ tx.inputs.flatMap Input.encode ++
      Wire.compactSize tx.outputs.length ++ tx.outputs.flatMap Output.encode ++
      Wire.word32 tx.lockTime := by
  simp only [encode, parts, Sink.collect_append, Sink.collect_flatMap]
  rfl

end Transaction

/-- The size in wire form of an input with this much unlocking bytecode. It scales the budgets of
the input's evaluation. -/
def densityLength (unlockingLength : Nat) : Nat :=
  36 + Wire.compactSizeLength unlockingLength + unlockingLength + 4

def Input.densityLength (i : Input) : Nat := ScriptMachine.densityLength i.unlocking.length

end ScriptMachine
