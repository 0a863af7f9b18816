import ScriptMachine.Machine.State
import ScriptMachine.Source.Range

/-!
# Trees of source nodes

Nodes are kept in the order in which they were completed, and refer to each other by their place in
that order. So a node comes after the nodes inside it.
-/

namespace ScriptMachine.Source

structure Nested where
  bytecode : Bytes
  range : Range
  script : List Nat
  deriving DecidableEq, Repr

/-- A piece of source text and the bytecode that it stands for. -/
structure Node where
  bytecode : Bytes
  range : Range
  push : Option Nested := none
  /-- What was evaluated to get the bytecode. -/
  source : Option Nested := none
  trace : Option (List State) := none
  deriving DecidableEq, Repr

namespace Node

def evaluation? (n : Node) : Option (Nested × List State) :=
  match n.source, n.trace with
  | some source, some trace => some (source, trace)
  | _, _ => none

def children (n : Node) : List Nat :=
  (n.push.elim [] Nested.script) ++ (n.source.elim [] Nested.script)

end Node

structure Tree where
  nodes : Array Node := #[]
  deriving DecidableEq, Repr

namespace Tree

variable (t : Tree)

def get? (id : Nat) : Option Node := t.nodes[id]?

def size : Nat := t.nodes.size

def add (n : Node) : Tree := ⟨t.nodes.push n⟩

def bytecode (script : List Nat) : Bytes :=
  script.flatMap fun id ↦ (t.get? id).elim [] Node.bytecode

def children (id : Nat) : List Nat := (t.get? id).elim [] Node.children

/-- The node at a place after all nodes within it. -/
def walkNode (id : Nat) : List Nat :=
  ((t.children id).flatMap fun child ↦ if child < id then walkNode child else []) ++ [id]
termination_by id

def walk (script : List Nat) : List Nat := script.flatMap t.walkNode

theorem get?_add_size (n : Node) : (t.add n).get? t.size = some n := by
  simp [get?, add, size]

theorem get?_add_of_lt (n : Node) {id : Nat} (h : id < t.size) :
    (t.add n).get? id = t.get? id := by
  simp only [get?, add, size] at *
  rw [Array.getElem?_push]
  split
  · omega
  · rfl

@[simp] theorem size_add (n : Node) : (t.add n).size = t.size + 1 := by simp [size, add]

end Tree

end ScriptMachine.Source
