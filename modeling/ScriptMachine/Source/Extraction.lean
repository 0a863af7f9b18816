import ScriptMachine.Source.Sample

/-!
# Extractions

The samples of an evaluation together with those of the evaluations inside it, which were made while
its source text was compiled.
-/

namespace ScriptMachine.Source

/-- The samples of an evaluation, its states that belong to no node, and the same for each
evaluation inside it, under the node that it gave its bytecode. -/
inductive Extraction
  | mk (samples : List Sample) (unmatched : List State) (nested : List (Nat × Extraction))

namespace Extraction

def samples : Extraction → List Sample
  | mk samples _ _ => samples

def unmatched : Extraction → List State
  | mk _ unmatched _ => unmatched

def nested : Extraction → List (Nat × Extraction)
  | mk _ _ nested => nested

mutual

/-- All samples, those of evaluations inside first. -/
def flatten : Extraction → List Sample
  | mk samples _ nested => flattenAll nested ++ samples

def flattenAll : List (Nat × Extraction) → List Sample
  | [] => []
  | (_, e) :: rest => flatten e ++ flattenAll rest

end

mutual

def allUnmatched : Extraction → List State
  | mk _ unmatched nested => allUnmatchedIn nested ++ unmatched

def allUnmatchedIn : List (Nat × Extraction) → List State
  | [] => []
  | (_, e) :: rest => allUnmatched e ++ allUnmatchedIn rest

end

end Extraction

def extractFlat (t : Tree) (evaluationRange : Range) (script : List Nat) (trace : List State) :
    Extraction :=
  let (samples, unmatched) := samples t evaluationRange script trace
  .mk samples unmatched []

/-- The evaluations made for the node at a place: its own, which holds those inside it, and those
inside what it pushes. -/
def nestedAt (t : Tree) (id : Nat) : List (Nat × Extraction) :=
  match t.get? id with
  | none => []
  | some node =>
    let within (script : List Nat) : List (Nat × Extraction) :=
      script.flatMap fun child ↦ if child < id then nestedAt t child else []
    let own :=
      match node.evaluation? with
      | none => []
      | some (source, trace) =>
        let (samples, unmatched) := samples t source.range source.script trace
        [(id, Extraction.mk samples unmatched (within source.script))]
    own ++ node.push.elim [] (within ·.script)
termination_by id

def extract (t : Tree) (evaluationRange : Range) (script : List Nat) (trace : List State) :
    Extraction :=
  let (samples, unmatched) := samples t evaluationRange script trace
  .mk samples unmatched (script.flatMap (nestedAt t))

end ScriptMachine.Source
