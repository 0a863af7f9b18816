import ScriptMachine.Listing.Basic
import ScriptMachine.Machine.State
import ScriptMachine.Text.Align

/-!
# Summaries

States and traces as text, one line for each step. Items are listed from the bottom of the stack.
-/

namespace ScriptMachine

def itemsText (stack : List Bytes) : String :=
  "[" ++ ", ".intercalate (stack.reverse.map Listing.literal) ++ "]"

namespace State

/-- A state as text: its stack, its alternate stack unless that is empty, and its fault. -/
def text (s : State) : String :=
  itemsText s.stack ++ (if s.alt.isEmpty then "" else " alt: " ++ itemsText s.alt) ++
    s.fault.elim "" fun fault ↦ " error: " ++ fault.message

/-- The line of a step. A state without a next instruction is followed by its verdict. -/
def stepLine (render : Instruction → String) (before after : State) : String :=
  match before.next? with
  | none => s!"     (complete) {after.text}"
  | some i =>
    let skip := if before.executesNext then "" else " (skip)"
    Text.padLeft 4 (toString before.pointer) ++ s!" {render i}{skip} => {after.text}"

def stepLines (render : Instruction → String) (before : State) : List State → List String
  | [] => []
  | after :: rest => stepLine render before after :: stepLines render after rest

def summarize (render : Instruction → String) : List State → List String
  | [] => []
  | first :: rest => s!"     (initial) {first.text}" :: stepLines render first rest

end State

end ScriptMachine
