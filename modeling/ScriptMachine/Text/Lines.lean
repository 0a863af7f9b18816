/-!
# Lines

A line ends at a newline, or at a carriage return and a newline; neither belongs to it. Text after
the last newline is one more line, unless it is empty.
-/

namespace ScriptMachine.Text

/-- The lines of a text, without their ends. -/
def lines : List Char → List (List Char)
  | [] => []
  | '\r' :: '\n' :: rest => [] :: lines rest
  | c :: rest =>
    if c = '\n' then [] :: lines rest
    else
      match lines rest with
      | [] => [[c]]
      | line :: others => (c :: line) :: others

end ScriptMachine.Text
