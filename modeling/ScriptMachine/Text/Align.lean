/-!
# Columns of text

Text set to the left or right of a column that is at least as wide as asked for, and numbers with a
comma between each three digits.
-/

namespace ScriptMachine.Text

def padRight (width : Nat) (text : String) : String :=
  text ++ String.ofList (List.replicate (width - text.length) ' ')

def padLeft (width : Nat) (text : String) : String :=
  String.ofList (List.replicate (width - text.length) ' ') ++ text

/-- Puts a comma before each group of three characters but the first group. -/
def groupThrees : List Char → List Char
  | [] => []
  | c :: rest =>
    if rest.length % 3 = 0 ∧ rest ≠ [] then c :: ',' :: groupThrees rest else c :: groupThrees rest

def withCommas (n : Nat) : String := String.ofList (groupThrees (Nat.toDigits 10 n))

end ScriptMachine.Text
