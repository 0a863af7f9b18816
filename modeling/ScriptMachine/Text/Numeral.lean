/-!
# Decimal numerals

Two grammars are in use. A count is one or more ASCII digits, with at most one plus sign before
them, and lies below a bound. An integer may have a minus sign instead, has no bound, and may have
underscores anywhere after its first digit.
-/

namespace ScriptMachine.Text

def digitsValue (digits : List Char) : Nat :=
  digits.foldl (fun n c ↦ 10 * n + (c.toNat - 48)) 0

def digits? (text : List Char) : Option Nat :=
  if text ≠ [] ∧ text.all Char.isDigit then some (digitsValue text) else none

def countBelow? (bound : Nat) (text : List Char) : Option Nat :=
  let number :=
    match text with
    | '+' :: rest => digits? rest
    | _ => digits? text
  number.filter (· < bound)

/-- The value of digits that may have underscores after the first of them. -/
def groupedDigits? (text : List Char) : Option Nat :=
  match text with
  | '_' :: _ => none
  | _ => digits? (text.filter (· ≠ '_'))

def integer? : List Char → Option Int
  | '-' :: rest => (groupedDigits? rest).map fun n ↦ -(n : Int)
  | '+' :: rest => (groupedDigits? rest).map fun n ↦ (n : Int)
  | text => (groupedDigits? text).map fun n ↦ (n : Int)

end ScriptMachine.Text
