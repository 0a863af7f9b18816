import ScriptMachine.Listing.Fault

/-!
# Tokens of a listing

Tokens are separated by blanks and commas; a comment goes from a `#` to the end of the line.
Between square brackets none of these counts. A line's last token ends at the line's first `#`,
wherever that stands.
-/

namespace ScriptMachine.Listing

structure Token where
  text : String
  position : Source.Position
  deriving DecidableEq, Repr

def Token.fault (t : Token) (mistake : Mistake) : Fault := ⟨t.position, mistake⟩

def isSeparator (c : Char) : Bool := c == ',' || c == ' ' || c == '\t' || c == '\r'

def isHash (c : Char) : Bool := c == '#'

/-- A token that is being read: its first column, and its characters so far, the last first. -/
structure Pending where
  column : Nat
  reversed : List Char
  deriving DecidableEq, Repr

namespace Pending

def extend (pending : Option Pending) (column : Nat) (c : Char) : Option Pending :=
  match pending with
  | none => some ⟨column, [c]⟩
  | some p => some { p with reversed := c :: p.reversed }

def chars (p : Pending) : List Char := p.reversed.reverse

def close (line : Nat) (p : Pending) : Token :=
  ⟨String.ofList p.chars, ⟨line, p.column⟩⟩

/-- The token as it is where the line ends it. `hashBefore` says that the line has a `#` before
it. -/
def closeLast (line : Nat) (hashBefore : Bool) (p : Pending) : Token :=
  let visible := if hashBefore then [] else p.chars.takeWhile (!isHash ·)
  ⟨String.ofList (Text.trimEnd Text.isBlank visible), ⟨line, p.column⟩⟩

end Pending

/-- The tokens where a line or its code ends. A bracket that is still open is a mistake. -/
def lastToken (line : Nat) (hashBefore inBrackets : Bool) :
    Option Pending → Except Fault (List Token)
  | none => .ok []
  | some p =>
    if inBrackets then .error ((p.close line).fault (.invalidMissingNote (p.close line).text))
    else .ok [p.closeLast line hashBefore]

def lineTokens (line : Nat) (hashBefore inBrackets : Bool) (column : Nat)
    (pending : Option Pending) : List Char → Except Fault (List Token)
  | [] => lastToken line hashBefore inBrackets pending
  | c :: rest =>
    let next := column + c.utf8Size
    if isHash c && !inBrackets then lastToken line hashBefore inBrackets pending
    else if isSeparator c && !inBrackets then
      match pending with
      | none => lineTokens line hashBefore false next none rest
      | some p => do
        let tokens ← lineTokens line (hashBefore || p.reversed.any isHash) false next none rest
        return p.close line :: tokens
    else
      let inside := if c = '[' then true else if c = ']' then false else inBrackets
      lineTokens line hashBefore inside next (Pending.extend pending column c) rest

def linesTokens (line : Nat) : List (List Char) → Except Fault (List Token)
  | [] => .ok []
  | chars :: rest => do
    let tokens ← lineTokens line false false 1 none chars
    let others ← linesTokens (line + 1) rest
    return tokens ++ others

def tokens (source : String) : Except Fault (List Token) :=
  linesTokens 1 (Text.lines source.toList)

end ScriptMachine.Listing
