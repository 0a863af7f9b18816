import ScriptMachine.Source.Range
import ScriptMachine.Text.Blank

/-!
# Lexemes of source text

Source text is split in one pass over its characters. Blanks separate words, and so do the
characters that stand for themselves; a comment goes from `//` to the end of the line. Something
that cannot be a part of any program is a lexeme too, so that what comes before it is looked at
first.
-/

namespace ScriptMachine.Source

inductive LexemeKind
  | word (text : List Char)
  | quoted (text : List Char)
  | openPush
  | closePush
  | openEvaluation
  | closeEvaluation
  /-- A parenthesis that no `$` stands before. -/
  | looseParenthesis
  /-- A `$` that no parenthesis follows. -/
  | looseDollar
  | openQuotation
  deriving DecidableEq, Repr

structure Lexeme where
  kind : LexemeKind
  range : Range
  deriving DecidableEq, Repr

inductive LexMode
  | between
  | comment
  /-- A word that starts here, and its characters, the last first. -/
  | word (start : Position) (reversed : List Char)
  | quoted (start : Position) (reversed : List Char)
  | dollar (start : Position)
  deriving DecidableEq, Repr

def isDelimiter (c : Char) : Bool :=
  c == '<' || c == '>' || c == '(' || c == ')' || c == '"' || c == '$'

def startsComment (c : Char) (rest : List Char) : Bool := c == '/' && rest.head? == some '/'

def endsWord (c : Char) (rest : List Char) : Bool :=
  Text.isBlank c || isDelimiter c || startsComment c rest

/-- The lexeme that a character between words is by itself, if any. -/
def LexemeKind.ofChar? (c : Char) : Option LexemeKind :=
  if c = '<' then some .openPush
  else if c = '>' then some .closePush
  else if c = '(' then some .looseParenthesis
  else if c = ')' then some .closeEvaluation
  else none

def LexMode.ofChar (position : Position) (c : Char) (rest : List Char) : LexMode :=
  if Text.isBlank c then .between
  else if startsComment c rest then .comment
  else if c = '"' then .quoted position []
  else if c = '$' then .dollar position
  else if isDelimiter c then .between
  else .word position [c]

/-- The lexeme that ends where a character follows that does not belong to it. -/
def LexMode.ended (position : Position) : LexMode → List Lexeme
  | word start reversed => [⟨.word reversed.reverse, ⟨start, position⟩⟩]
  | dollar start => [⟨.looseDollar, ⟨start, position⟩⟩]
  | _ => []

def LexMode.atEnd (position : Position) : LexMode → List Lexeme
  | quoted start _ => [⟨.openQuotation, ⟨start, position⟩⟩]
  | mode => mode.ended position

/-- One character: the lexemes that it completes, and what is read in part after it. -/
def lexChar (position : Position) (mode : LexMode) (c : Char) (rest : List Char) :
    List Lexeme × LexMode :=
  let next := position.advance c
  let afresh : List Lexeme × LexMode :=
    (mode.ended position ++ ((LexemeKind.ofChar? c).map fun kind ↦ ⟨kind, ⟨position, next⟩⟩).toList,
      .ofChar position c rest)
  match mode with
  | .between => afresh
  | .comment => ([], if c = '\n' then .between else .comment)
  | .quoted start reversed =>
    if c = '"' then ([⟨.quoted reversed.reverse, ⟨start, next⟩⟩], .between)
    else ([], .quoted start (c :: reversed))
  | .word start reversed =>
    if endsWord c rest then afresh else ([], .word start (c :: reversed))
  | .dollar start =>
    if c = '(' then ([⟨.openEvaluation, ⟨start, next⟩⟩], .between) else afresh

def lexFrom (position : Position) (mode : LexMode) : List Char → List Lexeme
  | [] => mode.atEnd position
  | c :: rest =>
    (lexChar position mode c rest).1 ++
      lexFrom (position.advance c) (lexChar position mode c rest).2 rest

def origin : Position := ⟨1, 1⟩

def lexemes (source : String) : List Lexeme := lexFrom origin .between source.toList

def extent (source : String) : Range := ⟨origin, source.toList.foldl Position.advance origin⟩

/-- The range of a whole text, by the number of its lines and the length of the last one. -/
def measuredExtent (source : String) : Range :=
  let characters := source.toList
  ⟨origin,
    ⟨1 + characters.count '\n', 1 + (characters.reverse.takeWhile (· ≠ '\n')).length⟩⟩

end ScriptMachine.Source
