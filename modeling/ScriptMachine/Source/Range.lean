/-!
# Positions and ranges of source text

Lines and columns count from one. A range ends just before its end position. Positions are ordered
by line, then column.
-/

namespace ScriptMachine.Source

structure Position where
  line : Nat
  column : Nat
  deriving DecidableEq, Repr, Inhabited

namespace Position

def ble (a b : Position) : Bool :=
  decide (a.line < b.line) || (a.line == b.line && decide (a.column ≤ b.column))

instance : LE Position := ⟨fun a b ↦ a.ble b = true⟩

instance : LT Position := ⟨fun a b ↦ a.ble b = true ∧ a ≠ b⟩

instance (a b : Position) : Decidable (a ≤ b) := inferInstanceAs (Decidable (a.ble b = true))

instance (a b : Position) : Decidable (a < b) :=
  inferInstanceAs (Decidable (a.ble b = true ∧ a ≠ b))

theorem le_iff {a b : Position} :
    a ≤ b ↔ a.line < b.line ∨ a.line = b.line ∧ a.column ≤ b.column := by
  change a.ble b = true ↔ _
  simp [ble]

def compare (a b : Position) : Ordering := if a = b then .eq else if a ≤ b then .lt else .gt

protected def min (a b : Position) : Position := if a ≤ b then a else b

protected def max (a b : Position) : Position := if a ≤ b then b else a

def advance (a : Position) (c : Char) : Position :=
  if c = '\n' then ⟨a.line + 1, 1⟩ else ⟨a.line, a.column + 1⟩

def text (a : Position) : String := s!"{a.line}:{a.column}"

end Position

structure Range where
  start : Position
  stop : Position
  deriving DecidableEq, Repr, Inhabited

namespace Range

def point (a : Position) : Range := ⟨a, a⟩

def isEmpty (r : Range) : Bool := decide (r.stop ≤ r.start)

/-- The smallest range that covers both. -/
def merge (a b : Range) : Range := ⟨a.start.min b.start, a.stop.max b.stop⟩

def mergeAll? : List Range → Option Range
  | [] => none
  | first :: rest => some (rest.foldl merge first)

def contains (outer inner : Range) : Bool :=
  decide (outer.start ≤ inner.start) && decide (inner.stop ≤ outer.stop)

def containsStrictly (outer inner : Range) : Bool := outer.contains inner && outer != inner

def overlaps (a b : Range) : Bool := decide (a.start < b.stop) && decide (b.start < a.stop)

def text (r : Range) : String := s!"{r.start.text}-{r.stop.text}"

end Range

end ScriptMachine.Source
