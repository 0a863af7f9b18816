import ScriptMachine.Source.Sample

/-!
# Coverage

Which parts of a source text no executed sample covers.
-/

namespace ScriptMachine.Source

def Position.clampTo (a : Position) (r : Range) : Position :=
  if a < r.start then r.start else if r.stop < a then r.stop else a

def Range.ble (a b : Range) : Bool :=
  decide (a.start < b.start) || (a.start == b.start && decide (a.stop ≤ b.stop))

/-- The gaps that ranges leave between `cursor` and the end of the whole. The ranges are sorted. -/
def gaps (whole : Range) (cursor : Position) : List Range → List Range
  | [] => if cursor < whole.stop then [⟨cursor, whole.stop⟩] else []
  | r :: rest =>
    let start := r.start.clampTo whole
    let others := gaps whole (cursor.max (r.stop.clampTo whole)) rest
    if cursor < start then ⟨cursor, start⟩ :: others else others

def uncovered (whole : Range) (covered : List Range) : List Range :=
  gaps whole whole.start (covered.mergeSort Range.ble)

/-- The ranges that were executed, given each sample's range and whether it was. Without any sample,
a hint counts as an executed point. -/
def executedRanges (samples : List (Range × Bool)) (hint : Option Position) : List Range :=
  if samples.isEmpty then (hint.map Range.point).toList
  else (samples.filter (·.2)).map (·.1)

def unexecuted (whole : Range) (samples : List (Range × Bool)) (hint : Option Position) :
    List Range :=
  uncovered whole (executedRanges samples hint)

def Sample.brief (s : Sample) : Range × Bool := (s.range, s.executed)

end ScriptMachine.Source
