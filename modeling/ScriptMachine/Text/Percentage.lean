/-!
# Percentages

Shares in percent with one decimal. The quotient and the product with one hundred are each rounded
to a 53-bit significand, and the decimal is read off the exact value of the result. A tie always
goes to the even neighbour.
-/

namespace ScriptMachine.Text

/-- The natural nearest to a quotient; a tie goes to the even one. -/
def roundQuotient (numerator denominator : Nat) : Nat :=
  let q := numerator / denominator
  let r := numerator % denominator
  if 2 * r < denominator then q
  else if denominator < 2 * r then q + 1
  else q + q % 2

structure Quotient where
  numerator : Nat
  denominator : Nat
  deriving DecidableEq, Repr

namespace Quotient

def precision : Nat := 53

def scale (x : Quotient) (exponent : Int) : Quotient :=
  ⟨x.numerator <<< exponent.toNat, x.denominator <<< (-exponent).toNat⟩

/-- The exponent of the largest power of two that a positive quotient is not below. -/
def exponent (x : Quotient) : Int :=
  let e : Int := x.numerator.log2 - x.denominator.log2
  let y := x.scale (-e)
  if y.numerator < y.denominator then e - 1 else e

/-- A positive quotient with its excess bits rounded away. -/
def toPrecision (x : Quotient) : Quotient :=
  let shift : Int := precision - 1 - x.exponent
  let y := x.scale shift
  scale ⟨roundQuotient y.numerator y.denominator, 1⟩ (-shift)

def div (x y : Quotient) : Quotient :=
  ⟨x.numerator * y.denominator, x.denominator * y.numerator⟩

def ofNat (n : Nat) : Quotient := ⟨n, 1⟩

def oneDecimal (x : Quotient) : String :=
  let tenths := roundQuotient (10 * x.numerator) x.denominator
  s!"{tenths / 10}.{tenths % 10}"

end Quotient

def percentage (amount total : Nat) : String :=
  let part := (Quotient.ofNat amount).toPrecision
  let whole := (Quotient.ofNat total).toPrecision
  let share := (part.div whole).toPrecision
  (Quotient.toPrecision ⟨100 * share.numerator, share.denominator⟩).oneDecimal

end ScriptMachine.Text
