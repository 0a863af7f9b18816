import ScriptMachine.Bytes
import ScriptMachine.Curve.Point

/-!
# Public keys as bytes

A public key is a point other than infinity. Its written forms are one tag byte and one or both
coordinates of thirty-two bytes each: `02` and `03` give the parity of the second coordinate, `05`
stands for the even one, and `04` is followed by both coordinates.
-/

namespace ScriptMachine

namespace Curve

variable (c : Curve)

/-- The point with this first coordinate whose second coordinate has the given parity. -/
def lift? (x parity : Nat) : Option Point :=
  if x < c.p then
    (Modular.sqrt? c.p (c.cubic x)).map fun y ↦
      .affine x (if y % 2 = parity then y else Modular.sub c.p 0 y)
  else none

def readKey? : Bytes → Option Point
  | [] => none
  | tag :: rest =>
    if tag = 4 then
      if rest.length = 64 then
        let q := Point.affine (Bytes.toNatBE (rest.take 32)) (Bytes.toNatBE (rest.drop 32))
        if c.isOn q then some q else none
      else none
    else if rest.length = 32 then
      if tag = 2 ∨ tag = 5 then c.lift? (Bytes.toNatBE rest) 0
      else if tag = 3 then c.lift? (Bytes.toNatBE rest) 1
      else none
    else none

end Curve

/-- Writes a point in the short form, or in the long form with both coordinates. -/
def Point.write (compressed : Bool) : Point → Bytes
  | .infinity => [0]
  | .affine x y =>
    if compressed then (if y % 2 = 0 then 2 else 3) :: Bytes.ofNatBE 32 x
    else 4 :: (Bytes.ofNatBE 32 x ++ Bytes.ofNatBE 32 y)

end ScriptMachine
