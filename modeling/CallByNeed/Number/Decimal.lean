import CallByNeed.Number

/- Decimal text of a number: the fewest digits that read back, the nearest of those, a tie going
   away from zero. Always positional, without an exponent and without a fraction of zeros. -/
namespace CallByNeed
namespace Number

/-- A positive value `value / unit` between two bounds over the same unit; the bounds themselves
    belong to the interval iff `closed`. -/
structure Interval where
  low : Nat
  value : Nat
  high : Nat
  unit : Nat
  closed : Bool

namespace Interval

/-- The reals that round to a positive finite number. Below a power of two they reach half as far. -/
def ofNumber (x : Number) : Interval :=
  let m := 4 * x.significand
  let below := if x.significand = 1 <<< 52 ∧ -1074 < x.exponent then 1 else 2
  let e := x.exponent - 2
  let scale := 1 <<< e.toNat
  { low := (m - below) * scale, value := m * scale, high := (m + 2) * scale,
    unit := 1 <<< (-e).toNat, closed := x.significand % 2 = 0 }

/-- The multiple of `10 ^ p` in the interval that is nearest to its value. -/
def gridPoint? (i : Interval) (p : Int) : Option Nat :=
  let scale := Nat.pow 10 (-p).toNat
  let step := i.unit * Nat.pow 10 p.toNat
  let value := i.value * scale
  let floor := value / step
  let below := floor * step
  let above := below + step
  let fitsBelow := if i.closed then i.low * scale ≤ below else i.low * scale < below
  let fitsAbove := if i.closed then above ≤ i.high * scale else above < i.high * scale
  if fitsBelow then
    if fitsAbove ∧ above - value ≤ value - below then some (floor + 1) else some floor
  else if fitsAbove then some (floor + 1) else none

/-- At least the decimal exponent of the value. -/
def coarsest (i : Interval) : Int :=
  (((Nat.log2 i.value : Int) - Nat.log2 i.unit + 1) * 30103).fdiv 100000 + 1

/-- Digits and exponent of the point on the coarsest decimal grid that meets the interval. Seventeen
    digits always meet it, so twenty-one grids suffice. -/
def shortest (i : Interval) : Nat × Int :=
  let start := i.coarsest
  ((List.range 21).findSome? fun (j : Nat) =>
    (i.gridPoint? (start - j)).map fun d => (d, start - j)).getD (0, 0)

end Interval

/-- The text of `d * 10 ^ e`, without an exponent. -/
def positional (d : Nat) (e : Int) : List Char :=
  let digits := Nat.toDigits 10 d
  if 0 ≤ e then digits ++ List.replicate e.toNat '0'
  else
    let places := (-e).toNat
    let padded := List.replicate (places + 1 - digits.length) '0' ++ digits
    let whole := padded.length - places
    let fraction := ((padded.drop whole).reverse.dropWhile (· == '0')).reverse
    padded.take whole ++ (if fraction.isEmpty then [] else '.' :: fraction)

def text (x : Number) : String :=
  if x.isNaN then "NaN"
  else
    let sign := if x.isNegative then ['-'] else []
    let digits :=
      if !x.isFinite then ['i', 'n', 'f']
      else if x.isZero then ['0']
      else
        let (d, e) := (Interval.ofNumber x).shortest
        positional d e
    String.ofList (sign ++ digits)

end Number
end CallByNeed
