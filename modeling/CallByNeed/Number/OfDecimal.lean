import CallByNeed.Number

/- Reading a decimal: the significand becomes a double and is multiplied or divided by powers of
   ten, each step rounded. Short decimals come out nearest; the smallest underflow to zero. -/
namespace CallByNeed
namespace Number

def tenTo (k : Nat) : Float := Float.ofScientific 1 false k

/-- `x * 10 ^ e`; none when it is out of range. Exponents below -308 are taken off in several steps,
    of which the third already reaches zero. -/
def scale (x : Float) (e : Int) : Nat → Option Float
  | 0 => some 0
  | steps + 1 =>
    if e.natAbs ≤ 308 then
      if 0 ≤ e then
        let y := x * tenTo e.toNat
        if y.isInf then none else some y
      else some (x / tenTo e.natAbs)
    else if x == 0 then some x
    else if 0 ≤ e then none
    else scale (x / tenTo 308) (e + 308) steps

/-- The number `significand * 10 ^ e` with the given sign; none when it is out of range. -/
def ofDecimal? (negative : Bool) (significand : Nat) (e : Int) : Option Number :=
  (scale (Float.ofNat significand) e 4).map fun x => ofFloat (if negative then -x else x)

end Number
end CallByNeed
