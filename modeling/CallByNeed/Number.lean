/- Numbers of the language: IEEE doubles kept as their 64 bits. Order, equality and integrality are
   decided on integers; only the four operations, floor and power go through the machine. -/
namespace CallByNeed

/-- A double, as its bit pattern. -/
structure Number where
  bits : UInt64
  deriving DecidableEq, Repr

namespace Number

def ofFloat (x : Float) : Number := ⟨x.toBits⟩

def toFloat (x : Number) : Float := Float.ofBits x.bits

def ofNat (n : Nat) : Number := ofFloat (Float.ofNat n)

def zero : Number := ⟨0⟩
def negativeZero : Number := ⟨0x8000000000000000⟩
def one : Number := ⟨0x3FF0000000000000⟩
def minusOne : Number := ⟨0xBFF0000000000000⟩
def infinity : Number := ⟨0x7FF0000000000000⟩
def negativeInfinity : Number := ⟨0xFFF0000000000000⟩
def nan : Number := ⟨0x7FF8000000000000⟩

/-- Exponent and fraction bits, read as one natural number. -/
def magnitude (x : Number) : Nat := x.bits.toNat % (1 <<< 63)

def isNegative (x : Number) : Bool := 1 <<< 63 ≤ x.bits.toNat

/-- The magnitude of an infinity; every larger one is a NaN. -/
def infiniteMagnitude : Nat := 2047 <<< 52

def isNaN (x : Number) : Bool := infiniteMagnitude < x.magnitude

def isFinite (x : Number) : Bool := x.magnitude < infiniteMagnitude

def isZero (x : Number) : Bool := x.magnitude == 0

/-- Place in the total order: all NaN share the greatest place, both zeros share 0. -/
def rank (x : Number) : Int :=
  if x.isNaN then infiniteMagnitude + 1
  else if x.isNegative then -(x.magnitude : Int)
  else x.magnitude

def compare (x y : Number) : Ordering := Ord.compare x.rank y.rank

/-- Equality of the order: a NaN equals itself and 0 equals -0. -/
def same (x y : Number) : Bool := x.rank == y.rank

/-- The integer `m` of the value `m * 2 ^ exponent` of a finite number without its sign. -/
def significand (x : Number) : Nat :=
  if x.magnitude < 1 <<< 52 then x.magnitude else x.magnitude % (1 <<< 52) + (1 <<< 52)

def exponent (x : Number) : Int :=
  if x.magnitude < 1 <<< 52 then -1074 else (x.magnitude >>> 52 : Nat) - 1075

/-- The integer a number stands for; infinities, NaN and fractions stand for none. -/
def toInt? (x : Number) : Option Int :=
  if x.isFinite then
    let whole? : Option Nat :=
      if 0 ≤ x.exponent then some (x.significand <<< x.exponent.toNat)
      else
        let unit := 1 <<< (-x.exponent).toNat
        if x.significand % unit = 0 then some (x.significand / unit) else none
    whole?.map fun n => if x.isNegative then -(n : Int) else n
  else none

/-- The number without its fraction, kept between 0 and `limit`; NaN gives 0. -/
def saturate (limit : Nat) (x : Number) : Nat :=
  if x.isNaN || x.isNegative then 0
  else if x.isFinite then
    min limit <|
      if 0 ≤ x.exponent then x.significand <<< x.exponent.toNat
      else x.significand >>> (-x.exponent).toNat
  else limit

/-- The number with value `m * 2 ^ e` when it has one; bits that do not fit are dropped. -/
def ofDyadic (negative : Bool) (m : Nat) (e : Int) : Number :=
  let sign := if negative then 1 <<< 63 else 0
  if m = 0 then ⟨UInt64.ofNat sign⟩
  else
    let target : Int := max (e + Nat.log2 m - 52) (-1074)
    let aligned := if e ≤ target then m >>> (target - e).toNat else m <<< (e - target).toNat
    let biased := (target + 1075).toNat
    if aligned < 1 <<< 52 then ⟨UInt64.ofNat (sign + aligned)⟩
    else if 2047 ≤ biased then ⟨UInt64.ofNat (sign + infiniteMagnitude)⟩
    else ⟨UInt64.ofNat (sign + (biased <<< 52) + (aligned - (1 <<< 52)))⟩

def add (x y : Number) : Number := ofFloat (x.toFloat + y.toFloat)
def sub (x y : Number) : Number := ofFloat (x.toFloat - y.toFloat)
def mul (x y : Number) : Number := ofFloat (x.toFloat * y.toFloat)
def div (x y : Number) : Number := ofFloat (x.toFloat / y.toFloat)

/-- The quotient rounded down. -/
def floorDiv (x y : Number) : Number := ofFloat (x.toFloat / y.toFloat).floor

def power (x y : Number) : Number := ofFloat (Float.pow x.toFloat y.toFloat)

/-- The exact remainder of the truncated quotient, with the sign of the dividend. -/
def remainder (x y : Number) : Number :=
  if x.isNaN || y.isNaN || !x.isFinite || y.isZero then nan
  else if !y.isFinite then x
  else
    let e := min x.exponent y.exponent
    let a := x.significand <<< (x.exponent - e).toNat
    let b := y.significand <<< (y.exponent - e).toNat
    ofDyadic x.isNegative (a % b) e

end Number
end CallByNeed
