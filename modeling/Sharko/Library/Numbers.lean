import Mathlib.Data.Int.Log
import Mathlib.Data.Rat.Floor

/-! The numbers of ECMAScript: binary64 with its rounding on exact rationals, the conversions to 32-bit
integers, and what both leave of the integers. -/

namespace Sharko.Library

/-- A finite number is an exact rational; the two zeros differ. -/
inductive Number where
  | nan
  | infinity (negative : Bool)
  | negZero
  | finite (q : ℚ)
  deriving DecidableEq

namespace Number

def ofInt (z : ℤ) : Number := finite z

def value : Number → ℚ
  | finite q => q
  | _ => 0

def roundHalfEven (q : ℚ) : ℤ :=
  let f := ⌊q⌋
  if q - f < 1 / 2 then f
  else if 1 / 2 < q - f then f + 1
  else if f % 2 = 0 then f else f + 1

def lastPlace (q : ℚ) : ℤ := max (Int.log 2 |q| - 52) (-1074)

def round (q : ℚ) : Number :=
  let n := roundHalfEven (q / 2 ^ lastPlace q)
  let r : ℚ := n * 2 ^ lastPlace q
  if 2 ^ 1024 ≤ |r| then infinity (decide (q < 0))
  else if n = 0 ∧ q < 0 then negZero
  else finite r

def isNegative : Number → Bool
  | nan => false
  | infinity negative => negative
  | negZero => true
  | finite q => decide (q < 0)

def isZero : Number → Bool
  | negZero => true
  | finite q => decide (q = 0)
  | _ => false

def zero (negative : Bool) : Number := if negative then negZero else finite 0

def neg : Number → Number
  | nan => nan
  | infinity negative => infinity !negative
  | negZero => finite 0
  | finite q => if q = 0 then negZero else finite (-q)

def add : Number → Number → Number
  | nan,_ | _,nan => nan
  | infinity a,infinity b => if a = b then infinity a else nan
  | infinity a,_ | _,infinity a => infinity a
  | negZero,negZero => negZero
  | a,b => round (a.value + b.value)

def sub (a b : Number) : Number := add a b.neg

def mul (a b : Number) : Number :=
  let negative := a.isNegative ^^ b.isNegative
  match a,b with
  | nan,_ | _,nan => nan
  | infinity _,x | x,infinity _ => if x.isZero then nan else infinity negative
  | a,b => if a.isZero || b.isZero then zero negative else round (a.value * b.value)

def div (a b : Number) : Number :=
  let negative := a.isNegative ^^ b.isNegative
  match a,b with
  | nan,_ | _,nan => nan
  | infinity _,infinity _ => nan
  | infinity _,_ => infinity negative
  | _,infinity _ => zero negative
  | a,b =>
    if b.isZero then if a.isZero then nan else infinity negative
    else if a.isZero then zero negative
    else round (a.value / b.value)

def truncated (q : ℚ) : ℤ := if q < 0 then ⌈q⌉ else ⌊q⌋

def rem (a b : Number) : Number :=
  match a,b with
  | nan,_ | _,nan | infinity _,_ => nan
  | a,infinity _ => a
  | a,b =>
    if b.isZero then nan
    else
      let r := a.value - b.value * truncated (a.value / b.value)
      if r = 0 then zero a.isNegative else finite r

def lt : Number → Number → Bool
  | nan,_ | _,nan => false
  | infinity a,infinity b => a && !b
  | infinity a,_ => a
  | _,infinity b => !b
  | a,b => decide (a.value < b.value)

def eq : Number → Number → Bool
  | nan,_ | _,nan => false
  | infinity a,infinity b => a == b
  | infinity _,_ | _,infinity _ => false
  | a,b => decide (a.value = b.value)

def le (a b : Number) : Bool := a.lt b || a.eq b

def isNaN : Number → Bool
  | nan => true
  | _ => false

def toInt : Number → ℤ
  | finite q => truncated q
  | _ => 0

def bits (x : Number) : BitVec 32 := BitVec.ofInt 32 x.toInt

def ofSigned (b : BitVec 32) : Number := ofInt b.toInt

def ofUnsigned (b : BitVec 32) : Number := ofInt b.toNat

def toInt32 (x : Number) : Number := ofSigned x.bits

def toUint32 (x : Number) : Number := ofUnsigned x.bits

def floor : Number → Number
  | finite q => finite ⌊q⌋
  | x => x

def trunc : Number → Number
  | finite q => if q < 0 ∧ truncated q = 0 then negZero else finite (truncated q)
  | x => x

def imul (a b : Number) : Number := ofSigned (a.bits * b.bits)

end Number

end Sharko.Library
