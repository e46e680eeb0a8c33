namespace Anatomy

/-- The number `digits * 10 ^ exponent`. The last digit is not zero, so that every number has one
form; zero has the exponent zero. -/
structure Decimal where
  digits : Nat
  exponent : Int
  normal : digits % 10 ≠ 0 ∨ digits = 0 ∧ exponent = 0
  deriving DecidableEq

namespace Decimal

def zero : Decimal := ⟨0, 0, .inr ⟨rfl, rfl⟩⟩

def isZero (d : Decimal) : Bool :=
  d.digits == 0

def leading (d : Decimal) : Int :=
  d.exponent + (Nat.toDigits 10 d.digits).length - 1

def isPositional (d : Decimal) : Bool :=
  decide (-4 ≤ d.leading) && decide (d.leading < 16)

def zeros (n : Int) : List Char :=
  List.replicate n.toNat '0'

def writePositional (d : Decimal) : List Char :=
  let ds := Nat.toDigits 10 d.digits
  if 0 ≤ d.exponent then ds ++ zeros d.exponent ++ ['.', '0']
  else if 0 ≤ d.leading then
    ds.take (d.leading + 1).toNat ++ '.' :: ds.drop (d.leading + 1).toNat
  else '0' :: '.' :: zeros (-1 - d.leading) ++ ds

def writeExponent (x : Int) : List Char :=
  let ds := Nat.toDigits 10 x.natAbs
  (if x < 0 then '-' else '+') :: zeros (2 - ds.length) ++ ds

def writeScientific (d : Decimal) : List Char :=
  match Nat.toDigits 10 d.digits with
  | first :: second :: rest =>
    first :: '.' :: second :: rest ++ 'e' :: writeExponent d.leading
  | ds => ds ++ 'e' :: writeExponent d.leading

def write (d : Decimal) : List Char :=
  if d.isPositional then d.writePositional else d.writeScientific

def readNatural (cs : List Char) : Option Nat :=
  if !cs.isEmpty && cs.all Char.isDigit then some (Nat.ofDigitChars 10 cs 0) else none

def readExponent : List Char → Option Int
  | [] => some 0
  | 'e' :: '-' :: cs => (readNatural cs).map fun n => -(n : Int)
  | 'e' :: '+' :: cs => (readNatural cs).map fun n => (n : Int)
  | 'e' :: cs => (readNatural cs).map fun n => (n : Int)
  | _ => none

/-- The number whose digits, read as one natural number, are to be scaled by a power of ten. Zeros
at the end go into the exponent. -/
def ofDigits (cs : List Char) (exponent : Int) : Option Decimal := do
  let kept := (cs.reverse.dropWhile (· == '0')).reverse
  if kept.isEmpty then some zero
  else
    let m ← readNatural kept
    let e := exponent + (cs.length - kept.length)
    if h : m % 10 ≠ 0 ∨ m = 0 ∧ e = 0 then some ⟨m, e, h⟩ else none

def read? (cs : List Char) : Option Decimal := do
  let mantissa := cs.takeWhile (· != 'e')
  let exponent ← readExponent (cs.dropWhile (· != 'e'))
  let whole := mantissa.takeWhile (· != '.')
  let fraction := (mantissa.dropWhile (· != '.')).drop 1
  let _ ← readNatural (whole ++ fraction)
  ofDigits (whole ++ fraction) (exponent - fraction.length)

/-- The nearest number of at most 53 binary digits; of two that are equally near, the even one. -/
def roundBinary (n : Nat) : Nat :=
  let shift := n.log2 + 1 - 53
  let unit := Nat.pow 2 shift
  let quotient := n / unit
  let twice := 2 * (n % unit)
  if twice > unit || (twice == unit && quotient % 2 == 1) then (quotient + 1) * unit
  else quotient * unit

def whole? (d : Decimal) : Option Nat :=
  if 0 ≤ d.exponent then some (roundBinary (d.digits * Nat.pow 10 d.exponent.toNat)) else none

end Decimal

end Anatomy
