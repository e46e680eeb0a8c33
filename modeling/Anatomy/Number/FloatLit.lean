import Anatomy.Number.Decimal

namespace Anatomy

/-- A floating point number, given by the shortest decimal that stands for it. What is not a number
carries a payload, which tells it from others of its kind and is not shown. -/
inductive FloatLit
  | nan (payload : Nat)
  | infinite (negative : Bool)
  | finite (negative : Bool) (magnitude : Decimal)
  deriving DecidableEq

namespace FloatLit

def signed (negative : Bool) (cs : List Char) : List Char :=
  if negative then '-' :: cs else cs

def write : FloatLit → List Char
  | .nan _ => ['n', 'a', 'n']
  | .infinite negative => signed negative ['i', 'n', 'f']
  | .finite negative d => signed negative d.write

def inspect (x : FloatLit) : String :=
  String.ofList x.write

def readSigned (negative : Bool) (cs : List Char) : Option FloatLit :=
  if cs = ['i', 'n', 'f'] then some (.infinite negative)
  else (Decimal.read? cs).map (.finite negative)

def readPayload : List Char → Option Nat
  | [] => some 0
  | '(' :: cs => if cs.getLast? = some ')' then Decimal.readNatural cs.dropLast else none
  | _ => none

def readChars : List Char → Option FloatLit
  | 'n' :: 'a' :: 'n' :: cs => (readPayload cs).map .nan
  | '-' :: cs => readSigned true cs
  | cs => readSigned false cs

def read? (text : String) : Option FloatLit :=
  readChars text.toList

/-- Equality of numbers: zero has two signs, and what is not a number equals nothing but itself. -/
def same : FloatLit → FloatLit → Bool
  | .nan p, .nan q => p == q
  | .infinite s, .infinite t => s == t
  | .finite s d, .finite t e => decide (d = e) && (d.isZero || s == t)
  | _, _ => false

end FloatLit

end Anatomy
