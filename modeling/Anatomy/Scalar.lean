import Anatomy.Number.FloatLit
import Anatomy.Text.Quoted

namespace Anatomy

/-- A plain value: a literal of a program, or a value among the parameters of a type. -/
inductive Scalar
  | null
  | bool (b : Bool)
  | int (n : Int)
  | float (x : FloatLit)
  | text (s : String)
  deriving DecidableEq

inductive Quantity
  | whole (n : Int)
  | fraction (negative : Bool) (magnitude : Decimal)
  | infinite (negative : Bool)
  | undefined (payload : Nat)
  deriving DecidableEq

def FloatLit.quantity : FloatLit → Quantity
  | .nan payload => .undefined payload
  | .infinite negative => .infinite negative
  | .finite negative d =>
    match d.whole? with
    | some n => .whole (if negative then -(n : Int) else n)
    | none => .fraction negative d

namespace Scalar

def inspect : Scalar → String
  | .null => "None"
  | .bool true => "True"
  | .bool false => "False"
  | .int n => toString n
  | .float x => x.inspect
  | .text s => Text.Quoted.quote s

def same : Scalar → Scalar → Bool
  | .null, .null => true
  | .bool a, .bool b => a == b
  | .int m, .int n => m == n
  | .float x, .float y => x.same y
  | .text s, .text t => s == t
  | _, _ => false

def quantity? : Scalar → Option Quantity
  | .bool b => some (.whole (if b then 1 else 0))
  | .int n => some (.whole n)
  | .float x => some x.quantity
  | _ => none

/-- Equality of value, where a truth value counts as one or zero and numbers of different kinds are
equal if they are worth the same. -/
def sameWorth (a b : Scalar) : Bool :=
  match a, b with
  | .null, .null => true
  | .text s, .text t => s == t
  | a, b =>
    match a.quantity?, b.quantity? with
    | some p, some q => decide (p = q)
    | _, _ => false

end Scalar

end Anatomy
