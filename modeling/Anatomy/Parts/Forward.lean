import Anatomy.Parts.Basic

namespace Anatomy

structure Unforwardable where
  argument : Node
  deriving DecidableEq, Inhabited

def Unforwardable.message (u : Unforwardable) : String :=
  "Unexpected form of argument: " ++ u.argument.inspect

namespace Node

def unwhere : Node → Node
  | .expr .whereClause (target :: _) => target
  | node => node

def uncurly : Node → Node
  | .expr .curly (base :: _) => base
  | node => node

def lastMember : Node → Node
  | .expr .dot [_, .quoted value] => value
  | .expr .dot [_, value] => value
  | node => node

/-- Whether a type is written as `Vararg`, `Vararg{T}` or `Vararg{T, N}`, possibly qualified and with
a where clause. -/
def isVararg (type : Node) : Bool :=
  decide (type.unwhere.uncurly.lastMember = .symbol "Vararg")

def unsplat : Node → Bool × Node
  | .expr .splat [argument] => (true, argument)
  | argument => (false, argument)

def undefault : Node → Node
  | .expr .keyword [parameter, _] | .expr .assign [parameter, _] => parameter
  | parameter => parameter

def splatIf (splatted : Bool) (name : Node) : Node :=
  if splatted then .expr .splat [name] else name

/-- The argument that passes a parameter on: its name, splatted if the parameter takes any number of
values. -/
def forward (parameter : Node) : Except Unforwardable Node :=
  match parameter.unsplat with
  | (splatted, argument) =>
    match argument.undefault with
    | .symbol name => .ok (splatIf splatted (.symbol name))
    | .expr .ascription [name, type] => .ok (splatIf (splatted || type.isVararg) name)
    | other => .error ⟨other⟩

def forwardAll : List Node → Except Unforwardable (List Node)
  | [] => .ok []
  | parameter :: parameters =>
    match parameter.forward with
    | .error u => .error u
    | .ok argument =>
      match forwardAll parameters with
      | .error u => .error u
      | .ok arguments => .ok (argument :: arguments)

def forwardTuple (parameters : List Node) : Except Unforwardable Node :=
  match forwardAll parameters with
  | .error u => .error u
  | .ok arguments => .ok (.expr .tuple arguments)

end Node

def Parts.forward (p : Parts) : Except Unforwardable Node :=
  Node.forwardTuple (p.args.getD [])

end Anatomy
