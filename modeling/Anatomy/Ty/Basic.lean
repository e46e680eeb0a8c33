import Anatomy.Scalar

namespace Anatomy

open Text.Quoted Text.Sequence

/-- The name of a type and the dotted path of the module it is at home in. -/
structure TypeName where
  name : String
  home : String
  deriving DecidableEq, Inhabited

namespace TypeName

def qualified (n : TypeName) : String :=
  n.home ++ "." ++ n.name

def inspect (n : TypeName) : String :=
  "TypeName(name=" ++ quote n.name ++ ", module=" ++ quote n.home ++ ")"

def ofFunction (function home : String) : TypeName :=
  ⟨"typeof(" ++ function ++ ")", home⟩

def any : TypeName := ⟨"Any", "Core"⟩
def type : TypeName := ⟨"Type", "Core"⟩
def tuple : TypeName := ⟨"Tuple", "Core"⟩
def union : TypeName := ⟨"Union", "Core"⟩
def vararg : TypeName := ⟨"Vararg", "Core"⟩

end TypeName

/-- A resolved type, or anything else that can stand among the parameters of one. A variable
carries its bounds at every occurrence. The count of a `vararg` is the null value if it is left
open. A `bareName` and a text are no types, yet they may turn up where a type is due. -/
inductive Ty
  | nominal (name : TypeName) (params : List Ty)
  | tuple (params : List Ty)
  | union (members : List Ty)
  | var (name : String) (lower upper : Ty)
  | unionAll (name : String) (lower upper body : Ty)
  | vararg (element count : Ty)
  | symbol (name : String)
  | bareName (name : TypeName)
  | value (scalar : Scalar)

structure TypeVar where
  name : String
  lower : Ty
  upper : Ty

namespace Ty

instance : Inhabited Ty := ⟨.union []⟩

def any : Ty := .nominal .any []

def bottom : Ty := .union []

def isAny : Ty → Bool
  | .nominal name [] => decide (name = .any)
  | _ => false

def isBottom : Ty → Bool
  | .union [] => true
  | _ => false

def typeOf (target : Ty) : Ty :=
  .nominal .type [target]

def functionType (function home : String) : Ty :=
  .nominal (.ofFunction function home) []

def unwrap : Ty → Ty
  | .unionAll _ _ _ body => unwrap body
  | t => t

def bind (vars : List TypeVar) (body : Ty) : Ty :=
  vars.foldr (fun v t => .unionAll v.name v.lower v.upper t) body

/-- The word for the kind of a type, by which members of a union are sorted first. -/
def label : Ty → String
  | .nominal _ _ => "DataType"
  | .tuple _ => "TupleType"
  | .union _ => "UnionType"
  | .var _ _ _ => "TypeVar"
  | .unionAll _ _ _ _ => "UnionAll"
  | .vararg _ _ => "Vararg"
  | .symbol _ => "Symbol"
  | .bareName _ => "TypeName"
  | .value .null => "NoneType"
  | .value (.bool _) => "bool"
  | .value (.int _) => "int"
  | .value (.float _) => "float"
  | .value (.text _) => "str"

def inspectVar (name lower upper : String) : String :=
  "TypeVar(name=" ++ quote name ++ ", lb=" ++ lower ++ ", ub=" ++ upper ++ ")"

mutual

def inspect : Ty → String
  | .nominal name params =>
    "DataType(name=" ++ name.inspect ++ ", parameters=" ++ parenthesized (inspectAll params) ++ ")"
  | .tuple params => "TupleType(parameters=" ++ parenthesized (inspectAll params) ++ ")"
  | .union members => "UnionType(members=" ++ parenthesized (inspectAll members) ++ ")"
  | .var name lower upper => inspectVar name (inspect lower) (inspect upper)
  | .unionAll name lower upper body =>
    "UnionAll(var=" ++ inspectVar name (inspect lower) (inspect upper) ++
      ", body=" ++ inspect body ++ ")"
  | .vararg element count =>
    "Vararg(element=" ++ inspect element ++ ", count=" ++ inspect count ++ ")"
  | .symbol name => "Symbol(name=" ++ quote name ++ ")"
  | .bareName name => name.inspect
  | .value scalar => scalar.inspect

def inspectAll : List Ty → List String
  | [] => []
  | t :: ts => inspect t :: inspectAll ts

end

end Ty

def TypeVar.toTy (v : TypeVar) : Ty :=
  .var v.name v.lower v.upper

structure Unparametric where
  value : Ty
  deriving Inhabited

def Unparametric.message (u : Unparametric) : String :=
  "Cannot extract type parameters from " ++ u.value.inspect

namespace Ty

/-- Writes a fixed number of repetitions out. A count below one gives none. -/
def expandCounts : List Ty → List Ty
  | [] => []
  | .vararg element (.value (.int n)) :: ts => List.replicate n.toNat element ++ expandCounts ts
  | t :: ts => t :: expandCounts ts

def parameters : Ty → Except Unparametric (List Ty)
  | .unionAll _ _ _ body => parameters body
  | .nominal _ params => .ok params
  | .tuple params => .ok (expandCounts params)
  | .union members => .ok members
  | .vararg element (.value .null) => .ok [element]
  | .vararg element count => .ok [element, count]
  | .var _ _ _ => .ok []
  | t => .error ⟨t⟩

end Ty

end Anatomy
