import Anatomy.Node.Name
import Anatomy.Ty.Basic

namespace Anatomy

structure Unrenderable where
  value : Ty
  deriving Inhabited

def Unrenderable.message (u : Unrenderable) : String :=
  u.value.inspect ++ " is not a valid type parameter"

def TypeName.render (visible : List String) (n : TypeName) : Node :=
  if visible.contains n.home then .symbol n.name else Node.qualified n.qualified

theorem TypeName.isName_render (visible : List String) (n : TypeName) :
    (n.render visible).isName = true := by
  rw [render]
  split
  · rw [Node.isName]
  · exact Node.isName_qualified _

namespace Ty

/-- The declaration of a variable with those of its bounds that say something: `T`, `T <: U`,
`T >: L` or `L <: T <: U`. -/
def declarationNode (name : String) : Option Node → Option Node → Node
  | none, none => .symbol name
  | none, some upper => .expr .subtype [.symbol name, upper]
  | some lower, none => .expr .supertype [.symbol name, lower]
  | some lower, some upper =>
    .expr .comparison [lower, .symbol "<:", .symbol name, .symbol "<:", upper]

def boundUnless (trivial : Bool) (bound : Except Unrenderable Node) :
    Except Unrenderable (Option Node) :=
  if trivial then .ok none else bound.map some

def declaration (name : String) (lower upper : Except Unrenderable (Option Node)) :
    Except Unrenderable Node := do
  let lower ← lower
  let upper ← upper
  .ok (declarationNode name lower upper)

/-- Adds an outer constraint. Layers that follow one another share one clause, which lists the
outermost constraint first. -/
def constrain (constraint : Node) : Node → Node
  | .expr .whereClause (core :: constraints) =>
    .expr .whereClause (core :: constraint :: constraints)
  | core => .expr .whereClause [core, constraint]

mutual

def render (visible : List String) : Ty → Except Unrenderable Node
  | .nominal name [] => .ok (name.render visible)
  | .nominal name (param :: params) => do
    let param ← render visible param
    let params ← renderAll visible params
    .ok (.expr .curly (name.render visible :: param :: params))
  | .tuple params => do
    let params ← renderAll visible params
    .ok (.expr .curly (TypeName.tuple.render visible :: params))
  | .union members => do
    let members ← renderAll visible members
    .ok (.expr .curly (TypeName.union.render visible :: members))
  | .var name _ _ => .ok (.symbol name)
  | .unionAll name lower upper body => do
    let constraint ← declaration name (boundUnless lower.isBottom (render visible lower))
      (boundUnless upper.isAny (render visible upper))
    let body ← render visible body
    .ok (constrain constraint body)
  | .vararg element (.value .null) =>
    if element.isAny then .ok (TypeName.vararg.render visible)
    else do
      let element ← render visible element
      .ok (.expr .curly [TypeName.vararg.render visible, element])
  | .vararg element count => do
    let element ← render visible element
    let count ← render visible count
    .ok (.expr .curly [TypeName.vararg.render visible, element, count])
  | .symbol name => .ok (.quoted (.symbol name))
  | .bareName name => .error ⟨.bareName name⟩
  | .value (.text s) => .error ⟨.value (.text s)⟩
  | .value scalar => .ok (.literal scalar)

def renderAll (visible : List String) : List Ty → Except Unrenderable (List Node)
  | [] => .ok []
  | t :: ts => do
    let node ← render visible t
    let nodes ← renderAll visible ts
    .ok (node :: nodes)

end

end Ty

def TypeVar.constraint (visible : List String) (v : TypeVar) : Except Unrenderable Node :=
  Ty.declaration v.name (Ty.boundUnless v.lower.isBottom (v.lower.render visible))
    (Ty.boundUnless v.upper.isAny (v.upper.render visible))

namespace Ty

def constraints (visible : List String) : Ty → Except Unrenderable (List Node)
  | .unionAll name lower upper body => do
    let constraint ← TypeVar.constraint visible ⟨name, lower, upper⟩
    let rest ← constraints visible body
    .ok (constraint :: rest)
  | _ => .ok []

/-- The declarations of the variables bound in front of a type, the outermost first. There is no
list if there is no such layer. -/
def whereParameters (visible : List String) : Ty → Except Unrenderable (Option (List Node))
  | .unionAll name lower upper body =>
    (constraints visible (.unionAll name lower upper body)).map some
  | _ => .ok none

end Ty

end Anatomy
