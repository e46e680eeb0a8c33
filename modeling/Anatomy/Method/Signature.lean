import Anatomy.Parts.Basic
import Anatomy.Ty.Render

namespace Anatomy

open Text.Quoted Text.Sequence

/-- What is known of a compiled method: the name of the function, the names of its slots, of which
the first is the receiver, the type of its signature, and the names of its keywords. -/
structure Method where
  name : String
  slotNames : List String
  signatureType : Ty
  keywordNames : Option (List String) := none

namespace Method

def receiverSlot : String := "#self#"
def unusedSlot : String := "#unused#"

def parameterTypes (m : Method) : Except Unparametric (List Ty) :=
  m.signatureType.parameters.map List.tail

end Method

inductive SignatureFault
  | unparametric (u : Unparametric)
  | noCallee (type : Ty)
  | receiver (slotNames : List String)
  | fewSlots (types names : Nat)
  | unrenderable (u : Unrenderable)
  deriving Inhabited

def SignatureFault.message : SignatureFault → String
  | .unparametric u => u.message
  | .noCallee type => "Signature type " ++ type.inspect ++ " has no callee type"
  | .receiver slotNames =>
    "Expected first slot name " ++ quote Method.receiverSlot ++ ", got " ++
      bracketed (slotNames.map quote)
  | .fewSlots types names =>
    "Record has " ++ toString types ++ " parameter types but only " ++ toString names ++
      " parameter slot names"
  | .unrenderable u => u.message

namespace Signature

def split (type : Ty) : Except SignatureFault (Ty × List Ty) :=
  match type.parameters with
  | .error u => .error (.unparametric u)
  | .ok [] => .error (.noCallee type)
  | .ok (callee :: types) => .ok (callee, types)

/-- The type that a constructor makes. Its parameters are those of the name only if none of them is
left to be bound. -/
def constructed? : Ty → Option (TypeName × List Ty)
  | .nominal name (target :: _) =>
    if name = .type then
      match target, target.unwrap with
      | .nominal made params, _ => some (made, params)
      | _, .nominal made _ => some (made, [])
      | _, _ => none
    else none
  | _ => none

def absentIfEmpty (nodes : List Node) : Option (List Node) :=
  if nodes.isEmpty then none else some nodes

def nameParts (visible : List String) (name : String) (callee : Ty) : Except Unrenderable Parts :=
  match constructed? callee with
  | none => .ok { name := some (.symbol name) }
  | some (made, params) =>
    match Ty.renderAll visible params with
    | .error u => .error u
    | .ok nodes => .ok { name := some (made.render visible), params := absentIfEmpty nodes }

def parameterNames (slotNames : List String) (count : Nat) :
    Except SignatureFault (List String) :=
  match slotNames with
  | [] => .error (.receiver [])
  | first :: names =>
    if first = Method.receiverSlot then
      if names.length < count then .error (.fewSlots count names.length)
      else .ok (names.take count)
    else .error (.receiver slotNames)

/-- A parameter: `x`, `x::T` or, if it has no name, `::T`. -/
def parameter (visible : List String) (name : String) (type : Ty) : Except Unrenderable Node :=
  if name = Method.unusedSlot then
    (type.render visible).map fun node => .expr .ascription [node]
  else if type.isAny then .ok (.symbol name)
  else (type.render visible).map fun node => .expr .ascription [.symbol name, node]

def parameters (visible : List String) : List (String × Ty) → Except Unrenderable (List Node)
  | [] => .ok []
  | (name, type) :: rest => do
    let node ← parameter visible name type
    let nodes ← parameters visible rest
    .ok (node :: nodes)

def splatted? (name : String) : Option String :=
  match name.toList.reverse with
  | '.' :: '.' :: '.' :: rest => some (String.ofList rest.reverse)
  | _ => none

def keyword (name : String) : Node :=
  match splatted? name with
  | some collected => .expr .splat [.symbol collected]
  | none => .symbol name

def complete (visible : List String) (type : Ty) (named : List (String × Ty)) (parts : Parts) :
    Except Unrenderable Parts := do
  let nodes ← parameters visible named
  let constraints ← type.whereParameters visible
  .ok { parts with args := absentIfEmpty nodes, whereParams := constraints }

def ofCallee (visible : List String) (m : Method) (type callee : Ty) (types : List Ty) :
    Except SignatureFault Parts :=
  match nameParts visible m.name callee with
  | .error u => .error (.unrenderable u)
  | .ok parts =>
    match parameterNames m.slotNames types.length with
    | .error fault => .error fault
    | .ok names =>
      (complete visible type (names.zip types)
        { parts with kwargs := absentIfEmpty ((m.keywordNames.getD []).map keyword) }).mapError
        .unrenderable

def numberedNames (count : Nat) : List String :=
  (List.range count).map fun i => "x" ++ toString (i + 1)

/-- The parts that a type alone tells: the name is `op::T` for the type of the callee, and the
parameters are numbered. -/
def ofType (visible : List String) (type callee : Ty) (types : List Ty) :
    Except SignatureFault Parts :=
  match callee.render visible with
  | .error u => .error (.unrenderable u)
  | .ok node =>
    (complete visible type ((numberedNames types.length).zip types)
      { name := some (.expr .ascription [.symbol "op", node]) }).mapError .unrenderable

end Signature

end Anatomy
