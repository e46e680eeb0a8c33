import Anatomy.Parts.Dissect

namespace Anatomy.Parts

/-- A definition is a long one unless its record says otherwise. -/
def leadingHead (p : Parts) : HeadSlot :=
  match p.head with
  | none => .known .function
  | some (.text "") => .known .function
  | some slot => slot

def checkedForm (slot : Slot) (value : HeadSlot) : Except Incomplete Form :=
  match value.form? with
  | some form => .ok form
  | none => .error (.notDefinitionHead slot value.spelling)

def displayName (p : Parts) : Except Incomplete (Option Node) :=
  match p.params, p.name with
  | none, name => .ok name
  | some params, some name => .ok (some (.expr .curly (name :: params)))
  | some _, none => .error .paramsWithoutName

def keywordNodes (p : Parts) : List Node :=
  match p.kwargs with
  | some keywords => [.expr .parameters keywords]
  | none => []

def parameterNodes (p : Parts) : List Node :=
  p.keywordNodes ++ p.args.getD []

/-- The parameters of a definition. A single parameter of an arrow stands alone, if the record holds
the arrow as a known head. -/
def parameterNode (head : HeadSlot) (name : Option Node) (p : Parts) : Node :=
  match name, head, p.kwargs, p.args with
  | some name, _, _, _ => .expr .call (name :: p.parameterNodes)
  | none, .known .arrow, none, some [parameter] => parameter
  | none, _, _, _ => .expr .tuple p.parameterNodes

def withReturn : Option Node → Node → Node
  | some rtype, signature => .expr .ascription [signature, rtype]
  | none, signature => signature

def withWhere : Option (List Node) → Node → Node
  | some constraints, signature => .expr .whereClause (signature :: constraints)
  | none, signature => signature

def signatureNode (head : HeadSlot) (name : Option Node) (p : Parts) : Node :=
  withWhere p.whereParams (withReturn p.rtype (p.parameterNode head name))

def bodySlots (p : Parts) : List Slot :=
  [Slot.args, .kwargs, .rtype, .whereParams].filter p.has

def assemblePlain (head : HeadSlot) (form : Form) (p : Parts) : Except Incomplete Node :=
  match p.displayName with
  | .error cause => .error cause
  | .ok name =>
    match p.body, p.bodySlots, name with
    | some body, _, name => .ok (.expr form.head [p.signatureNode head name, body])
    | none, [], some name => .ok (.expr form.head [name])
    | none, [], none => .error .nothingToDefine
    | none, slots, _ => .error (.slotsWithoutBody slots)

/-- Builds `name = <anonymous definition>`. -/
def assembleAssigned (form : Form) (innerHead : HeadSlot) (innerForm : Form) (p : Parts) :
    Except Incomplete Node :=
  match p.displayName with
  | .error cause => .error cause
  | .ok none => .error .assignedWithoutName
  | .ok (some name) =>
    match assemblePlain innerHead innerForm { p with name := none } with
    | .error cause => .error cause
    | .ok definition => .ok (.expr form.head [name, definition])

def assemble (p : Parts) : Except Incomplete Node :=
  match checkedForm .head p.leadingHead, p.anonHead with
  | .error cause, _ => .error cause
  | .ok form, none => p.assemblePlain p.leadingHead form
  | .ok form, some innerHead =>
    match checkedForm .anonHead innerHead with
    | .error cause => .error cause
    | .ok innerForm => p.assembleAssigned form innerHead innerForm

end Anatomy.Parts

namespace Anatomy

structure RoundTrip where
  parts : Parts
  tree : Node
  isEqual : Bool
  isEqualUnmarked : Bool
  again : Except Rejection Parts

inductive RoundTripFault
  | rejected (r : Rejection)
  | incomplete (cause : Incomplete)
  deriving DecidableEq, Inhabited

def Node.roundTrip (tree : Node) : Except RoundTripFault RoundTrip :=
  match tree.dissect with
  | .error r => .error (.rejected r)
  | .ok parts =>
    match parts.assemble with
    | .error cause => .error (.incomplete cause)
    | .ok assembled =>
      .ok {
        parts := parts
        tree := assembled
        isEqual := decide (assembled = tree)
        isEqualUnmarked := decide (assembled.withoutMarkers = tree.withoutMarkers)
        again := assembled.dissect }

end Anatomy
