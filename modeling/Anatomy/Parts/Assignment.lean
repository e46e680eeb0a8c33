import Anatomy.Parts.Basic

namespace Anatomy

open Text.Quoted Text.Sequence

inductive Assignment
  | head (value : HeadSlot)
  | name (value : Node)
  | anonHead (value : HeadSlot)
  | params (value : List Node)
  | args (value : List Node)
  | kwargs (value : List Node)
  | rtype (value : Node)
  | whereParams (value : List Node)
  | body (value : Node)
  | absent (slot : Slot)
  | unknown (label : String)
  deriving DecidableEq, Inhabited

inductive MappingFault
  | unknownSlots (labels : List String)
  | incomplete (cause : Incomplete)
  deriving DecidableEq, Inhabited

/-- The text about unknown slots is itself shown as a quoted text. -/
def MappingFault.message : MappingFault → String
  | .unknownSlots labels =>
    quote ("Unknown slots: " ++ bracketed (labels.map quote) ++ ". Valid slots: " ++
      bracketed (Slot.all.map fun slot => quote slot.label))
  | .incomplete cause => cause.message

namespace Assignment

def unknownLabel? : Assignment → Option String
  | .unknown label => some label
  | _ => none

def label : Assignment → String
  | .head _ => Slot.head.label
  | .name _ => Slot.name.label
  | .anonHead _ => Slot.anonHead.label
  | .params _ => Slot.params.label
  | .args _ => Slot.args.label
  | .kwargs _ => Slot.kwargs.label
  | .rtype _ => Slot.rtype.label
  | .whereParams _ => Slot.whereParams.label
  | .body _ => Slot.body.label
  | .absent slot => slot.label
  | .unknown label => label

def put (entry : Assignment) : List Assignment → List Assignment
  | [] => [entry]
  | other :: entries =>
    if other.label = entry.label then entry :: entries else other :: put entry entries

/-- The mapping that entries make one after the other: a slot stands where it was named first, and
has the value that it was given last. -/
def collect (entries : List Assignment) : List Assignment :=
  entries.foldl (fun mapping entry => put entry mapping) []

def definitionHead (slot : Slot) (value : HeadSlot) : Except Incomplete HeadSlot :=
  match value.head? with
  | none => .error (.unknownHead slot value.spelling)
  | some kind =>
    match kind.form? with
    | none => .error (.notDefinitionHead slot kind.text)
    | some _ => .ok (.known kind)

def resolve : Assignment → Except Incomplete Assignment
  | .head value => (definitionHead .head value).map .head
  | .anonHead value => (definitionHead .anonHead value).map .anonHead
  | entry => .ok entry

end Assignment

namespace Parts

def erase (p : Parts) : Slot → Parts
  | .head => { p with head := none }
  | .name => { p with name := none }
  | .anonHead => { p with anonHead := none }
  | .params => { p with params := none }
  | .args => { p with args := none }
  | .kwargs => { p with kwargs := none }
  | .rtype => { p with rtype := none }
  | .whereParams => { p with whereParams := none }
  | .body => { p with body := none }

def set (p : Parts) : Assignment → Parts
  | .head value => { p with head := some value }
  | .name value => { p with name := some value }
  | .anonHead value => { p with anonHead := some value }
  | .params value => { p with params := some value }
  | .args value => { p with args := some value }
  | .kwargs value => { p with kwargs := some value }
  | .rtype value => { p with rtype := some value }
  | .whereParams value => { p with whereParams := some value }
  | .body value => { p with body := some value }
  | .absent slot => p.erase slot
  | .unknown _ => p

def setResolved (p : Parts) : List Assignment → Except Incomplete Parts
  | [] => .ok p
  | entry :: entries =>
    match entry.resolve with
    | .error cause => .error cause
    | .ok resolved => (p.set resolved).setResolved entries

/-- The record that a mapping describes. Unknown slots are looked for first; then the entries are
taken in order, and the first bad head among them is the one that is reported. -/
def ofAssignments (entries : List Assignment) : Except MappingFault Parts :=
  match textSet (entries.filterMap Assignment.unknownLabel?) with
  | [] => (({} : Parts).setResolved entries).mapError .incomplete
  | labels => .error (.unknownSlots labels)

def ofUnchecked (entries : List Assignment) : Parts :=
  entries.foldl set {}

def assignments (p : Parts) : List Assignment :=
  [p.head.map .head, p.name.map .name, p.anonHead.map .anonHead, p.params.map .params,
    p.args.map .args, p.kwargs.map .kwargs, p.rtype.map .rtype, p.whereParams.map .whereParams,
    p.body.map Assignment.body].filterMap id

def rebuild (p : Parts) : Except MappingFault Parts :=
  ofAssignments p.assignments

def isRebuilt (p : Parts) : Bool :=
  match p.rebuild with
  | .ok q => decide (q = p)
  | .error _ => false

end Parts

end Anatomy
