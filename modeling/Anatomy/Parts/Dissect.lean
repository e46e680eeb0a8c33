import Anatomy.Node.Name
import Anatomy.Parts.Basic

namespace Anatomy

inductive Area
  | head
  | childCount
  | arguments
  | block
  deriving DecidableEq, Inhabited

def Area.label : Area → String
  | .head => "head"
  | .childCount => "argument_count"
  | .arguments => "arguments"
  | .block => "block"

inductive Fault
  | head (found : String)
  | tooMany (form : Form)
  | tooFew (form : Form)
  | emptyWhere
  | noArguments
  | longBlock
  deriving DecidableEq, Inhabited

namespace Fault

def area : Fault → Area
  | .head _ => .head
  | .tooMany _ | .tooFew _ => .childCount
  | .emptyWhere | .noArguments => .arguments
  | .longBlock => .block

def detail : Fault → String
  | .head found => "invalid function head `" ++ found ++ "`"
  | .tooMany form => "too many of expression arguments for `" ++ form.head.text ++ "`"
  | .tooFew form => "too few of expression arguments for `" ++ form.head.text ++ "`"
  | .emptyWhere => "an empty where clause"
  | .noArguments => "invalid or missing arguments"
  | .longBlock => "an invalid block expression as arguments"

end Fault

structure Rejection where
  fault : Fault
  tree : Node
  deriving DecidableEq, Inhabited

def Rejection.message (r : Rejection) : String :=
  "Function definition contains " ++ r.fault.detail ++ "\n" ++ r.tree.inspect

namespace Node

def headText : Node → String
  | .expr head _ => head.text
  | .foreign tag _ => tag
  | leaf => leaf.label

/-- Collects the constraints of nested where clauses, those of the outermost first. The list is
absent if there is no clause. -/
def peelWhere : Node → Except Rejection (Option (List Node) × Node)
  | .expr .whereClause [] => .error ⟨.emptyWhere, .expr .whereClause []⟩
  | .expr .whereClause (target :: constraints) =>
    match peelWhere target with
    | .error r => .error r
    | .ok (inner, core) => .ok (some (constraints ++ inner.getD []), core)
  | core => .ok (none, core)

def peelReturn : Node → Option Node × Node
  | .expr .ascription [core, rtype] => (some rtype, core)
  | core => (none, core)

/-- The return type stands on the signature; what an arrow takes is a parameter with a type. -/
def peelReturnOf : Form → Node → Option Node × Node
  | .arrow, core => (none, core)
  | _, core => peelReturn core

def parameterList : List Node → Parts
  | [] => {}
  | [.expr .parameters keywords] => { kwargs := some keywords }
  | .expr .parameters keywords :: items => { kwargs := some keywords, args := some items }
  | items => { args := some items }

def asKeyword : Node → Node
  | .expr .assign children => .expr .keyword children
  | node => node

/-- A list written with a semicolon and no comma is a block: the first item is positional and the
second is a keyword parameter. -/
def parameterBlock (items : List Node) : Option Parts :=
  match items.filter fun item => !item.isMarker with
  | [] => some { kwargs := some [] }
  | [positional] => some { args := some [positional], kwargs := some [] }
  | [positional, keyword] =>
    some { args := some [positional], kwargs := some [asKeyword keyword] }
  | _ => none

def calleeParts : Node → Parts
  | .expr .curly (name :: params) => { name := some name, params := some params }
  | name => { name := some name }

def dissectParameters (form : Form) (core : Node) : Except Fault Parts :=
  match form, core with
  | .short, .expr .call (callee :: items) | .long, .expr .call (callee :: items) =>
    .ok { calleeParts callee with
      args := (parameterList items).args, kwargs := (parameterList items).kwargs }
  | .long, .expr .tuple items | .arrow, .expr .tuple items => .ok (parameterList items)
  | .long, .expr .block items | .arrow, .expr .block items =>
    match parameterBlock items with
    | some parts => .ok parts
    | none => .error .longBlock
  | .arrow, core => .ok { args := some [core] }
  | _, _ => .error .noArguments

def dissectSignature (form : Form) (tree signature body : Node) : Except Rejection Parts :=
  match peelWhere signature with
  | .error r => .error r
  | .ok (constraints, target) =>
    match dissectParameters form (peelReturnOf form target).2 with
    | .error fault => .error ⟨fault, tree⟩
    | .ok parts =>
      .ok { parts with
        head := some (.known form.head), rtype := (peelReturnOf form target).1,
        whereParams := constraints, body := some body }

def dissectPlain (tree : Node) : Except Rejection Parts :=
  match tree.definition? with
  | none => .error ⟨.head tree.headText, tree⟩
  | some (form, [signature, body]) => dissectSignature form tree signature body
  | some (.long, [name]) =>
    if name.isName then .ok { head := some (.known .function), name := some name }
    else .error ⟨.tooFew .long, tree⟩
  | some (form, children) =>
    .error ⟨if children.length > 2 then .tooMany form else .tooFew form, tree⟩

def assigned? : Node → Option (String × Form × Node)
  | .expr .assign [.symbol name, .expr .function children] =>
    some (name, .long, .expr .function children)
  | .expr .assign [.symbol name, .expr .arrow children] =>
    some (name, .arrow, .expr .arrow children)
  | _ => none

/-- Takes a definition apart. An anonymous definition bound to a symbol keeps its own head beside
that of the assignment. -/
def dissect (tree : Node) : Except Rejection Parts :=
  match tree.assigned? with
  | none => tree.dissectPlain
  | some (name, form, definition) =>
    match definition.dissectPlain with
    | .error r => .error r
    | .ok parts =>
      .ok { parts with
        head := some (.known .assign), name := some (.symbol name),
        anonHead := some (.known form.head) }

end Node

end Anatomy
