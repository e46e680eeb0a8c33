import Anatomy.Node.Head
import Anatomy.Scalar

namespace Anatomy

open Text.Quoted Text.Sequence

/-- A tree of a program. The number of children of a compound expression is free, so that a
malformed tree can be held and examined; `foreign` holds an expression of any other kind. -/
inductive Node
  | symbol (name : String)
  | literal (value : Scalar)
  | quoted (value : Node)
  | marker (line : Int) (file : Option String)
  | expr (head : Head) (children : List Node)
  | foreign (tag : String) (children : List Node)
  deriving Inhabited

namespace Node

def ofHeadText (text : String) (children : List Node) : Node :=
  match Head.ofText? text with
  | some head => .expr head children
  | none => .foreign text children

def isMarker : Node → Bool
  | .marker _ _ => true
  | _ => false

def definition? : Node → Option (Form × List Node)
  | .expr head children => head.form?.map fun form => (form, children)
  | _ => none

def isDefinition (node : Node) : Bool :=
  node.definition?.isSome

def compound? : Node → Option (String × List Node)
  | .expr head children => some (head.text, children)
  | .foreign tag children => some (tag, children)
  | _ => none

def withChildren (children : List Node) : Node → Node
  | .expr head _ => .expr head children
  | .foreign tag _ => .foreign tag children
  | leaf => leaf

def label : Node → String
  | .symbol _ => "Symbol"
  | .literal _ => "Literal"
  | .quoted _ => "QuoteNode"
  | .marker _ _ => "LineNumber"
  | .expr head _ => head.label
  | .foreign _ _ => "OpaqueExpr"

def inspectFile : Option String → String
  | none => "None"
  | some file => quote file

mutual

def inspect : Node → String
  | .symbol name => "Symbol(name=" ++ quote name ++ ")"
  | .literal value => "Literal(value=" ++ value.inspect ++ ")"
  | .quoted value => "QuoteNode(value=" ++ inspect value ++ ")"
  | .marker line file => "LineNumber(line=" ++ toString line ++ ", file=" ++ inspectFile file ++ ")"
  | .expr head children => head.label ++ "(" ++ ", ".intercalate (inspectAll children) ++ ")"
  | .foreign tag children =>
    "OpaqueExpr(" ++ ", ".intercalate (quote tag :: inspectAll children) ++ ")"

def inspectAll : List Node → List String
  | [] => []
  | node :: nodes => inspect node :: inspectAll nodes

end

mutual

/-- Comparison of two trees that leaves the comparison of literals open. -/
def agree (literals : Scalar → Scalar → Bool) : Node → Node → Bool
  | .symbol a, .symbol b => a == b
  | .literal a, .literal b => literals a b
  | .quoted a, .quoted b => agree literals a b
  | .marker line file, .marker line' file' => line == line' && file == file'
  | .expr head as, .expr head' bs => decide (head = head') && agreeAll literals as bs
  | .foreign tag as, .foreign tag' bs => tag == tag' && agreeAll literals as bs
  | _, _ => false

def agreeAll (literals : Scalar → Scalar → Bool) : List Node → List Node → Bool
  | [], [] => true
  | a :: as, b :: bs => agree literals a b && agreeAll literals as bs
  | _, _ => false

end

def same : Node → Node → Bool :=
  agree Scalar.same

def sameAll : List Node → List Node → Bool :=
  agreeAll Scalar.same

def identical : Node → Node → Bool :=
  agree fun a b => decide (a = b)

mutual

theorem agree_eq_iff (a b : Node) : agree (fun x y => decide (x = y)) a b = true ↔ a = b := by
  cases a <;> cases b <;> simp [agree]
  case quoted.quoted a b => exact agree_eq_iff a b
  case expr.expr _ as _ bs => exact fun _ => agreeAll_eq_iff as bs
  case foreign.foreign _ as _ bs => exact fun _ => agreeAll_eq_iff as bs

theorem agreeAll_eq_iff (as bs : List Node) :
    agreeAll (fun x y => decide (x = y)) as bs = true ↔ as = bs := by
  cases as with
  | nil => cases bs <;> simp [agreeAll]
  | cons a as =>
    cases bs with
    | nil => simp [agreeAll]
    | cons b bs => simp [agreeAll, agree_eq_iff a b, agreeAll_eq_iff as bs]

end

theorem identical_iff (a b : Node) : identical a b = true ↔ a = b :=
  agree_eq_iff a b

instance : DecidableEq Node := fun a b => decidable_of_iff _ (identical_iff a b)

mutual

/-- Removes the line markers among the children of every compound expression. What is quoted is
kept as it stands. -/
def withoutMarkers : Node → Node
  | .expr head children => .expr head (withoutMarkersAll children)
  | .foreign tag children => .foreign tag (withoutMarkersAll children)
  | leaf => leaf

def withoutMarkersAll : List Node → List Node
  | [] => []
  | .marker _ _ :: nodes => withoutMarkersAll nodes
  | node :: nodes => withoutMarkers node :: withoutMarkersAll nodes

end

end Node

end Anatomy
