import Anatomy.Node.Basic
import Anatomy.Parts.Slot

namespace Anatomy

open Text.Quoted

inductive Incomplete
  | unknownHead (slot : Slot) (spelling : String)
  | notDefinitionHead (slot : Slot) (spelling : String)
  | paramsWithoutName
  | assignedWithoutName
  | slotsWithoutBody (slots : List Slot)
  | nothingToDefine
  deriving DecidableEq, Inhabited

namespace Incomplete

def ticked (s : String) : String :=
  "`" ++ s ++ "`"

def message : Incomplete → String
  | .unknownHead slot spelling => "Unknown head for " ++ ticked slot.label ++ ": " ++ quote spelling
  | .notDefinitionHead slot spelling =>
    ticked slot.label ++ " must be a definition head, got " ++ ticked spelling
  | .paramsWithoutName => "Type parameters require a function name"
  | .assignedWithoutName => "Assigned anonymous definitions require a name"
  | .slotsWithoutBody slots =>
    "Function definitions without a body must not contain slots: " ++
      ", ".intercalate (slots.map fun slot => ticked slot.label)
  | .nothingToDefine => "Function definitions require a name, a body, or both"

end Incomplete

/-- A head as a record holds it: one of the known kinds, or a text that nobody has looked up. -/
inductive HeadSlot
  | known (head : Head)
  | text (spelling : String)
  deriving DecidableEq, Inhabited

namespace HeadSlot

def spelling : HeadSlot → String
  | .known head => head.text
  | .text spelling => spelling

def ofText (s : String) : HeadSlot :=
  match Head.ofText? s with
  | some head => .known head
  | none => .text s

def head? : HeadSlot → Option Head
  | .known head => some head
  | .text spelling => Head.ofText? spelling

theorem spelling_ofText (s : String) : (ofText s).spelling = s := by
  rw [ofText]
  split
  · rename_i h
    exact Head.text_of_ofText? h
  · rfl

theorem head?_ofText (s : String) : (ofText s).head? = Head.ofText? s := by
  rw [ofText]
  split <;> simp_all [head?]

def form? (slot : HeadSlot) : Option Form :=
  slot.head?.bind Head.form?

end HeadSlot

/-- The components of a definition. A slot that is `none` is absent. A list may be present and
empty: `kwargs := some []` stands for a semicolon with nothing after it. -/
structure Parts where
  head : Option HeadSlot := none
  name : Option Node := none
  anonHead : Option HeadSlot := none
  params : Option (List Node) := none
  args : Option (List Node) := none
  kwargs : Option (List Node) := none
  rtype : Option Node := none
  whereParams : Option (List Node) := none
  body : Option Node := none
  deriving DecidableEq, Inhabited

namespace Parts

def has (p : Parts) : Slot → Bool
  | .head => p.head.isSome
  | .name => p.name.isSome
  | .anonHead => p.anonHead.isSome
  | .params => p.params.isSome
  | .args => p.args.isSome
  | .kwargs => p.kwargs.isSome
  | .rtype => p.rtype.isSome
  | .whereParams => p.whereParams.isSome
  | .body => p.body.isSome

def present (p : Parts) : List Slot :=
  Slot.alphabetical.filter p.has

def sameSlot {α : Type} (same : α → α → Bool) : Option α → Option α → Bool
  | none, none => true
  | some a, some b => same a b
  | _, _ => false

/-- Equality of two records, where heads count by their spelling and literals by kind and value. -/
def same (p q : Parts) : Bool :=
  let sameHead := fun (a b : HeadSlot) => a.spelling == b.spelling
  sameSlot sameHead p.head q.head &&
    sameSlot Node.same p.name q.name &&
    sameSlot sameHead p.anonHead q.anonHead &&
    sameSlot Node.sameAll p.params q.params &&
    sameSlot Node.sameAll p.args q.args &&
    sameSlot Node.sameAll p.kwargs q.kwargs &&
    sameSlot Node.same p.rtype q.rtype &&
    sameSlot Node.sameAll p.whereParams q.whereParams &&
    sameSlot Node.same p.body q.body

def append (p : Parts) (node : Node) : ListSlot → Parts
  | .params => { p with params := some (p.params.getD [] ++ [node]) }
  | .args => { p with args := some (p.args.getD [] ++ [node]) }
  | .kwargs => { p with kwargs := some (p.kwargs.getD [] ++ [node]) }
  | .whereParams => { p with whereParams := some (p.whereParams.getD [] ++ [node]) }

end Parts

end Anatomy
