namespace Anatomy

/-- The components of a definition that a record can hold. -/
inductive Slot
  | head
  | name
  | anonHead
  | params
  | args
  | kwargs
  | rtype
  | whereParams
  | body
  deriving DecidableEq, Inhabited

namespace Slot

def all : List Slot :=
  [.head, .name, .anonHead, .params, .args, .kwargs, .rtype, .whereParams, .body]

def label : Slot → String
  | .head => "head"
  | .name => "name"
  | .anonHead => "anonhead"
  | .params => "params"
  | .args => "args"
  | .kwargs => "kwargs"
  | .rtype => "rtype"
  | .whereParams => "whereparams"
  | .body => "body"

def ofLabel? (label : String) : Option Slot :=
  all.find? fun slot => slot.label == label

theorem ofLabel?_label (slot : Slot) : ofLabel? slot.label = some slot := by
  cases slot <;> decide

def alphabetical : List Slot :=
  [.anonHead, .args, .body, .head, .kwargs, .name, .params, .rtype, .whereParams]

end Slot

inductive ListSlot
  | params
  | args
  | kwargs
  | whereParams
  deriving DecidableEq, Inhabited

def ListSlot.ofLabel? : String → Option ListSlot
  | "params" => some .params
  | "args" => some .args
  | "kwargs" => some .kwargs
  | "whereparams" => some .whereParams
  | _ => none

end Anatomy
