import Anatomy.Event
import Anatomy.Method.Signature
import Anatomy.Settings

namespace Anatomy

/-- Extracts signatures one after the other. The numbers of fresh names go on from one signature to
the next, whether it succeeds or not. -/
structure Extractor where
  settings : Settings := {}
  next : Nat := 1
  journal : List Event := []

namespace Extractor

def note (x : Extractor) (events : List Event) : Extractor :=
  { x with journal := x.journal ++ events }

def prepare (x : Extractor) (type : Ty) : Ty × Extractor :=
  if x.settings.hygiene then
    match type.refresh { next := x.next } with
    | (fresh, supply) =>
      (fresh, { x with next := supply.next }.note (supply.renamed.map .renamed))
  else (type, x)

def constructionEvents (callee : Ty) : List Event :=
  match Signature.constructed? callee with
  | some (made, _) => [.construction made]
  | none => []

def signature (x : Extractor) (m : Method) : Except SignatureFault Parts × Extractor :=
  match x.prepare m.signatureType with
  | (type, x) =>
    match Signature.split type with
    | .error fault => (.error fault, x)
    | .ok (callee, types) =>
      (Signature.ofCallee x.settings.visible m type callee types,
        x.note (constructionEvents callee))

def signatureOfType (x : Extractor) (type : Ty) : Except SignatureFault Parts × Extractor :=
  match x.prepare type with
  | (type, x) =>
    match Signature.split type with
    | .error fault => (.error fault, x)
    | .ok (callee, types) => (Signature.ofType x.settings.visible type callee types, x)

inductive Request
  | method (m : Method)
  | type (type : Ty)

def answer (x : Extractor) : Request → Except SignatureFault Parts × Extractor
  | .method m => x.signature m
  | .type type => x.signatureOfType type

/-- Answers requests one after the other. A request that fails does not stop the others. -/
def answerAll (x : Extractor) : List Request → List (Except SignatureFault Parts) × Extractor
  | [] => ([], x)
  | request :: requests =>
    match x.answer request with
    | (result, x) =>
      match x.answerAll requests with
      | (results, x) => (result :: results, x)

end Extractor

end Anatomy
