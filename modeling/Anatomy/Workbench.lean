import Anatomy.Failure
import Anatomy.Method.Extractor

namespace Anatomy

/-- For every entry the position of the first entry that `same` does not tell apart from it; an
entry that equals none, itself included, has its own position. -/
def firstMatches {α : Type} (same : α → α → Bool) (as : List α) : List Nat :=
  as.mapIdx fun i a => ((as.take i).findIdx? (same a)).getD i

/-- A bench with records that are made, edited and put together, and an extractor. -/
structure Workbench where
  records : List Parts := []
  extractor : Extractor := {}

inductive Command
  | create
  | dissect (tree : Node) (strict : Bool)
  | ofMapping (entries : List Assignment)
  | signature (m : Method)
  | copy (i : Int)
  | rebuild (i : Int)
  | set (i : Int) (entry : Assignment)
  | append (i : Int) (slot : ListSlot) (node : Node)
  | view (i : Int)
  | compare (i j : Int)
  | assemble (i : Int) (again : Bool)
  | forward (i : Int)

inductive Reply
  | parts (p : Parts)
  | nothing
  | equal (b : Bool)
  | tree (tree : Node) (again : Option Parts)
  | failed (f : Failure)

namespace Workbench

def add (w : Workbench) (p : Parts) : Workbench :=
  { w with records := w.records ++ [p] }

def note (w : Workbench) (events : List Event) : Workbench :=
  { w with extractor := w.extractor.note events }

def offer (w : Workbench) : Except Failure Parts → Reply × Workbench
  | .ok p => (.parts p, w.add p)
  | .error f => (.failed f, w)

def record? (w : Workbench) : Int → Option Parts
  | .ofNat i => w.records[i]?
  | .negSucc _ => none

def withRecord (w : Workbench) (i : Int) (work : Parts → Reply × Workbench) : Reply × Workbench :=
  match w.record? i with
  | some p => work p
  | none => (.failed .noSuchEntry, w)

def replace (w : Workbench) (i : Int) (p : Parts) : Reply × Workbench :=
  (.parts p, { w with records := w.records.set i.toNat p })

def assembleRecord (w : Workbench) (p : Parts) (again : Bool) : Reply × Workbench :=
  match p.assemble with
  | .error cause => (.failed (.incomplete cause), w)
  | .ok tree =>
    let w := w.note p.assemblyEvents
    if again then
      match tree.dissect with
      | .error r => (.failed (.rejected r), w)
      | .ok q => (.tree tree (some q), w.add q)
    else (.tree tree none, w)

def step (w : Workbench) : Command → Reply × Workbench
  | .create => w.offer (.ok {})
  | .dissect tree true => w.offer (tree.dissect.mapError .rejected)
  | .dissect tree false =>
    match tree.recognize with
    | (some p, _) => w.offer (.ok p)
    | (none, events) => (.nothing, w.note events)
  | .ofMapping entries => w.offer ((Parts.ofAssignments entries).mapError .ofMapping)
  | .signature m =>
    match w.extractor.signature m with
    | (result, extractor) =>
      { w with extractor := extractor }.offer (result.mapError .ofSignature)
  | .copy i => w.withRecord i fun p => w.offer (.ok p)
  | .rebuild i => w.withRecord i fun p => w.offer (p.rebuild.mapError .ofMapping)
  | .set i entry => w.withRecord i fun p => w.replace i (p.set entry)
  | .append i slot node => w.withRecord i fun p => w.replace i (p.append node slot)
  | .view i => w.withRecord i fun p => (.parts p, w)
  | .compare i j => w.withRecord i fun p => w.withRecord j fun q => (.equal (p.same q), w)
  | .assemble i again => w.withRecord i fun p => w.assembleRecord p again
  | .forward i =>
    w.withRecord i fun p =>
      match p.forward with
      | .ok tree => (.tree tree none, w)
      | .error u => (.failed (.unforwardable u), w)

def run (w : Workbench) : List Command → List Reply × Workbench
  | [] => ([], w)
  | command :: commands =>
    match w.step command with
    | (reply, w) =>
      match w.run commands with
      | (replies, w) => (reply :: replies, w)

end Workbench

end Anatomy
