import Anatomy.Parts.Assemble
import Anatomy.Ty.Refresh

namespace Anatomy

/-- What is worth a note while definitions and types are worked on. -/
inductive Event
  | rejected (fault : Fault)
  | emptyDefinition (name : Node)
  | renamed (entry : Renamed)
  | construction (name : TypeName)

def Event.message : Event → String
  | .rejected fault => "Not a function definition (" ++ fault.area.label ++ "): " ++ fault.detail
  | .emptyDefinition name => "Combining empty definition of " ++ name.inspect
  | .renamed entry => "Renamed type variable " ++ entry.old ++ " to " ++ entry.new
  | .construction name => "Constructor signature for " ++ name.qualified

def Node.recognize (tree : Node) : Option Parts × List Event :=
  match tree.dissect with
  | .ok parts => (some parts, [])
  | .error r => (none, [.rejected r.fault])

def Parts.assemblyEvents (p : Parts) : List Event :=
  match p.assemble, p.body, p.name with
  | .ok _, none, some name => [.emptyDefinition name]
  | _, _, _ => []

end Anatomy
