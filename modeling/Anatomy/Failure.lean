import Anatomy.Method.Signature
import Anatomy.Parts.Assemble
import Anatomy.Parts.Assignment
import Anatomy.Parts.Forward
import Anatomy.Settings

namespace Anatomy

inductive Failure
  | rejected (r : Rejection)
  | incomplete (cause : Incomplete)
  | unknownSlots (labels : List String)
  | badRecord (fault : SignatureFault)
  | unparametric (u : Unparametric)
  | unrenderable (u : Unrenderable)
  | unforwardable (u : Unforwardable)
  | settings (fault : SettingsFault)
  | noSuchEntry

namespace Failure

def ofMapping : MappingFault → Failure
  | .unknownSlots labels => .unknownSlots labels
  | .incomplete cause => .incomplete cause

def ofSignature : SignatureFault → Failure
  | .unparametric u => .unparametric u
  | .unrenderable u => .unrenderable u
  | fault => .badRecord fault

def ofRoundTrip : RoundTripFault → Failure
  | .rejected r => .rejected r
  | .incomplete cause => .incomplete cause

def message : Failure → String
  | .rejected r => r.message
  | .incomplete cause => cause.message
  | .unknownSlots labels => (MappingFault.unknownSlots labels).message
  | .badRecord fault => fault.message
  | .unparametric u => u.message
  | .unrenderable u => u.message
  | .unforwardable u => u.message
  | .settings fault => fault.message
  | .noSuchEntry => "There is no entry at this position"

end Failure

end Anatomy
