import Anatomy.Workbench
import Anatomy.Proofs.Clause
import Anatomy.Proofs.Reading
import Anatomy.Proofs.Grammar
import Anatomy.Proofs.NormalForm
import Anatomy.Proofs.Writing
import Anatomy.Proofs.Stability
import Anatomy.Proofs.Canonical
import Anatomy.Proofs.Acceptance
import Anatomy.Proofs.AlphaEquivalence
import Anatomy.Proofs.Hygiene
import Anatomy.Proofs.Rendering
import Anatomy.Proofs.Signatures
import Anatomy.Proofs.Extraction
import Anatomy.Proofs.Forwarding
import Anatomy.Proofs.Freshness
import Anatomy.Proofs.Unions
import Anatomy.Proofs.Leaves
import Anatomy.Proofs.Regularity
import Anatomy.Proofs.Markers
import Anatomy.Proofs.Reversal
import Anatomy.Proofs.Kinds
import Anatomy.Proofs.Qualification
import Anatomy.Proofs.Parameters
import Anatomy.Proofs.Spelled
import Anatomy.Proofs.Quotes
import Anatomy.Proofs.Naming
import Anatomy.Proofs.ModulePaths
import Anatomy.Proofs.Doubles
import Anatomy.Proofs.Equality
