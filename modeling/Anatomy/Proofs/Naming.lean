import Anatomy.Node.Name

namespace Anatomy.Node

open Text

/-- The components of a name: the symbol at its root, then its members. -/
def nameComponents : Node → List String
  | .symbol name => [name]
  | .expr .dot [base, .quoted (.symbol name)] => nameComponents base ++ [name]
  | _ => []

def dotted (node : Node) : String :=
  ".".intercalate node.nameComponents

theorem nameComponents_foldl_member (base : Node) (names : List String) :
    (names.foldl member base).nameComponents = base.nameComponents ++ names := by
  induction names generalizing base with
  | nil => simp
  | cons name names ih =>
    have hmember : (member base name).nameComponents = base.nameComponents ++ [name] := by
      rw [member, nameComponents]
    rw [List.foldl_cons, ih, hmember, List.append_assoc, List.singleton_append]

theorem nameComponents_chain (first : String) (rest : List String) :
    (rest.foldl member (.symbol first)).nameComponents = first :: rest := by
  rw [nameComponents_foldl_member, nameComponents, List.singleton_append]

theorem exists_qualified_eq (path : String) :
    ∃ first rest, Dotted.components path = first :: rest ∧
      qualified path = rest.foldl member (.symbol first) := by
  obtain ⟨first, rest, h⟩ := List.exists_cons_of_ne_nil (Dotted.components_ne_nil path)
  exact ⟨first, rest, h, qualified_eq h⟩

theorem nameComponents_qualified (path : String) :
    (qualified path).nameComponents = Dotted.components path := by
  obtain ⟨first, rest, hparts, h⟩ := exists_qualified_eq path
  rw [h, nameComponents_chain, hparts]

theorem dotted_qualified (path : String) : (qualified path).dotted = path := by
  rw [dotted, nameComponents_qualified, Dotted.intercalate_components]

theorem qualified_dotted_chain {first : String} {rest : List String}
    (h : ∀ part ∈ first :: rest, '.' ∉ part.toList) :
    qualified (rest.foldl member (.symbol first)).dotted = rest.foldl member (.symbol first) := by
  rw [dotted, nameComponents_chain]
  exact qualified_eq (Dotted.components_intercalate (List.cons_ne_nil first rest) h)

/-- Every path is read as a name, of which it is the dotted form. A name is read back from its
dotted form if none of its components has a dot, and only then. -/
theorem qualified_dotted :
    (∀ path, (qualified path).isName = true ∧ (qualified path).dotted = path) ∧
      ∀ node : Node, node.isName = true →
        (qualified node.dotted = node ↔ ∀ part ∈ node.nameComponents, '.' ∉ part.toList) := by
  refine ⟨fun path => ⟨isName_qualified path, dotted_qualified path⟩, fun node hname => ?_⟩
  constructor
  · intro h
    rw [← h, nameComponents_qualified]
    exact fun part => Dotted.notMem_components
  · intro h
    obtain ⟨first, rest, rfl⟩ := exists_chain_of_isName hname
    rw [nameComponents_chain] at h
    exact qualified_dotted_chain h

theorem qualified_dotted_empty_component :
    (member (member (.symbol "Base") "") "zip").dotted = "Base..zip" ∧
      qualified "Base..zip" = member (member (.symbol "Base") "") "zip" ∧
      qualified (member (.symbol "Base") ".+").dotted ≠ member (.symbol "Base") ".+" := by
  have hdotted : (member (member (.symbol "Base") "") "zip").dotted = "Base..zip" := by decide
  refine ⟨hdotted, ?_, ?_⟩
  · rw [← hdotted]
    exact (qualified_dotted.2 (member (member (.symbol "Base") "") "zip") (by decide)).mpr
      (by decide)
  · exact mt (qualified_dotted.2 (member (.symbol "Base") ".+") (by decide)).mp (by decide)

end Anatomy.Node
