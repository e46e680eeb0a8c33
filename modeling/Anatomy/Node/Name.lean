import Anatomy.Node.Basic
import Anatomy.Text.Dotted

namespace Anatomy.Node

open Text

/-- A symbol, or a member of a name: `f`, `Base.f`, `Base.Iterators.f`. -/
def isName : Node → Bool
  | .symbol _ => true
  | .expr .dot [base, .quoted (.symbol _)] => isName base
  | _ => false

def member (base : Node) (name : String) : Node :=
  .expr .dot [base, .quoted (.symbol name)]

def qualified (path : String) : Node :=
  (Dotted.components path).tail.foldl member
    (.symbol ((Dotted.components path).head (Dotted.components_ne_nil path)))

theorem qualified_eq {path first : String} {rest : List String}
    (h : Dotted.components path = first :: rest) :
    qualified path = rest.foldl member (.symbol first) := by
  simp only [qualified, h, List.tail_cons, List.head_cons]

theorem isName_member (base : Node) (name : String) : (member base name).isName = base.isName := by
  rw [member, isName]

theorem isName_foldl_member {base : Node} (h : base.isName = true) (names : List String) :
    (names.foldl member base).isName = true := by
  induction names generalizing base with
  | nil => exact h
  | cons name names ih => exact ih ((isName_member base name).trans h)

theorem isName_qualified (path : String) : (qualified path).isName = true :=
  isName_foldl_member (by rw [isName]) _

theorem exists_chain_of_isName {node : Node} (h : node.isName = true) :
    ∃ first rest, node = List.foldl member (.symbol first) rest := by
  fun_induction isName node with
  | case1 name => exact ⟨name, [], rfl⟩
  | case2 base name ih =>
    obtain ⟨first, rest, rfl⟩ := ih h
    exact ⟨first, rest ++ [name], by rw [List.foldl_append]; rfl⟩
  | case3 => cases h

end Anatomy.Node
