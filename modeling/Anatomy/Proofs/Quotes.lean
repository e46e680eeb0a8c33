import Anatomy.Node.Basic
import Anatomy.Proofs.Leaves

namespace Anatomy.Node

mutual

def atoms : Node → List Node
  | .quoted value => atoms value
  | .expr _ children => atomsAll children
  | .foreign _ children => atomsAll children
  | atom => [atom]

def atomsAll : List Node → List Node
  | [] => []
  | node :: nodes => atoms node ++ atomsAll nodes

end

def markers (node : Node) : List Node :=
  node.atoms.filter isMarker

def words (node : Node) : List Node :=
  node.atoms.filter fun atom => !atom.isMarker

def quotation? : Node → Option Node
  | .quoted value => some value
  | _ => none

/-- What is quoted in a tree, from left to right. A quotation inside of another is a part of it. -/
def quotations (node : Node) : List Node :=
  node.leaves.filterMap quotation?

mutual

theorem atoms_eq_flatMap_leaves (node : Node) : node.atoms = node.leaves.flatMap atoms := by
  cases node with
  | expr head children => exact atomsAll_eq_flatMap_leavesAll children
  | foreign tag children => exact atomsAll_eq_flatMap_leavesAll children
  | _ => simp [leaves]

theorem atomsAll_eq_flatMap_leavesAll (nodes : List Node) :
    atomsAll nodes = (leavesAll nodes).flatMap atoms := by
  cases nodes with
  | nil => rfl
  | cons node nodes =>
    rw [atomsAll, leavesAll, List.flatMap_append, ← atoms_eq_flatMap_leaves node,
      ← atomsAll_eq_flatMap_leavesAll nodes]

end

mutual

theorem leaves_withoutMarkers (node : Node) (h : node.isMarker = false) :
    node.withoutMarkers.leaves = node.leaves.filter fun leaf => !leaf.isMarker := by
  cases node with
  | expr head children => exact leavesAll_withoutMarkersAll children
  | foreign tag children => exact leavesAll_withoutMarkersAll children
  | marker line file => cases h
  | _ => rfl

theorem leavesAll_withoutMarkersAll (nodes : List Node) :
    leavesAll (withoutMarkersAll nodes) =
      (leavesAll nodes).filter fun leaf => !leaf.isMarker := by
  cases nodes with
  | nil => rfl
  | cons node nodes =>
    have ih := leavesAll_withoutMarkersAll nodes
    rw [leavesAll, List.filter_append, ← ih]
    cases node with
    | marker line file => rfl
    | _ =>
      exact congrArg (· ++ leavesAll (withoutMarkersAll nodes)) (leaves_withoutMarkers _ rfl)

end

mutual

theorem compound?_of_mem_leaves {leaf : Node} (node : Node) (h : leaf ∈ node.leaves) :
    leaf.compound? = none := by
  cases node with
  | expr head children => exact compound?_of_mem_leavesAll children h
  | foreign tag children => exact compound?_of_mem_leavesAll children h
  | _ =>
    obtain rfl := List.mem_singleton.mp h
    rfl

theorem compound?_of_mem_leavesAll {leaf : Node} (nodes : List Node) (h : leaf ∈ leavesAll nodes) :
    leaf.compound? = none := by
  cases nodes with
  | nil => cases h
  | cons node nodes =>
    obtain h | h := List.mem_append.mp h
    · exact compound?_of_mem_leaves node h
    · exact compound?_of_mem_leavesAll nodes h

end

theorem markers_eq_flatMap_leaves (node : Node) : node.markers = node.leaves.flatMap markers := by
  rw [markers, atoms_eq_flatMap_leaves, List.filter_flatMap]
  rfl

theorem words_eq_flatMap_leaves (node : Node) : node.words = node.leaves.flatMap words := by
  rw [words, atoms_eq_flatMap_leaves, List.filter_flatMap]
  rfl

theorem flatMap_markers {nodes : List Node} (h : ∀ node ∈ nodes, node.compound? = none) :
    (nodes.filter fun node => !node.isMarker).flatMap markers =
      (nodes.filterMap quotation?).flatMap markers := by
  induction nodes with
  | nil => rfl
  | cons node nodes ih =>
    obtain ⟨hnode, hnodes⟩ := List.forall_mem_cons.mp h
    cases node with
    | expr head children => cases hnode
    | foreign tag children => cases hnode
    | quoted value => exact congrArg (value.markers ++ ·) (ih hnodes)
    | _ => exact ih hnodes

theorem flatMap_words (nodes : List Node) :
    (nodes.filter fun node => !node.isMarker).flatMap words = nodes.flatMap words := by
  induction nodes with
  | nil => rfl
  | cons node nodes ih =>
    cases node with
    | marker line file => exact ih
    | _ => exact congrArg (_ ++ ·) ih

/-- The markers that are left in a tree without markers are those of its quotations, so none is left
if and only if no quotation has one. Its symbols and literals are those of the tree. -/
theorem markers_withoutMarkers (node : Node) (h : node.isMarker = false) :
    node.withoutMarkers.markers = node.quotations.flatMap markers ∧
    (node.withoutMarkers.markers = [] ↔ ∀ value ∈ node.quotations, value.markers = []) ∧
    node.withoutMarkers.words = node.words := by
  have hmarkers : node.withoutMarkers.markers = node.quotations.flatMap markers := by
    rw [markers_eq_flatMap_leaves, leaves_withoutMarkers node h,
      flatMap_markers fun leaf hl => compound?_of_mem_leaves node hl]
    rfl
  refine ⟨hmarkers, ?_, ?_⟩
  · rw [hmarkers, List.flatMap_eq_nil_iff]
  · rw [words_eq_flatMap_leaves, leaves_withoutMarkers node h, flatMap_words,
      ← words_eq_flatMap_leaves]

theorem markers_withoutMarkers_block : ∃ node : Node, node.isMarker = false ∧
    node.markers = [.marker 1 none, .marker 2 (some "f.jl"), .marker 3 none] ∧
    node.withoutMarkers.markers = [] ∧
    node.withoutMarkers.words = [.symbol "x", .literal (.int 1), .symbol "y"] := by
  let node : Node := .expr .block
    [.marker 1 none, .symbol "x",
      .foreign "macrocall" [.marker 2 (some "f.jl"), .expr .call [.marker 3 none, .literal (.int 1)]],
      .quoted (.expr .tuple [.symbol "y"])]
  have h : node.isMarker = false := rfl
  obtain ⟨-, hnone, hwords⟩ := markers_withoutMarkers node h
  have hquoted : ∀ value ∈ node.quotations, value.markers = [] := by decide
  exact ⟨node, h, rfl, hnone.mpr hquoted, hwords⟩

/-- A marker in a quotation is left. -/
theorem exists_withoutMarkers_marked : ∃ node : Node, node.isMarker = false ∧
    node.withoutMarkers.markers = [.marker 1 none] :=
  ⟨.quoted (.expr .block [.marker 1 none, .symbol "x"]), rfl, rfl⟩

end Anatomy.Node
