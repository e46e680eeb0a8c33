import Anatomy.Parts.Assemble
import Anatomy.Parts.Dissect

namespace Anatomy.Node

/-- A core under nested where clauses. Each clause is given by its constraints, the outermost
clause first. -/
def layered : List (List Node) → Node → Node
  | [], core => core
  | constraints :: layers, core => .expr .whereClause (layered layers core :: constraints)

def isWhere : Node → Bool
  | .expr .whereClause _ => true
  | _ => false

def merged : List (List Node) → List (List Node)
  | [] => []
  | constraints :: layers => [(constraints :: layers).flatten]

def constraintsOf : List (List Node) → Option (List Node)
  | [] => none
  | constraints :: layers => some (constraints :: layers).flatten

theorem constraintsOf_cons_getD (constraints : List Node) (layers : List (List Node)) :
    some (constraints ++ (constraintsOf layers).getD []) = constraintsOf (constraints :: layers) := by
  cases layers <;> simp [constraintsOf]

theorem withWhere_constraintsOf (layers : List (List Node)) (core : Node) :
    Parts.withWhere (constraintsOf layers) core = layered (merged layers) core := by
  cases layers <;> rfl

theorem peelWhere_of_isWhere {core : Node} (h : core.isWhere = false) :
    core.peelWhere = .ok (none, core) := by
  unfold peelWhere
  split <;> simp_all [isWhere]

theorem peelWhere_layered (layers : List (List Node)) (core : Node) (h : core.isWhere = false) :
    (layered layers core).peelWhere = .ok (constraintsOf layers, core) := by
  induction layers with
  | nil => exact peelWhere_of_isWhere h
  | cons constraints layers ih =>
    rw [layered, peelWhere, ih]
    exact congrArg (fun cs => Except.ok (cs, core)) (constraintsOf_cons_getD constraints layers)

theorem peelWhere_layered_empty (layers : List (List Node)) :
    (layered layers (.expr .whereClause [])).peelWhere =
      .error ⟨.emptyWhere, .expr .whereClause []⟩ := by
  induction layers with
  | nil => rw [layered, peelWhere]
  | cons constraints layers ih => rw [layered, peelWhere, ih]

/-- Below its where clauses every signature has a core that is no clause, or a clause without
anything in it. -/
theorem exists_layered (signature : Node) : ∃ layers core, signature = layered layers core ∧
    (core.isWhere = false ∨ core = .expr .whereClause []) := by
  fun_induction peelWhere signature with
  | case1 => exact ⟨[], _, rfl, .inr rfl⟩
  | case2 target constraints _ _ ih | case3 target constraints _ _ _ ih =>
    obtain ⟨layers, core, ht, hc⟩ := ih
    exact ⟨constraints :: layers, core, by rw [layered, ht], hc⟩
  | case4 core hn hc =>
    refine ⟨[], core, rfl, .inl ?_⟩
    unfold isWhere
    split
    · rename_i children
      cases children with
      | nil => exact absurd rfl hn
      | cons target constraints => exact absurd rfl (hc target constraints)
    · rfl

theorem exists_layered_of_eq {layers layers' : List (List Node)} {core core' : Node}
    (hw : core.isWhere = false) (he : layered layers core = layered layers' core') :
    ∃ inner, core' = layered inner core := by
  induction layers' generalizing layers with
  | nil => exact ⟨layers, he.symm⟩
  | cons constraints' layers' ih =>
    cases layers with
    | nil =>
      rw [layered, layered] at he
      simp [he, isWhere] at hw
    | cons constraints layers =>
      simp only [layered, Node.expr.injEq, List.cons.injEq, true_and] at he
      exact ih he.1

theorem eq_of_layered_eq {layers layers' : List (List Node)} {core core' : Node}
    (hw : core.isWhere = false) (hw' : core'.isWhere = false)
    (he : layered layers core = layered layers' core') : core = core' := by
  obtain ⟨inner, rfl⟩ := exists_layered_of_eq hw he
  cases inner with
  | nil => rfl
  | cons constraints inner => simp [layered, isWhere] at hw'

theorem sizeOf_le_layered (layers : List (List Node)) (core : Node) :
    sizeOf core ≤ sizeOf (layered layers core) := by
  induction layers with
  | nil => exact Nat.le_refl _
  | cons constraints layers ih =>
    simp only [layered, Node.expr.sizeOf_spec, List.cons.sizeOf_spec]
    omega

end Anatomy.Node
