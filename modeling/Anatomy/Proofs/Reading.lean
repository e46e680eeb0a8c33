import Anatomy.Proofs.Clause

namespace Anatomy

theorem Form.head_inj {form form' : Form} (h : form.head = form'.head) : form = form' := by
  have hf := congrArg Head.form? h
  rw [Head.form?_head, Head.form?_head] at hf
  exact Option.some.inj hf

/-- The record of a definition, from what its parameters say and what stands around them. -/
def Parts.enclosed (form : Form) (rtype : Option Node) (constraints : Option (List Node))
    (body : Node) (q : Parts) : Parts :=
  { q with
    head := some (.known form.head), rtype := rtype, whereParams := constraints, body := some body }

def Parts.bound (name : String) (form : Form) (q : Parts) : Parts :=
  { q with
    head := some (.known .assign), name := some (.symbol name),
    anonHead := some (.known form.head) }

def Parts.anonymous (q : Parts) : Parts :=
  { q with name := none }

namespace Node

def statements (items : List Node) : List Node :=
  items.filter fun item => !item.isMarker

/-- What is read as more than one parameter when it is all that stands before an arrow. -/
def isReadApart : Node → Bool
  | .expr .tuple _ => true
  | .expr .block _ => true
  | .expr .whereClause _ => true
  | _ => false

/-- How the parameters of a definition are read, with the name where there is one. -/
inductive Reads : Form → Node → Parts → Prop
  | call (form : Form) (callee : Node) (items : List Node) (h : form ≠ .arrow) :
      Reads form (.expr .call (callee :: items))
        { calleeParts callee with
          args := (parameterList items).args, kwargs := (parameterList items).kwargs }
  | tuple (form : Form) (items : List Node) (h : form ≠ .short) :
      Reads form (.expr .tuple items) (parameterList items)
  | block (form : Form) (items : List Node) (p : Parts) (h : form ≠ .short)
      (hp : parameterBlock items = some p) : Reads form (.expr .block items) p
  | lone (core : Node) (ht : ∀ items, core ≠ .expr .tuple items)
      (hb : ∀ items, core ≠ .expr .block items) : Reads .arrow core { args := some [core] }

theorem Reads.of_not_isReadApart {item : Node} (h : item.isReadApart = false) :
    Reads .arrow item { args := some [item] } ∧ item.isWhere = false := by
  refine ⟨.lone item ?_ ?_, ?_⟩
  · rintro items rfl
    cases h
  · rintro items rfl
    cases h
  · unfold isWhere
    split
    · cases h
    · rfl

theorem dissectParameters_eq_ok_iff {form : Form} {core : Node} {p : Parts} :
    dissectParameters form core = .ok p ↔ Reads form core p := by
  constructor
  · intro h
    unfold dissectParameters at h
    split at h
    · cases h; exact .call _ _ _ (by simp)
    · cases h; exact .call _ _ _ (by simp)
    · cases h; exact .tuple _ _ (by simp)
    · cases h; exact .tuple _ _ (by simp)
    · split at h <;> cases h
      exact .block _ _ _ (by simp) ‹_›
    · split at h <;> cases h
      exact .block _ _ _ (by simp) ‹_›
    · rename_i ht hb
      cases h; exact .lone _ ht hb
    · cases h
  · intro h
    cases h with
    | call form callee items h => cases form <;> simp_all [dissectParameters]
    | tuple form items h => cases form <;> simp_all [dissectParameters]
    | block form items p h hp => cases form <;> simp_all [dissectParameters]
    | lone core ht hb =>
      unfold dissectParameters
      split <;> simp_all

theorem peelReturnOf_cases (form : Form) (core : Node) :
    (form ≠ .arrow ∧ ∃ target rtype, core = .expr .ascription [target, rtype] ∧
      peelReturnOf form core = (some rtype, target)) ∨
    (peelReturnOf form core = (none, core) ∧
      (form = .arrow ∨ ∀ target rtype, core ≠ .expr .ascription [target, rtype])) := by
  cases form with
  | arrow => exact .inr ⟨rfl, .inl rfl⟩
  | long | short =>
    simp only [peelReturnOf, peelReturn]
    split
    · exact .inl ⟨by simp, _, _, rfl, rfl⟩
    · rename_i hc
      exact .inr ⟨rfl, .inr hc⟩

theorem definition?_eq_some_iff {tree : Node} {form : Form} {children : List Node} :
    tree.definition? = some (form, children) ↔ tree = .expr form.head children := by
  constructor
  · intro h
    cases tree with
    | expr head items =>
      obtain ⟨form', hf, he⟩ := Option.map_eq_some_iff.mp h
      cases he
      rw [Head.head_of_form? hf]
    | _ => cases h
  · rintro rfl
    simp [definition?, Head.form?_head]

theorem dissectSignature_layered (form : Form) (tree : Node) (layers : List (List Node))
    (core body : Node) (hw : core.isWhere = false) :
    dissectSignature form tree (layered layers core) body =
      match dissectParameters form (peelReturnOf form core).2 with
      | .error fault => .error ⟨fault, tree⟩
      | .ok q => .ok (q.enclosed form (peelReturnOf form core).1 (constraintsOf layers) body) := by
  rw [dissectSignature, peelWhere_layered layers core hw]
  rfl

theorem dissectPlain_pair (form : Form) (signature body : Node) :
    (Node.expr form.head [signature, body]).dissectPlain =
      dissectSignature form (.expr form.head [signature, body]) signature body := by
  cases form <;> rfl

theorem dissectPlain_layered_ok_iff {form : Form} {layers : List (List Node)} {core body : Node}
    {p : Parts} (hw : core.isWhere = false) :
    (Node.expr form.head [layered layers core, body]).dissectPlain = .ok p ↔
      ∃ q, Reads form (peelReturnOf form core).2 q ∧
        p = q.enclosed form (peelReturnOf form core).1 (constraintsOf layers) body := by
  rw [dissectPlain_pair, dissectSignature_layered _ _ _ _ _ hw]
  cases hd : dissectParameters form (peelReturnOf form core).2 with
  | error fault => simp [← dissectParameters_eq_ok_iff, hd]
  | ok q => simp [← dissectParameters_eq_ok_iff, hd, eq_comm]

theorem dissectPlain_declaration {name : Node} (h : name.isName = true) :
    (Node.expr .function [name]).dissectPlain =
      .ok { head := some (.known .function), name := some name } := by
  simp [dissectPlain, definition?, Head.form?, h]

theorem dissectPlain_ok_cases {tree : Node} {p : Parts} (h : tree.dissectPlain = .ok p) :
    (∃ name, name.isName = true ∧ tree = .expr .function [name] ∧
      p = { head := some (.known .function), name := some name }) ∨
    ∃ form layers core body q, core.isWhere = false ∧
      tree = .expr form.head [layered layers core, body] ∧
      Reads form (peelReturnOf form core).2 q ∧
      p = q.enclosed form (peelReturnOf form core).1 (constraintsOf layers) body := by
  unfold dissectPlain at h
  split at h
  · cases h
  · rename_i form signature body hd
    rw [definition?_eq_some_iff.mp hd, ← dissectPlain_pair] at h
    obtain ⟨layers, core, rfl, hw | rfl⟩ := exists_layered signature
    · obtain ⟨q, hq, hp⟩ := (dissectPlain_layered_ok_iff hw).mp h
      exact .inr ⟨form, layers, core, body, q, hw, definition?_eq_some_iff.mp hd, hq, hp⟩
    · rw [dissectPlain_pair, dissectSignature, peelWhere_layered_empty] at h
      cases h
  · rename_i name hd
    split at h
    · cases h
      exact .inl ⟨name, ‹_›, definition?_eq_some_iff.mp hd, rfl⟩
    · cases h
  · cases h

theorem assigned?_eq_some_iff {tree definition : Node} {name : String} {form : Form} :
    tree.assigned? = some (name, form, definition) ↔ form ≠ .short ∧
      (∃ children, definition = .expr form.head children) ∧
      tree = .expr .assign [.symbol name, definition] := by
  constructor
  · intro h
    unfold assigned? at h
    split at h
    · cases h; exact ⟨by simp, ⟨_, rfl⟩, rfl⟩
    · cases h; exact ⟨by simp, ⟨_, rfl⟩, rfl⟩
    · cases h
  · rintro ⟨hs, ⟨children, rfl⟩, rfl⟩
    cases form with
    | short => exact absurd rfl hs
    | long | arrow => rfl

/-- The definition proper: what a symbol is bound to, or else the tree itself. -/
def subject (tree : Node) : Node :=
  match tree.assigned? with
  | some (_, _, definition) => definition
  | none => tree

theorem subject_of_assigned? {tree definition : Node} {name : String} {form : Form}
    (h : tree.assigned? = some (name, form, definition)) : tree.subject = definition := by
  rw [subject, h]

theorem subject_of_assigned?_none {tree : Node} (h : tree.assigned? = none) :
    tree.subject = tree := by
  rw [subject, h]

theorem dissect_eq_dissectPlain {tree : Node} (h : tree.assigned? = none) :
    tree.dissect = tree.dissectPlain := by
  rw [dissect, h]

theorem dissect_bound_ok_iff {form : Form} {name : String} {children : List Node} {p : Parts}
    (h : form ≠ .short) :
    (Node.expr .assign [.symbol name, .expr form.head children]).dissect = .ok p ↔
      ∃ q, (Node.expr form.head children).dissectPlain = .ok q ∧ p = q.bound name form := by
  rw [dissect, assigned?_eq_some_iff.mpr ⟨h, ⟨children, rfl⟩, rfl⟩]
  cases hd : (Node.expr form.head children).dissectPlain with
  | error r => simp [hd]
  | ok q => simp [hd, Parts.bound, eq_comm]

theorem assigned?_form_head {form : Form} (children : List Node) (h : form ≠ .short) :
    (Node.expr form.head children).assigned? = none := by
  cases form with
  | short => exact absurd rfl h
  | long | arrow => rfl

end Node

end Anatomy
