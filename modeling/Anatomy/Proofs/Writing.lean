import Anatomy.Proofs.Reading

namespace Anatomy

namespace Parts

theorem checkedForm_known (slot : Slot) (form : Form) :
    checkedForm slot (.known form.head) = .ok form := by
  cases form <;> rfl

theorem assemblePlain_of_body {p : Parts} {name : Option Node} {body : Node} (form : Form)
    (hn : p.displayName = .ok name) (hb : p.body = some body) :
    p.assemblePlain (.known form.head) form =
      .ok (.expr form.head [p.signatureNode (.known form.head) name, body]) := by
  simp only [assemblePlain, hn, hb]

theorem parameterNode_lone {p : Parts} {item : Node} (hk : p.kwargs = none)
    (hi : p.args = some [item]) : p.parameterNode (.known Form.arrow.head) none = item := by
  simp [parameterNode, Form.head, hk, hi]

theorem parameterNode_eq_tuple {p : Parts} {head : HeadSlot}
    (h : ¬(head = .known .arrow ∧ p.kwargs = none ∧ ∃ item, p.args = some [item])) :
    p.parameterNode head none = .expr .tuple p.parameterNodes := by
  unfold parameterNode
  split
  · contradiction
  · rename_i hk ha
    exact absurd ⟨rfl, hk, _, ha⟩ h
  · rfl

theorem parameterNode_tuple {p : Parts} {form : Form}
    (h : ¬(form = .arrow ∧ p.kwargs = none ∧ ∃ item, p.args = some [item])) :
    p.parameterNode (.known form.head) none = .expr .tuple p.parameterNodes := by
  apply parameterNode_eq_tuple
  rintro ⟨hh, hl⟩
  exact h ⟨Form.head_inj (HeadSlot.known.inj hh), hl⟩

theorem assemble_enclosed {q : Parts} {name : Option Node} (form : Form) (rtype : Option Node)
    (constraints : Option (List Node)) (body : Node) (ha : q.anonHead = none)
    (hn : q.displayName = .ok name) :
    (q.enclosed form rtype constraints body).assemble =
      .ok (.expr form.head
        [withWhere constraints (withReturn rtype (q.parameterNode (.known form.head) name)),
          body]) := by
  have hl : (q.enclosed form rtype constraints body).leadingHead = .known form.head := rfl
  have hb : (q.enclosed form rtype constraints body).anonHead = none := ha
  rw [assemble, hl, checkedForm_known, hb]
  exact assemblePlain_of_body form hn rfl

theorem assemble_bound_eq (p : Parts) (name : String) (form : Form) :
    (p.bound name form).assemble =
      (p.bound name form).assembleAssigned .short (.known form.head) form := by
  have hl : (p.bound name form).leadingHead = .known Form.short.head := rfl
  have ha : (p.bound name form).anonHead = some (.known form.head) := rfl
  rw [assemble, hl, checkedForm_known, ha]
  simp only [checkedForm_known]

theorem assemble_bound {p : Parts} (name : String) (form : Form) (hp : p.params = none) :
    (p.bound name form).assemble =
      (p.anonymous.assemblePlain (.known form.head) form).map
        fun definition => .expr .assign [.symbol name, definition] := by
  have hd : (p.bound name form).displayName = .ok (some (.symbol name)) := by
    simp [displayName, bound, hp]
  have hi : { p.bound name form with name := none }.assemblePlain (.known form.head) form =
      p.anonymous.assemblePlain (.known form.head) form := rfl
  rw [assemble_bound_eq, assembleAssigned]
  simp only [hd, hi]
  cases p.anonymous.assemblePlain (.known form.head) form <;> rfl

theorem assemble_bound_enclosed {q : Parts} (name : String) (form : Form) (rtype : Option Node)
    (constraints : Option (List Node)) (body : Node) (hp : q.params = none) :
    ((q.enclosed form rtype constraints body).bound name form).assemble =
      .ok (.expr .assign [.symbol name, .expr form.head
        [withWhere constraints (withReturn rtype (q.parameterNode (.known form.head) none)),
          body]]) := by
  have hq : (q.enclosed form rtype constraints body).params = none := hp
  have hd : (q.enclosed form rtype constraints body).anonymous.displayName = .ok none := by
    simp [displayName, anonymous, hq]
  rw [assemble_bound name form hq, assemblePlain_of_body form hd rfl]
  rfl

theorem assemble_bound_generic {p : Parts} {params : List Node} (name : String) (form : Form)
    (hp : p.params = some params) : (p.bound name form).assemble = .error .paramsWithoutName := by
  have hd : (p.bound name form).displayName =
      .ok (some (.expr .curly (.symbol name :: params))) := by
    simp [displayName, bound, hp]
  have hi : { p.bound name form with name := none }.displayName = .error .paramsWithoutName := by
    simp [displayName, bound, hp]
  rw [assemble_bound_eq, assembleAssigned]
  simp only [hd, assemblePlain, hi]

section Inversion

variable {p : Parts} {tree : Node}

/-- A definition that stands for itself has a body, or it is a name and nothing else. -/
theorem assemblePlain_eq_ok_iff {head : HeadSlot} {form : Form} :
    p.assemblePlain head form = .ok tree ↔ ∃ name, p.displayName = .ok name ∧
      ((∃ body, p.body = some body ∧
          .expr form.head [p.signatureNode head name, body] = tree) ∨
        p.body = none ∧ p.bodySlots = [] ∧
          ∃ callee, name = some callee ∧ .expr form.head [callee] = tree) := by
  unfold assemblePlain
  cases p.displayName with
  | error cause => simp
  | ok name =>
    cases p.body with
    | some body => simp
    | none => cases name <;> cases p.bodySlots <;> simp

theorem displayName_nameless_eq_ok_iff {name : Option Node} (hn : p.name = none) :
    p.displayName = .ok name ↔ p.params = none ∧ name = none := by
  cases hp : p.params <;> simp [displayName, hp, hn, eq_comm]

theorem assemblePlain_nameless_eq_ok_iff {head : HeadSlot} {form : Form} (hn : p.name = none) :
    p.assemblePlain head form = .ok tree ↔ p.params = none ∧ ∃ body, p.body = some body ∧
      .expr form.head [p.signatureNode head none, body] = tree := by
  rw [assemblePlain_eq_ok_iff]
  constructor
  · rintro ⟨name, hd, h⟩
    obtain ⟨hp, rfl⟩ := (displayName_nameless_eq_ok_iff hn).mp hd
    obtain h | ⟨-, -, callee, hc, -⟩ := h
    · exact ⟨hp, h⟩
    · cases hc
  · rintro ⟨hp, h⟩
    exact ⟨none, (displayName_nameless_eq_ok_iff hn).mpr ⟨hp, rfl⟩, .inl h⟩

/-- A definition that is bound to a name has a body and no name of its own, so no type parameters
either. -/
theorem assembleAssigned_eq_ok_iff {form innerForm : Form} {innerHead : HeadSlot} :
    p.assembleAssigned form innerHead innerForm = .ok tree ↔
      p.params = none ∧ ∃ name body, p.name = some name ∧ p.body = some body ∧
        .expr form.head [name, .expr innerForm.head [p.signatureNode innerHead none, body]] =
          tree := by
  have hinner : ∀ definition, { p with name := none }.assemblePlain innerHead innerForm =
      .ok definition ↔ p.params = none ∧ ∃ body, p.body = some body ∧
        .expr innerForm.head [p.signatureNode innerHead none, body] = definition :=
    fun definition => assemblePlain_nameless_eq_ok_iff rfl
  constructor
  · intro h
    unfold assembleAssigned at h
    split at h
    · cases h
    · cases h
    · next name hd =>
      split at h
      · cases h
      · next definition hi =>
        obtain ⟨hp, body, hb, rfl⟩ := (hinner definition).mp hi
        have hn : p.name = some name := by simpa [displayName, hp] using hd
        exact ⟨hp, name, body, hn, hb, Except.ok.inj h⟩
  · rintro ⟨hp, name, body, hn, hb, rfl⟩
    have hd : p.displayName = .ok (some name) := by rw [displayName, hp, hn]
    simp only [assembleAssigned, hd, (hinner _).mpr ⟨hp, body, hb, rfl⟩]

theorem assemble_eq_ok_iff : p.assemble = .ok tree ↔
    ∃ form, checkedForm .head p.leadingHead = .ok form ∧
      (p.anonHead = none ∧ p.assemblePlain p.leadingHead form = .ok tree ∨
        ∃ innerHead innerForm, p.anonHead = some innerHead ∧
          checkedForm .anonHead innerHead = .ok innerForm ∧
          p.assembleAssigned form innerHead innerForm = .ok tree) := by
  unfold assemble
  cases checkedForm .head p.leadingHead with
  | error cause => simp
  | ok form =>
    cases p.anonHead with
    | none => simp
    | some innerHead => cases hc : checkedForm .anonHead innerHead <;> simp [hc]

end Inversion

end Parts

namespace Node

open Parts

theorem withWhere_eq_layered (constraints : Option (List Node)) (core : Node) :
    withWhere constraints core = layered constraints.toList core := by
  cases constraints <;> rfl

theorem constraintsOf_toList (constraints : Option (List Node)) :
    constraintsOf constraints.toList = constraints := by
  cases constraints <;> simp [constraintsOf]

theorem isWhere_withReturn {core : Node} (rtype : Option Node) (h : core.isWhere = false) :
    (withReturn rtype core).isWhere = false := by
  cases rtype with
  | none => exact h
  | some rtype => rfl

/-- No parameters other than those of an arrow look like a signature with a return type. -/
theorem Reads.peelReturnOf {form : Form} {parameters : Node} {q : Parts} {rtype : Option Node}
    (h : Reads form parameters q) (hr : form = .arrow → rtype = none) :
    peelReturnOf form (withReturn rtype parameters) = (rtype, parameters) := by
  cases form with
  | arrow => rw [hr rfl]; rfl
  | long | short =>
    cases rtype with
    | some rtype => rfl
    | none => cases h <;> rfl

theorem dissectPlain_of_reads {form : Form} {parameters : Node} {q : Parts} {rtype : Option Node}
    (h : Reads form parameters q) (hw : parameters.isWhere = false)
    (hr : form = .arrow → rtype = none) (constraints : Option (List Node)) (body : Node) :
    (Node.expr form.head [withWhere constraints (withReturn rtype parameters), body]).dissectPlain =
      .ok (q.enclosed form rtype constraints body) := by
  rw [withWhere_eq_layered, dissectPlain_layered_ok_iff (isWhere_withReturn rtype hw),
    h.peelReturnOf hr, constraintsOf_toList]
  exact ⟨q, h, rfl⟩

theorem Reads.assigned? {form : Form} {parameters : Node} {q : Parts}
    (h : Reads form parameters q) (rtype : Option Node) (constraints : Option (List Node))
    (body : Node) :
    (Node.expr form.head [withWhere constraints (withReturn rtype parameters), body]).assigned? =
      none := by
  cases form with
  | long => exact assigned?_form_head _ (by simp)
  | arrow => exact assigned?_form_head _ (by simp)
  | short =>
    cases h with
    | call _ callee items _ => cases constraints <;> cases rtype <;> rfl
    | tuple _ _ hf => contradiction
    | block _ _ _ hf _ => contradiction

end Node

end Anatomy
