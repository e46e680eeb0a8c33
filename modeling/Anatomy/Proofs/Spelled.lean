import Anatomy.Proofs.Leaves

namespace Anatomy

def HeadSlot.spelled (slot : HeadSlot) : HeadSlot :=
  .text slot.spelling

theorem HeadSlot.form?_spelled (slot : HeadSlot) : slot.spelled.form? = slot.form? := by
  cases slot with
  | known head => exact congrArg (·.bind Head.form?) (Head.ofText?_text head)
  | text spelling => rfl

theorem HeadSlot.spelled_ne_known (slot : HeadSlot) (head : Head) : slot.spelled ≠ .known head :=
  HeadSlot.noConfusion

theorem Node.tuple_singleton_ne (item : Node) : .expr .tuple [item] ≠ item := by
  intro h
  have hsize := congrArg sizeOf h
  simp only [Node.expr.sizeOf_spec, List.cons.sizeOf_spec, List.nil.sizeOf_spec] at hsize
  omega

namespace Parts

def spelled (p : Parts) : Parts :=
  { p with head := p.head.map .spelled, anonHead := p.anonHead.map .spelled }

/-- An arrow without a name that has the item as its only parameter. -/
def Lone (form : Form) (p : Parts) (item : Node) : Prop :=
  form = .arrow ∧ p.name = none ∧ p.kwargs = none ∧ p.args = some [item]

/-- A record of such an arrow, which stands for itself or is bound to a name. -/
def LoneArrow (p : Parts) (item : Node) : Prop :=
  p.kwargs = none ∧ p.args = some [item] ∧
    (p.anonHead = some (.known .arrow) ∨
      p.anonHead = none ∧ p.name = none ∧ p.head = some (.known .arrow))

def arrowAround (p : Parts) (parameters : Node) : Node :=
  .expr .arrow (withWhere p.whereParams (withReturn p.rtype parameters) :: p.body.toList)

def around (p : Parts) (form : Form) (parameters : Node) : Node :=
  match p.anonHead, p.name with
  | some _, some name => .expr form.head [name, p.arrowAround parameters]
  | _, _ => p.arrowAround parameters

/-- Two outcomes that differ in nothing but a tuple around the single parameter of an arrow. -/
inductive Respelled (lone : Node → Prop) (around : Node → Node) :
    Except Incomplete Node → Except Incomplete Node → Prop
  | failed (cause : Incomplete) : Respelled lone around (.error cause) (.error cause)
  | same (tree : Node) (h : ∀ item, ¬lone item) : Respelled lone around (.ok tree) (.ok tree)
  | wrapped (item : Node) (h : lone item) :
      Respelled lone around (.ok (around item)) (.ok (around (.expr .tuple [item])))

section Respelling

variable {p : Parts} {form : Form} {head : HeadSlot}

theorem parameterNode_of_ne (h : head ≠ .known .arrow) :
    p.parameterNode head none = .expr .tuple p.parameterNodes :=
  parameterNode_eq_tuple fun hl => h hl.1

theorem signatureNode_of_ne {name : Option Node} (h : head ≠ .known .arrow)
    (hl : name = none → ¬(form = .arrow ∧ p.kwargs = none ∧ ∃ item, p.args = some [item])) :
    p.signatureNode head name = p.signatureNode (.known form.head) name := by
  cases name with
  | some callee => rfl
  | none => rw [signatureNode, signatureNode, parameterNode_of_ne h, parameterNode_tuple (hl rfl)]

theorem assemblePlain_of_bodiless (hb : p.body = none) (head head' : HeadSlot) :
    p.assemblePlain head form = p.assemblePlain head' form := by
  unfold assemblePlain
  rw [hb]
  cases p.displayName with
  | error cause => rfl
  | ok name => cases name <;> cases p.bodySlots <;> rfl

theorem respelled_assemblePlain (h : head ≠ .known .arrow) :
    Respelled (Lone form p) p.arrowAround (p.assemblePlain (.known form.head) form)
      (p.assemblePlain head form) := by
  cases hd : p.displayName with
  | error cause =>
    simp only [assemblePlain, hd]
    exact .failed cause
  | ok name =>
    cases hb : p.body with
    | none =>
      -- A single parameter is a slot that needs a body, so there is none if the record succeeds.
      rw [assemblePlain_of_bodiless hb head (.known form.head)]
      cases ho : p.assemblePlain (.known form.head) form with
      | error cause => exact .failed cause
      | ok tree =>
        obtain ⟨_, -, ⟨body, hb', -⟩ | ⟨-, hs, -⟩⟩ := assemblePlain_eq_ok_iff.mp ho
        · rw [hb] at hb'
          cases hb'
        · obtain ⟨ha, -⟩ := bodySlots_eq_nil_iff.mp hs
          refine .same tree ?_
          rintro item ⟨-, -, -, hi⟩
          rw [ha] at hi
          cases hi
    | some body =>
      have hok : ∀ head, p.assemblePlain head form =
          .ok (.expr form.head [p.signatureNode head name, body]) :=
        fun head => assemblePlain_eq_ok_iff.mpr ⟨name, hd, .inl ⟨body, hb, rfl⟩⟩
      rw [hok, hok]
      by_cases hl : ∃ item, Lone form p item
      · obtain ⟨item, rfl, hn, hk, hi⟩ := hl
        obtain rfl : name = none := (displayName_eq_none_iff hd).mpr hn
        have hnodes : p.parameterNodes = [item] := by
          rw [parameterNodes, keywordNodes, hk, hi]
          rfl
        have haround : ∀ parameters, .expr Form.arrow.head
            [withWhere p.whereParams (withReturn p.rtype parameters), body] =
              p.arrowAround parameters := by
          intro parameters
          rw [arrowAround, hb]
          rfl
        rw [signatureNode, signatureNode, parameterNode_of_ne h, parameterNode_lone hk hi, hnodes,
          haround, haround]
        exact .wrapped item ⟨rfl, hn, hk, hi⟩
      · rw [signatureNode_of_ne h]
        · exact .same _ (not_exists.mp hl)
        · rintro rfl ⟨hf, hk, item, hi⟩
          exact hl ⟨item, hf, (displayName_eq_none_iff hd).mp rfl, hk, hi⟩

theorem respelled_assembleAssigned {inner : Form} {innerHead : HeadSlot}
    (ha : p.anonHead = some innerHead) (h : head ≠ .known .arrow) :
    Respelled (Lone inner { p with name := none }) (p.around form)
      (p.assembleAssigned form (.known inner.head) inner) (p.assembleAssigned form head inner) := by
  cases hn : p.name with
  | none =>
    cases hp : p.params with
    | none | some params =>
      simp only [assembleAssigned, displayName, hp, hn]
      exact .failed _
  | some name =>
    cases hp : p.params with
    | some params =>
      simp only [assembleAssigned, assemblePlain, displayName, hp, hn]
      exact .failed _
    | none =>
      have hplain : Respelled (Lone inner { p with name := none }) p.arrowAround
          (assemblePlain (.known inner.head) inner { p with name := none })
          (assemblePlain head inner { p with name := none }) := respelled_assemblePlain h
      have haround : ∀ parameters,
          .expr form.head [name, p.arrowAround parameters] = p.around form parameters := by
        intro parameters
        rw [around, ha, hn]
      have hd : p.displayName = .ok (some name) := by rw [displayName, hp, hn]
      simp only [assembleAssigned, hd]
      generalize assemblePlain (.known inner.head) inner { p with name := none } = x at hplain ⊢
      generalize assemblePlain head inner { p with name := none } = y at hplain ⊢
      cases hplain with
      | failed cause => exact .failed cause
      | same tree hl => exact .same _ hl
      | wrapped item hl =>
        simp only [haround]
        exact .wrapped item hl

theorem checkedForm_spelled (slot : Slot) (form : Form) :
    checkedForm slot (HeadSlot.known form.head).spelled = .ok form := by
  rw [checkedForm, HeadSlot.form?_spelled]
  cases form <;> rfl

theorem exists_hasForm (h : IsFormHead p.head) : ∃ form, p.HasForm form := by
  obtain hh | ⟨form, hh⟩ := h
  · exact ⟨.long, .inr ⟨hh, rfl⟩⟩
  · exact ⟨form, .inl hh⟩

theorem HasForm.eq_arrow_iff (h : p.HasForm form) : form = .arrow ↔ p.head = some (.known .arrow) := by
  obtain hh | ⟨hh, rfl⟩ := h
  · rw [hh]
    cases form <;> simp [Form.head]
  · simp [hh]

theorem HasForm.leadingHead_spelled (h : p.HasForm form) :
    checkedForm .head p.spelled.leadingHead = .ok form ∧ p.spelled.leadingHead ≠ .known .arrow := by
  obtain hh | ⟨hh, rfl⟩ := h
  · have hs : p.spelled.head = some (HeadSlot.known form.head).spelled :=
      congrArg (Option.map HeadSlot.spelled) hh
    have hl : p.spelled.leadingHead = (HeadSlot.known form.head).spelled := by
      rw [Parts.leadingHead, hs]
      cases form <;> rfl
    rw [hl]
    exact ⟨checkedForm_spelled .head form, HeadSlot.spelled_ne_known _ _⟩
  · have hs : p.spelled.head = none := congrArg (Option.map HeadSlot.spelled) hh
    rw [Parts.leadingHead, hs]
    exact ⟨rfl, by simp⟩

theorem HasForm.loneArrow_iff {item : Node} (h : p.HasForm form) (hn : p.anonHead = none) :
    p.LoneArrow item ↔ Lone form p item := by
  constructor
  · rintro ⟨hk, hi, ha | ⟨-, hname, hhead⟩⟩
    · rw [hn] at ha
      cases ha
    · exact ⟨h.eq_arrow_iff.mpr hhead, hname, hk, hi⟩
  · rintro ⟨hf, hname, hk, hi⟩
    exact ⟨hk, hi, .inr ⟨hn, hname, h.eq_arrow_iff.mp hf⟩⟩

theorem loneArrow_iff_of_bound {item : Node} (hb : p.anonHead = some (.known form.head)) :
    p.LoneArrow item ↔ Lone form { p with name := none } item := by
  constructor
  · rintro ⟨hk, hi, ha | ⟨ha, -⟩⟩
    · rw [hb] at ha
      exact ⟨Form.head_inj (HeadSlot.known.inj (Option.some.inj ha)), rfl, hk, hi⟩
    · rw [hb] at ha
      cases ha
  · rintro ⟨rfl, -, hk, hi⟩
    exact ⟨hk, hi, .inl hb⟩

theorem Respelled.congr {lone lone' : Node → Prop} {around around' : Node → Node}
    {x y : Except Incomplete Node} (h : Respelled lone around x y)
    (hl : ∀ item, lone' item ↔ lone item) (ha : ∀ parameters, around' parameters = around parameters) :
    Respelled lone' around' x y := by
  obtain rfl : lone' = lone := funext fun item => propext (hl item)
  obtain rfl : around' = around := funext ha
  exact h

theorem respelled_assemble (hf : p.HasForm form) (ha : IsFormHead p.anonHead) :
    Respelled p.LoneArrow (p.around form) p.assemble p.spelled.assemble := by
  obtain ⟨hc, hne⟩ := hf.leadingHead_spelled
  obtain hn | ⟨inner, hi⟩ := ha
  · have hs : p.spelled.assemble = p.assemblePlain p.spelled.leadingHead form := by
      have hn' : p.spelled.anonHead = none := congrArg (Option.map HeadSlot.spelled) hn
      rw [assemble, hc, hn']
      rfl
    rw [hf.assemble hn, hs]
    refine (respelled_assemblePlain hne).congr (fun item => hf.loneArrow_iff hn) fun parameters => ?_
    rw [around, hn]
  · have hp : p.assemble = p.assembleAssigned form (.known inner.head) inner := by
      rw [assemble, hf.leadingHead, checkedForm_known, hi]
      simp only [checkedForm_known]
    have hs : p.spelled.assemble =
        p.assembleAssigned form (HeadSlot.known inner.head).spelled inner := by
      have hi' : p.spelled.anonHead = some (HeadSlot.known inner.head).spelled :=
        congrArg (Option.map HeadSlot.spelled) hi
      rw [assemble, hc, hi']
      simp only [checkedForm_spelled]
      rfl
    rw [hp, hs]
    exact (respelled_assembleAssigned hi (HeadSlot.spelled_ne_known _ _)).congr
      (fun item => loneArrow_iff_of_bound hi) fun parameters => rfl

theorem arrowAround_inj {a b : Node} (h : p.arrowAround a = p.arrowAround b) : a = b := by
  have hs : withWhere p.whereParams (withReturn p.rtype a) =
      withWhere p.whereParams (withReturn p.rtype b) := by
    simpa [arrowAround] using h
  cases hw : p.whereParams <;> cases hr : p.rtype <;> simpa [hw, hr, withWhere, withReturn] using hs

theorem around_inj {a b : Node} (h : p.around form a = p.around form b) : a = b := by
  unfold around at h
  split at h
  · exact arrowAround_inj (by simpa using h)
  · exact arrowAround_inj h

end Respelling

/-- Known heads and their texts come to the same: the record fails for one cause, or it makes one
definition. The exception is an arrow with a single parameter and no name of its own. There the
parameter is in a tuple if the arrow is given by its text. -/
theorem assemble_spelled (p : Parts) (hh : IsFormHead p.head) (ha : IsFormHead p.anonHead) :
    (∃ cause, p.assemble = .error cause ∧ p.spelled.assemble = .error cause) ∨
    ∃ tree tree', p.assemble = .ok tree ∧ p.spelled.assemble = .ok tree' ∧
      (tree' = tree ↔ ¬∃ item, p.LoneArrow item) ∧
      ∀ item, p.LoneArrow item → ∃ form, p.HasForm form ∧
        tree = p.around form item ∧ tree' = p.around form (.expr .tuple [item]) := by
  obtain ⟨form, hf⟩ := exists_hasForm hh
  have h := respelled_assemble hf ha
  generalize p.assemble = x at h ⊢
  generalize p.spelled.assemble = y at h ⊢
  cases h with
  | failed cause => exact .inl ⟨cause, rfl, rfl⟩
  | same tree hl =>
    refine .inr ⟨tree, tree, rfl, rfl, ?_, fun item hi => absurd hi (hl item)⟩
    simpa using hl
  | wrapped item hl =>
    refine .inr ⟨_, _, rfl, rfl, ?_, ?_⟩
    · refine iff_of_false (fun he => Node.tuple_singleton_ne item (around_inj he)) ?_
      exact not_not.mpr ⟨item, hl⟩
    · rintro item' ⟨-, hi, -⟩
      obtain rfl : item = item' := by simpa [hl.2.1] using hi
      exact ⟨form, hf, rfl, rfl⟩

theorem assemble_spelled_bound : ∃ p : Parts, IsFormHead p.head ∧ IsFormHead p.anonHead ∧
    p.assemble = .ok (.expr .assign [.symbol "f",
      .expr .arrow [.expr .ascription [.symbol "x", .symbol "T"], .symbol "x"]]) ∧
    p.spelled.assemble = .ok (.expr .assign [.symbol "f",
      .expr .arrow [.expr .ascription [.expr .tuple [.symbol "x"], .symbol "T"], .symbol "x"]]) := by
  let p : Parts := {
    head := some (.known .assign), name := some (.symbol "f"), anonHead := some (.known .arrow),
    args := some [.symbol "x"], rtype := some (.symbol "T"), body := some (.symbol "x") }
  have hh : IsFormHead p.head := .inr ⟨.short, rfl⟩
  have ha : IsFormHead p.anonHead := .inr ⟨.arrow, rfl⟩
  have hl : p.LoneArrow (.symbol "x") := ⟨rfl, rfl, .inl rfl⟩
  obtain ⟨_, h, -⟩ | ⟨tree, tree', h, h', -, hlone⟩ := assemble_spelled p hh ha
  · cases h
  · obtain ⟨form, hf, rfl, rfl⟩ := hlone _ hl
    obtain rfl : form = .short := hf.eq (.inl rfl)
    exact ⟨p, hh, ha, h, h'⟩

end Parts

end Anatomy
