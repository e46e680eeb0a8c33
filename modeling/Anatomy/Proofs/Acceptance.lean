import Anatomy.Proofs.Canonical
import Anatomy.Proofs.Grammar

namespace Anatomy

namespace Node

open Parts

def Signature (form : Form) (signature : Node) : Prop :=
  ∃ layers core, signature = layered layers core ∧ core.isWhere = false ∧ Core form core

theorem layered_append (layers inner : List (List Node)) (core : Node) :
    layered (layers ++ inner) core = layered layers (layered inner core) := by
  induction layers with
  | nil => rfl
  | cons constraints layers ih => rw [List.cons_append, layered, ih, layered]

theorem signature_iff_core {form : Form} {core : Node} (hw : core.isWhere = false) :
    Signature form core ↔ Core form core := by
  constructor
  · rintro ⟨layers, core', he, hw', hc⟩
    have hl : layered [] core = layered layers core' := he
    rwa [eq_of_layered_eq hw hw' hl]
  · intro hc
    exact ⟨[], core, rfl, hw, hc⟩

theorem signature_withWhere {form : Form} (constraints : Option (List Node)) (node : Node) :
    Signature form (withWhere constraints node) ↔ Signature form node := by
  rw [withWhere_eq_layered]
  constructor
  · rintro ⟨layers, core, he, hw, hc⟩
    obtain ⟨inner, rfl⟩ := exists_layered_of_eq hw he.symm
    exact ⟨inner, core, rfl, hw, hc⟩
  · rintro ⟨layers, core, rfl, hw, hc⟩
    exact ⟨constraints.toList ++ layers, core, (layered_append _ _ _).symm, hw, hc⟩

theorem core_arrow {core : Node} (h : ∀ items, core ≠ .expr .block items) : Core .arrow core :=
  .arrow core fun items he => absurd he (h items)

theorem core_ascription_iff {form : Form} {core rtype : Node} (hf : form ≠ .arrow) :
    Core form (.expr .ascription [core, rtype]) ↔ Applied form core := by
  constructor
  · intro h
    cases h with
    | arrow _ _ => contradiction
    | bare _ _ h => cases h
    | annotated _ _ _ h => exact h
  · exact .annotated form core rtype

theorem signature_withReturn {form : Form} {core : Node} (hf : form ≠ .arrow)
    (hw : core.isWhere = false) (hc : Core form core ↔ Applied form core) (rtype : Option Node) :
    Signature form (withReturn rtype core) ↔ Applied form core := by
  rw [signature_iff_core (isWhere_withReturn rtype hw)]
  cases rtype with
  | none => exact hc
  | some rtype => exact core_ascription_iff hf

theorem signature_call (form : Form) (callee : Node) (items : List Node) (rtype : Option Node) :
    Signature form (withReturn rtype (.expr .call (callee :: items))) := by
  have hw : (Node.expr .call (callee :: items)).isWhere = false := rfl
  by_cases hf : form = .arrow
  · subst form
    rw [signature_iff_core (isWhere_withReturn rtype hw)]
    apply core_arrow
    cases rtype <;> simp [withReturn]
  · have ha := Applied.call form callee items hf
    exact (signature_withReturn hf hw (iff_of_true (.bare form _ ha) ha) rtype).mpr ha

theorem signature_tuple_iff {form : Form} (items : List Node) (rtype : Option Node) :
    Signature form (withReturn rtype (.expr .tuple items)) ↔ form ≠ .short := by
  have hw : (Node.expr .tuple items).isWhere = false := rfl
  cases form with
  | arrow =>
    have hc : Core .arrow (withReturn rtype (.expr .tuple items)) := by
      apply core_arrow
      cases rtype <;> simp [withReturn]
    exact iff_of_true ((signature_iff_core (isWhere_withReturn rtype hw)).mpr hc) (by simp)
  | long =>
    have ha := Applied.tuple items
    have h := (signature_withReturn (by simp) hw (iff_of_true (.bare .long _ ha) ha) rtype).mpr ha
    exact iff_of_true h (by simp)
  | short =>
    have ha : ¬Applied .short (.expr .tuple items) := nofun
    have hc : ¬Core .short (.expr .tuple items) := by
      intro h
      cases h with
      | bare _ _ h => exact ha h
    have h := (signature_withReturn (by simp) hw (iff_of_false hc ha) rtype).not.mpr ha
    exact iff_of_false h (by simp)

theorem exists_dissectPlain_iff {form : Form} {signature : Node} (body : Node) :
    (∃ q, (Node.expr form.head [signature, body]).dissectPlain = .ok q) ↔
      Signature form signature := by
  constructor
  · rintro ⟨q, h⟩
    obtain ⟨name, -, he, -⟩ | ⟨form', layers, core, body', q', hw, he, hq, -⟩ :=
      dissectPlain_ok_cases h
    · simp at he
    · obtain ⟨hh, hc⟩ := Node.expr.inj he
      obtain rfl := Form.head_inj hh
      exact ⟨layers, core, (List.cons.inj hc).1, hw, exists_reads_iff_core.mp ⟨q', hq⟩⟩
  · rintro ⟨layers, core, rfl, hw, hc⟩
    obtain ⟨q, hq⟩ := exists_reads_iff_core.mpr hc
    exact ⟨_, (dissectPlain_layered_ok_iff hw).mpr ⟨q, hq, rfl⟩⟩

theorem exists_dissect_declaration_iff {form : Form} {name : Node} :
    (∃ q, (Node.expr form.head [name]).dissect = .ok q) ↔ form = .long ∧ name.isName = true := by
  have ha : (Node.expr form.head [name]).assigned? = none := by
    cases form <;> simp [assigned?, Form.head]
  rw [dissect_eq_dissectPlain ha]
  constructor
  · rintro ⟨q, h⟩
    obtain ⟨name', hn, he, -⟩ | ⟨form', layers, core, body', q', -, he, -⟩ :=
      dissectPlain_ok_cases h
    · obtain ⟨hh, hc⟩ := Node.expr.inj he
      obtain rfl := (List.cons.inj hc).1
      exact ⟨Form.head_inj hh, hn⟩
    · simp at he
  · rintro ⟨rfl, hn⟩
    exact ⟨_, dissectPlain_declaration hn⟩

end Node

namespace Parts

theorem eq_known_of_checkedForm {slot : Slot} {value : HeadSlot} {form : Form}
    (hk : ∀ s, value ≠ .text s) (h : checkedForm slot value = .ok form) :
    value = .known form.head := by
  cases value with
  | text s => exact absurd rfl (hk s)
  | known head =>
    cases hf : head.form? with
    | none => simp [checkedForm, HeadSlot.form?, HeadSlot.head?, hf] at h
    | some form' =>
      simp only [checkedForm, HeadSlot.form?, HeadSlot.head?, Option.bind_some, hf,
        Except.ok.injEq] at h
      rw [← h, Head.head_of_form? hf]

theorem hasForm_of_checkedForm {p : Parts} {form : Form} (hk : ∀ s, p.head ≠ some (.text s))
    (h : checkedForm .head p.leadingHead = .ok form) : p.HasForm form := by
  cases hh : p.head with
  | none =>
    rw [leadingHead, hh] at h
    exact .inr ⟨hh, (Except.ok.inj h).symm⟩
  | some value =>
    have ht : ∀ s, value ≠ .text s := fun s he => hk s (hh.trans (congrArg some he))
    have hl : p.leadingHead = value := by
      rw [leadingHead, hh]
      split
      · contradiction
      · rename_i he
        exact absurd (Option.some.inj he) (ht "")
      · rename_i he
        exact (Option.some.inj he).symm
    rw [hl] at h
    exact .inl (hh.trans (congrArg some (eq_known_of_checkedForm ht h)))

/-- Everything that can be made of a record: a declaration, a definition, or a definition within a
definition. -/
inductive Assembled (p : Parts) (form : Form) : Node → Prop
  | declaration (name : Node) (ha : p.anonHead = none) (hb : p.body = none)
      (hn : p.displayName = .ok (some name)) : Assembled p form (.expr form.head [name])
  | plain (name : Option Node) (body : Node) (ha : p.anonHead = none) (hb : p.body = some body)
      (hn : p.displayName = .ok name) :
      Assembled p form (.expr form.head [p.signatureNode (.known form.head) name, body])
  | nested (inner : Form) (name body : Node) (ha : p.anonHead = some (.known inner.head))
      (hn : p.name = some name) (hb : p.body = some body) :
      Assembled p form (.expr form.head
        [name, .expr inner.head [p.signatureNode (.known inner.head) none, body]])

theorem Assembled.of_assemblePlain {p : Parts} {form : Form} {tree : Node}
    (ha : p.anonHead = none) (h : p.assemblePlain (.known form.head) form = .ok tree) :
    Assembled p form tree := by
  obtain ⟨name, hn, ⟨body, hb, rfl⟩ | ⟨hb, -, callee, rfl, rfl⟩⟩ := assemblePlain_eq_ok_iff.mp h
  · exact .plain name body ha hb hn
  · exact .declaration callee ha hb hn

theorem exists_assembled {p : Parts} {tree : Node} (hh : ∀ s, p.head ≠ some (.text s))
    (hi : ∀ s, p.anonHead ≠ some (.text s)) (h : p.assemble = .ok tree) :
    ∃ form, p.HasForm form ∧ Assembled p form tree := by
  obtain ⟨form, hc, ⟨ha, h⟩ | ⟨innerHead, inner, ha, hs, h⟩⟩ := assemble_eq_ok_iff.mp h
  · have hf := hasForm_of_checkedForm hh hc
    rw [hf.leadingHead] at h
    exact ⟨form, hf, .of_assemblePlain ha h⟩
  · have ht : ∀ s, innerHead ≠ .text s := fun s he => hi s (ha.trans (congrArg some he))
    obtain rfl := eq_known_of_checkedForm ht hs
    obtain ⟨-, name, body, hn, hb, rfl⟩ := assembleAssigned_eq_ok_iff.mp h
    exact ⟨form, hasForm_of_checkedForm hh hc, .nested inner name body ha hn hb⟩

/-- The parameters of a definition without a name are such that the definition can be read: no short
form, and for an arrow no single parameter that does not make a signature by itself. -/
def Anonymous (form : Form) (p : Parts) : Prop :=
  form ≠ .short ∧ (form = .arrow → p.kwargs = none → p.rtype = none →
    ∀ item, p.args = some [item] → item.Signature .arrow)

/-- The records that make a definition. -/
inductive Definable (p : Parts) : Prop
  | declaration (name : Node) (hf : p.HasForm .long) (ha : p.anonHead = none) (hb : p.body = none)
      (hp : p.params = none) (hn : p.name = some name) (hi : name.isName = true)
  | named (ha : p.anonHead = none) (hb : p.body ≠ none) (hn : p.name ≠ none)
  | nameless (form : Form) (hf : p.HasForm form) (ha : p.anonHead = none) (hb : p.body ≠ none)
      (hn : p.name = none) (h : p.Anonymous form)
  | bound (inner : Form) (symbol : String) (hf : p.HasForm .short)
      (ha : p.anonHead = some (.known inner.head)) (hn : p.name = some (.symbol symbol))
      (h : p.Anonymous inner)
  | nested (form inner : Form) (name : Node) (hf : p.HasForm form)
      (ha : p.anonHead = some (.known inner.head)) (hn : p.name = some name)
      (h : name.Signature form)

theorem HasForm.eq {p : Parts} {form form' : Form} (h : p.HasForm form) (h' : p.HasForm form') :
    form = form' := by
  have he : HeadSlot.known form.head = .known form'.head := h.leadingHead.symm.trans h'.leadingHead
  exact Form.head_inj (HeadSlot.known.inj he)

theorem displayName_eq_none_iff {p : Parts} {name : Option Node} (h : p.displayName = .ok name) :
    name = none ↔ p.name = none := by
  unfold displayName at h
  split at h <;> cases h <;> simp_all

theorem eq_name_of_displayName {p : Parts} {name : Node} (h : p.displayName = .ok (some name))
    (hi : name.isName = true) : p.params = none ∧ p.name = some name := by
  cases hp : p.params with
  | none => exact ⟨rfl, by simpa [displayName, hp] using h⟩
  | some params =>
    cases hn : p.name with
    | none => simp [displayName, hp, hn] at h
    | some base =>
      simp only [displayName, hp, hn, Except.ok.injEq, Option.some.injEq] at h
      simp [← h, Node.isName] at hi

theorem signature_some (form : Form) (p : Parts) (name : Node) :
    (p.signatureNode (.known form.head) (some name)).Signature form := by
  rw [signatureNode, Node.signature_withWhere]
  exact Node.signature_call form name _ p.rtype

theorem signature_none_iff (form : Form) (p : Parts) :
    (p.signatureNode (.known form.head) none).Signature form ↔ p.Anonymous form := by
  rw [signatureNode, Node.signature_withWhere]
  by_cases hs : form = .arrow ∧ p.kwargs = none ∧ ∃ item, p.args = some [item]
  · obtain ⟨rfl, hk, item, hi⟩ := hs
    rw [parameterNode_lone hk hi]
    cases hr : p.rtype with
    | none => simp [Anonymous, withReturn, hk, hr, hi]
    | some rtype =>
      have hc : Node.Core .arrow (withReturn (some rtype) item) := Node.core_arrow (by simp [withReturn])
      have h : (withReturn (some rtype) item).Signature .arrow :=
        (Node.signature_iff_core rfl).mpr hc
      simp [Anonymous, hr, h]
  · rw [parameterNode_tuple hs, Node.signature_tuple_iff, Anonymous]
    exact ⟨fun hf => ⟨hf, fun ha hk _ item hi => absurd ⟨ha, hk, item, hi⟩ hs⟩, And.left⟩

theorem assigned?_signatureNode (form : Form) (p : Parts) (name : Option Node) (body : Node) :
    (Node.expr form.head [p.signatureNode (.known form.head) name, body]).assigned? = none := by
  cases form with
  | long | arrow => exact Node.assigned?_form_head _ (by simp)
  | short =>
    have ht : ∃ head children, p.signatureNode (.known Form.short.head) name = .expr head children := by
      have hp : ∃ head children,
          p.parameterNode (.known Form.short.head) name = .expr head children := by
        cases name with
        | some name => exact ⟨_, _, rfl⟩
        | none => exact ⟨_, _, parameterNode_tuple (by simp)⟩
      obtain ⟨head, children, hp⟩ := hp
      rw [signatureNode, hp]
      cases p.whereParams <;> cases p.rtype <;> exact ⟨_, _, rfl⟩
    obtain ⟨head, children, ht⟩ := ht
    rw [ht]
    rfl

theorem exists_dissect_plain_iff {p : Parts} {form : Form} {name : Option Node} (body : Node)
    (hn : p.displayName = .ok name) :
    (∃ q, (Node.expr form.head [p.signatureNode (.known form.head) name, body]).dissect = .ok q) ↔
      (p.name = none → p.Anonymous form) := by
  rw [Node.dissect_eq_dissectPlain (assigned?_signatureNode form p name body),
    Node.exists_dissectPlain_iff, ← displayName_eq_none_iff hn]
  cases name with
  | some name => simp [signature_some]
  | none => simp [signature_none_iff]

theorem not_signature_symbol (symbol : String) : ¬(Node.symbol symbol).Signature .short := by
  rw [Node.signature_iff_core rfl]
  intro h
  cases h with
  | bare _ _ h => cases h

theorem exists_dissect_nested_iff {p : Parts} {form inner : Form} {name : Node} (body : Node) :
    (∃ q, (Node.expr form.head [name, .expr inner.head
        [p.signatureNode (.known inner.head) none, body]]).dissect = .ok q) ↔
      (form = .short ∧ (∃ symbol, name = .symbol symbol) ∧ p.Anonymous inner) ∨
        name.Signature form := by
  by_cases hb : form = .short ∧ (∃ symbol, name = .symbol symbol) ∧ inner ≠ .short
  · obtain ⟨rfl, ⟨symbol, rfl⟩, hi⟩ := hb
    have hd : ∀ q, (Node.expr Form.short.head [.symbol symbol, .expr inner.head
        [p.signatureNode (.known inner.head) none, body]]).dissect = .ok q ↔ _ :=
      fun q => Node.dissect_bound_ok_iff hi
    simp only [hd, not_signature_symbol, or_false, Node.symbol.injEq, exists_eq', true_and]
    rw [← signature_none_iff, ← Node.exists_dissectPlain_iff body]
    constructor
    · rintro ⟨q, q', h, -⟩
      exact ⟨q', h⟩
    · rintro ⟨q', h⟩
      exact ⟨_, q', h, rfl⟩
  · have ha : (Node.expr form.head [name, .expr inner.head
        [p.signatureNode (.known inner.head) none, body]]).assigned? = none := by
      cases hs : (Node.expr form.head [name, .expr inner.head
        [p.signatureNode (.known inner.head) none, body]]).assigned? with
      | none => rfl
      | some found =>
        obtain ⟨symbol, inner', definition⟩ := found
        obtain ⟨hi, ⟨children, rfl⟩, he⟩ := Node.assigned?_eq_some_iff.mp hs
        obtain ⟨hh, hc⟩ := Node.expr.inj he
        obtain ⟨hn, hc⟩ := List.cons.inj hc
        have hh' : inner = inner' := Form.head_inj (Node.expr.inj (List.cons.inj hc).1).1
        have hf : form = .short := Form.head_inj hh
        exact absurd ⟨hf, ⟨symbol, hn⟩, hh' ▸ hi⟩ hb
    rw [Node.dissect_eq_dissectPlain ha, Node.exists_dissectPlain_iff]
    constructor
    · exact .inr
    · rintro (⟨hf, hn, hi⟩ | h)
      · exact absurd ⟨hf, hn, hi.1⟩ hb
      · exact h

/-- Of the trees that are put together from records, those are read as definitions that come from
definable records, and no others. -/
theorem dissect_assemble_iff_definable (p : Parts) (tree : Node)
    (hh : ∀ s, p.head ≠ some (.text s)) (hi : ∀ s, p.anonHead ≠ some (.text s))
    (h : p.assemble = .ok tree) : (∃ q, tree.dissect = .ok q) ↔ p.Definable := by
  obtain ⟨form, hf, ht⟩ := exists_assembled hh hi h
  cases ht with
  | declaration name ha hb hn =>
    rw [Node.exists_dissect_declaration_iff]
    constructor
    · rintro ⟨rfl, hname⟩
      obtain ⟨hp, hn⟩ := eq_name_of_displayName hn hname
      exact .declaration name hf ha hb hp hn hname
    · intro hd
      cases hd with
      | declaration name' hf' _ _ hp hn' hi =>
        have hd : p.displayName = .ok (some name') := by rw [displayName, hp, hn']
        obtain rfl : name' = name := by simpa [hd] using hn
        exact ⟨hf.eq hf', hi⟩
      | named _ hb' _ => exact absurd hb hb'
      | nameless _ _ _ hb' _ _ => exact absurd hb hb'
      | bound _ _ _ ha' _ _ => simp [ha] at ha'
      | nested _ _ _ _ ha' _ _ => simp [ha] at ha'
  | plain name body ha hb hn =>
    rw [exists_dissect_plain_iff body hn]
    constructor
    · intro h
      have hb : p.body ≠ none := by simp [hb]
      by_cases hn : p.name = none
      · exact .nameless form hf ha hb hn (h hn)
      · exact .named ha hb hn
    · intro hd hn
      cases hd with
      | declaration _ _ _ hb' _ _ _ => simp [hb] at hb'
      | named _ _ hn' => exact absurd hn hn'
      | nameless _ hf' _ _ _ h => exact hf.eq hf' ▸ h
      | bound _ _ _ ha' _ _ => simp [ha] at ha'
      | nested _ _ _ _ ha' _ _ => simp [ha] at ha'
  | nested inner name body ha hn hb =>
    rw [exists_dissect_nested_iff body]
    constructor
    · rintro (⟨rfl, ⟨symbol, rfl⟩, hp⟩ | hs)
      · exact .bound inner symbol hf ha hn hp
      · exact .nested form inner name hf ha hn hs
    · intro hd
      cases hd with
      | declaration _ _ ha' _ _ _ _ => simp [ha] at ha'
      | named ha' _ _ => simp [ha] at ha'
      | nameless _ _ ha' _ _ _ => simp [ha] at ha'
      | bound inner' symbol hf' ha' hn' h =>
        have hinner : inner = inner' := Form.head_inj (by simpa [ha] using ha')
        exact .inl ⟨hf.eq hf', ⟨symbol, by simpa [hn] using hn'⟩, hinner ▸ h⟩
      | nested form' _ name' hf' _ hn' h =>
        have hname : name = name' := by simpa [hn] using hn'
        exact .inr (hf.eq hf' ▸ hname ▸ h)

theorem dissect_assemble_iff_definable_where : ∃ p : Parts,
    (∀ s, p.head ≠ some (.text s)) ∧ (∀ s, p.anonHead ≠ some (.text s)) ∧
    p.assemble = .ok (.expr .arrow [.expr .whereClause [], .symbol "x"]) ∧ ¬p.Definable := by
  let p : Parts := {
    head := some (.known .arrow), args := some [.expr .whereClause []], body := some (.symbol "x") }
  refine ⟨p, by simp [p], by simp [p], rfl, fun hd => ?_⟩
  obtain ⟨q, hq⟩ := (dissect_assemble_iff_definable p _ (by simp [p]) (by simp [p]) rfl).mpr hd
  cases hq

/-- A record of a short definition without a name is put together, and nobody reads the result. -/
theorem exists_assemble_not_dissect : ∃ p tree, (∀ s, p.head ≠ some (.text s)) ∧
    (∀ s, p.anonHead ≠ some (.text s)) ∧ Parts.assemble p = .ok tree ∧
    ∀ q, tree.dissect ≠ .ok q := by
  refine ⟨{ head := some (.known .assign), body := some (.symbol "x") },
    .expr .assign [.expr .tuple [], .symbol "x"], by simp, by simp, rfl, fun q hq => ?_⟩
  cases hq

end Parts

end Anatomy
