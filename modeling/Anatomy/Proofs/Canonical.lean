import Anatomy.Proofs.Writing

namespace Anatomy.Parts

/-- The head of a record stands for a form. Without a head the form is the long one. -/
def HasForm (p : Parts) (form : Form) : Prop :=
  p.head = some (.known form.head) ∨ p.head = none ∧ form = .long

/-- The parameters of a record can be told apart in a list: there is no empty list of positional
ones, and the first of them is not taken for the keywords. -/
structure Listable (p : Parts) : Prop where
  args_ne_nil : p.args ≠ some []
  not_keywords : p.kwargs = none →
    ∀ keywords items, p.args ≠ some (.expr .parameters keywords :: items)

/-- The slots beside the head of a definition without a name. An arrow has no return type, and its
only parameter is read as one. -/
structure Nameless (form : Form) (p : Parts) : Prop where
  form_ne : form ≠ .short
  name : p.name = none
  params : p.params = none
  anonHead : p.anonHead = none
  body : p.body ≠ none
  listable : p.Listable
  rtype : form = .arrow → p.rtype = none
  item : form = .arrow → p.kwargs = none →
    ∀ item, p.args = some [item] → item.isReadApart = false

inductive Canonical (p : Parts) : Prop
  | declaration (name : Node) (hf : p.HasForm .long) (hn : name.isName = true)
      (hp : p = { head := p.head, name := some name })
  | named (form : Form) (name : Node) (ha : form ≠ .arrow) (hf : p.HasForm form)
      (hn : p.name = some name) (hh : p.anonHead = none) (hb : p.body ≠ none) (hl : p.Listable)
      (hc : p.params = none → ∀ base params, name ≠ .expr .curly (base :: params))
  | nameless (form : Form) (hf : p.HasForm form) (h : Nameless form p)
  | bound (form : Form) (symbol : String) (hf : p.head = some (.known .assign))
      (hn : p.name = some (.symbol symbol)) (ha : p.anonHead = some (.known form.head))
      (h : Nameless form { p with name := none, anonHead := none })

theorem parameterList_parameterNodes {p : Parts} (h : p.Listable) :
    Node.parameterList p.parameterNodes = { args := p.args, kwargs := p.kwargs } := by
  obtain ⟨hn, hk⟩ := h
  cases p with
  | mk head name anonHead params args kwargs rtype whereParams body =>
    match kwargs, args with
    | some keywords, none => rfl
    | some keywords, some [] => exact absurd rfl hn
    | some keywords, some (item :: items) => rfl
    | none, none => rfl
    | none, some [] => exact absurd rfl hn
    | none, some (item :: items) =>
      have hi : ∀ keywords, item ≠ .expr .parameters keywords :=
        fun keywords he => hk rfl keywords items (by rw [he])
      simp only [parameterNodes, keywordNodes, List.nil_append, Option.getD_some]
      unfold Node.parameterList
      split <;> simp_all

theorem exists_displayName {p : Parts} {name : Node} (hn : p.name = some name)
    (hc : p.params = none → ∀ base params, name ≠ .expr .curly (base :: params)) :
    ∃ callee, p.displayName = .ok (some callee) ∧
      Node.calleeParts callee = { name := p.name, params := p.params } := by
  cases hp : p.params with
  | none =>
    refine ⟨name, by rw [displayName, hp, hn], ?_⟩
    unfold Node.calleeParts
    split
    · exact absurd rfl (hc hp _ _)
    · rw [hn]
  | some params =>
    refine ⟨.expr .curly (name :: params), by rw [displayName, hp, hn], ?_⟩
    rw [hn]
    rfl

theorem Nameless.reads {form : Form} {p : Parts} (h : Nameless form p) :
    Node.Reads form (p.parameterNode (.known form.head) none) { args := p.args, kwargs := p.kwargs } ∧
      (p.parameterNode (.known form.head) none).isWhere = false := by
  by_cases hs : form = .arrow ∧ p.kwargs = none ∧ ∃ item, p.args = some [item]
  · obtain ⟨rfl, hk, item, hi⟩ := hs
    rw [parameterNode_lone hk hi, hk, hi]
    exact Node.Reads.of_not_isReadApart (h.item rfl hk item hi)
  · rw [parameterNode_tuple hs, ← parameterList_parameterNodes h.listable]
    exact ⟨.tuple form _ h.form_ne, rfl⟩

theorem HasForm.leadingHead {p : Parts} {form : Form} (h : p.HasForm form) :
    p.leadingHead = .known form.head := by
  obtain hh | ⟨hh, rfl⟩ := h
  · rw [Parts.leadingHead, hh]
  · rw [Parts.leadingHead, hh]
    rfl

theorem HasForm.assemble {p : Parts} {form : Form} (h : p.HasForm form) (ha : p.anonHead = none) :
    p.assemble = p.assemblePlain (.known form.head) form := by
  rw [Parts.assemble, h.leadingHead, checkedForm_known, ha]

def parameters (p : Parts) : Parts :=
  { name := p.name, params := p.params, args := p.args, kwargs := p.kwargs }

theorem enclosed_parameters {p : Parts} {form : Form} {body : Node} (hf : p.HasForm form)
    (ha : p.anonHead = none) (hb : p.body = some body) :
    p.parameters.enclosed form p.rtype p.whereParams body = { p with head := some p.leadingHead } := by
  rw [hf.leadingHead]
  simp [enclosed, parameters, ha, hb]

theorem dissect_assemble_of_reads {p : Parts} {form : Form} {name : Option Node}
    (hf : p.HasForm form) (ha : p.anonHead = none) (hn : p.displayName = .ok name)
    (hb : p.body ≠ none) (hr : form = .arrow → p.rtype = none)
    (h : Node.Reads form (p.parameterNode (.known form.head) name) p.parameters)
    (hw : (p.parameterNode (.known form.head) name).isWhere = false) :
    ∃ tree, p.assemble = .ok tree ∧ tree.dissect = .ok { p with head := some p.leadingHead } := by
  obtain ⟨body, hb⟩ := Option.ne_none_iff_exists'.mp hb
  refine ⟨_, (hf.assemble ha).trans (assemblePlain_of_body form hn hb), ?_⟩
  rw [signatureNode, Node.dissect_eq_dissectPlain (h.assigned? _ _ _),
    Node.dissectPlain_of_reads h hw hr, enclosed_parameters hf ha hb]

theorem Nameless.parameters {form : Form} {p : Parts} (h : Nameless form p) :
    p.parameters = { args := p.args, kwargs := p.kwargs } := by
  rw [Parts.parameters, h.name, h.params]

theorem Nameless.displayName {form : Form} {p : Parts} (h : Nameless form p) :
    p.displayName = .ok none := by
  rw [Parts.displayName, h.params, h.name]

theorem Nameless.dissect_assemble_of_bound {form : Form} {p : Parts} {symbol : String}
    (h : Nameless form { p with name := none, anonHead := none })
    (hf : p.head = some (.known .assign)) (hn : p.name = some (.symbol symbol))
    (ha : p.anonHead = some (.known form.head)) :
    ∃ tree, p.assemble = .ok tree ∧ tree.dissect = .ok { p with head := some p.leadingHead } := by
  obtain ⟨hr, hw⟩ := h.reads
  obtain ⟨body, hb⟩ := Option.ne_none_iff_exists'.mp h.body
  have hp : p.params = none := h.params
  have hb : p.body = some body := hb
  have he : (enclosed form p.rtype p.whereParams body
      { args := p.args, kwargs := p.kwargs }).bound symbol form = p := by
    simp [enclosed, bound, ← hf, ← hn, ← ha, ← hb, ← hp]
  have hl : p.leadingHead = .known .assign := by rw [leadingHead, hf]
  refine ⟨.expr .assign [.symbol symbol, .expr form.head [withWhere p.whereParams
    (withReturn p.rtype (p.parameterNode (.known form.head) none)), body]], ?_, ?_⟩
  · rw [← he]
    exact assemble_bound_enclosed symbol form _ _ body rfl
  · have hd := Node.dissectPlain_of_reads hr hw h.rtype p.whereParams body
    rw [hl, ← hf]
    exact (Node.dissect_bound_ok_iff h.form_ne).mpr ⟨_, hd, he.symm⟩

/-- A definition made of a canonical record is taken apart into that record, with the head filled
in. -/
theorem dissect_assemble {p : Parts} (h : Canonical p) :
    ∃ tree, p.assemble = .ok tree ∧ tree.dissect = .ok { p with head := some p.leadingHead } := by
  cases h with
  | declaration name hf hn hp =>
    refine ⟨.expr .function [name], ?_, ?_⟩
    · rw [hf.assemble (by rw [hp]), hp]
      rfl
    · rw [Node.dissect_eq_dissectPlain rfl, Node.dissectPlain_declaration hn, hf.leadingHead, hp]
      rfl
  | named form name ha hf hn hh hb hl hc =>
    obtain ⟨callee, hd, hcallee⟩ := exists_displayName hn hc
    have hr := Node.Reads.call form callee p.parameterNodes ha
    rw [parameterList_parameterNodes hl, hcallee] at hr
    exact dissect_assemble_of_reads hf hh hd hb (fun he => absurd he ha) hr rfl
  | nameless form hf h =>
    obtain ⟨hr, hw⟩ := h.reads
    rw [← h.parameters] at hr
    exact dissect_assemble_of_reads hf h.anonHead h.displayName h.body h.rtype hr hw
  | bound form symbol hf hn ha h => exact h.dissect_assemble_of_bound hf hn ha

theorem dissect_assemble_bound_arrow : ∃ p : Parts, Canonical p ∧
    p.anonHead = some (.known .arrow) ∧ p.args = some [.expr .ascription [.symbol "x", .symbol "T"]] ∧
    ∃ tree, p.assemble = .ok tree ∧ tree.dissect = .ok { p with head := some p.leadingHead } := by
  let p : Parts := {
    head := some (.known .assign), name := some (.symbol "f"), anonHead := some (.known .arrow),
    args := some [.expr .ascription [.symbol "x", .symbol "T"]],
    whereParams := some [.symbol "T"], body := some (.symbol "x") }
  have hp : Canonical p := .bound .arrow "f" rfl rfl rfl {
    form_ne := by simp
    name := rfl
    params := rfl
    anonHead := rfl
    body := by simp [p]
    listable := ⟨by simp [p], by simp [p]⟩
    rtype := fun _ => rfl
    item := by simp [p, Node.isReadApart] }
  exact ⟨p, hp, rfl, rfl, dissect_assemble hp⟩

end Anatomy.Parts
