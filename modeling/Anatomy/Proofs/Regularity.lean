import Anatomy.Proofs.Canonical
import Anatomy.Proofs.NormalForm

namespace Anatomy

namespace Parts

/-- The head of the definition proper: of what a symbol is bound to, or else its own. -/
def innerHead (p : Parts) : Option HeadSlot :=
  p.anonHead.or p.head

/-- The records of definitions. -/
structure Regular (p : Parts) : Prop where
  head : ∃ form : Form, p.head = some (.known form.head)
  bodiless : p.body = none → p.name ≠ none ∧
    p.args = none ∧ p.kwargs = none ∧ p.rtype = none ∧ p.whereParams = none ∧ p.params = none
  args_ne_nil : p.args ≠ some []
  params : p.params ≠ none → p.name ≠ none
  nameless : p.name = none →
    p.anonHead = none ∧ (p.head = some (.known .function) ∨ p.head = some (.known .arrow))
  bound : p.anonHead ≠ none →
    p.head = some (.known .assign) ∧ (∃ symbol, p.name = some (.symbol symbol)) ∧
      (p.anonHead = some (.known .function) ∨ p.anonHead = some (.known .arrow))
  arrow : p.innerHead = some (.known .arrow) → p.rtype = none ∧ p.params = none ∧ p.body ≠ none
  not_keywords : p.innerHead ≠ some (.known .arrow) → p.kwargs = none →
    ∀ keywords items, p.args ≠ some (.expr .parameters keywords :: items)

theorem head_of_ne_short {form : Form} (h : form ≠ .short) :
    some (HeadSlot.known form.head) = some (.known .function) ∨
      some (HeadSlot.known form.head) = some (.known .arrow) := by
  cases form with
  | long => exact .inl rfl
  | short => contradiction
  | arrow => exact .inr rfl

theorem Regular.boundTo {p : Parts} {form : Form} (h : p.Regular) (ha : p.anonHead = none)
    (hh : p.head = some (.known form.head)) (hf : form ≠ .short) (symbol : String) :
    (p.bound symbol form).Regular := by
  have hi : (p.bound symbol form).innerHead = p.innerHead := by
    simp [innerHead, Parts.bound, ha, hh]
  exact {
    head := ⟨.short, rfl⟩
    bodiless := fun hb => ⟨by simp [Parts.bound], (h.bodiless hb).2⟩
    args_ne_nil := h.args_ne_nil
    params := fun _ => by simp [Parts.bound]
    nameless := fun hn => by simp [Parts.bound] at hn
    bound := fun _ => ⟨rfl, ⟨symbol, rfl⟩, head_of_ne_short hf⟩
    arrow := fun he => h.arrow (hi ▸ he)
    not_keywords := fun he => h.not_keywords (hi ▸ he) }

end Parts

namespace Node

open Parts

theorem listable_parameterList (items : List Node) : (parameterList items).Listable := by
  unfold parameterList
  split
  · exact ⟨by simp, by simp⟩
  · exact ⟨by simp, by simp⟩
  · exact ⟨by simp_all, by simp⟩
  · exact ⟨by simp_all, by simp_all⟩

theorem listable_parameterBlock {items : List Node} {q : Parts}
    (h : parameterBlock items = some q) : q.Listable := by
  rw [← parameterList_blockParameters h]
  exact listable_parameterList _

theorem Reads.listable {form : Form} {parameters : Node} {q : Parts}
    (h : Reads form parameters q) (hf : form ≠ .arrow) : q.Listable := by
  cases h with
  | call _ callee items _ =>
    have hl := listable_parameterList items
    exact ⟨hl.args_ne_nil, hl.not_keywords⟩
  | tuple _ items _ => exact listable_parameterList items
  | block _ items _ _ hp => exact listable_parameterBlock hp
  | lone _ _ _ => contradiction

theorem Reads.args_ne_nil {form : Form} {parameters : Node} {q : Parts}
    (h : Reads form parameters q) : q.args ≠ some [] := by
  cases h with
  | call _ _ items _ => exact (listable_parameterList items).args_ne_nil
  | tuple _ items _ => exact (listable_parameterList items).args_ne_nil
  | block _ _ _ _ hp => exact (listable_parameterBlock hp).args_ne_nil
  | lone _ _ _ => simp

theorem Reads.named_or_nameless {form : Form} {parameters : Node} {q : Parts}
    (h : Reads form parameters q) :
    form ≠ .arrow ∧ q.name ≠ none ∨ form ≠ .short ∧ q.name = none ∧ q.params = none := by
  cases h with
  | call _ callee _ hf =>
    refine .inl ⟨hf, ?_⟩
    unfold calleeParts
    split <;> simp
  | tuple _ items hf =>
    rw [parameterList_eq]
    exact .inr ⟨hf, rfl, rfl⟩
  | block _ _ _ hf hp =>
    rw [← parameterList_blockParameters hp, parameterList_eq]
    exact .inr ⟨hf, rfl, rfl⟩
  | lone _ _ _ => exact .inr ⟨by simp, rfl, rfl⟩

theorem Reads.regular {form : Form} {parameters : Node} {q : Parts} {rtype : Option Node}
    (h : Reads form parameters q) (hr : form = .arrow → rtype = none)
    (constraints : Option (List Node)) (body : Node) :
    (q.enclosed form rtype constraints body).Regular := by
  have ha : (q.enclosed form rtype constraints body).anonHead = none := h.anonHead
  have hi : (q.enclosed form rtype constraints body).innerHead = some (.known form.head) := by
    rw [innerHead, ha]
    rfl
  exact {
    head := ⟨form, rfl⟩
    bodiless := fun hb => nomatch hb
    args_ne_nil := h.args_ne_nil
    params := fun hp => by
      obtain ⟨-, hn⟩ | ⟨-, -, hp'⟩ := h.named_or_nameless
      · exact hn
      · exact absurd hp' hp
    nameless := fun hn => by
      obtain ⟨-, hn'⟩ | ⟨hf, -⟩ := h.named_or_nameless
      · exact absurd hn hn'
      · exact ⟨ha, head_of_ne_short hf⟩
    bound := fun hb => absurd ha hb
    arrow := fun he => by
      have hf : form.head = Form.arrow.head :=
        HeadSlot.known.inj (Option.some.inj (hi.symm.trans he))
      obtain rfl := Form.head_inj hf
      obtain ⟨hn, -⟩ | ⟨-, -, hp⟩ := h.named_or_nameless
      · contradiction
      · exact ⟨hr rfl, hp, nofun⟩
    not_keywords := fun he => by
      have hf : form ≠ .arrow := by
        rintro rfl
        exact he hi
      exact (h.listable hf).not_keywords }

theorem regular_declaration (name : Node) :
    Regular { head := some (.known .function), name := some name } where
  head := ⟨.long, rfl⟩
  bodiless := fun _ => ⟨nofun, rfl, rfl, rfl, rfl, rfl⟩
  args_ne_nil := nofun
  params := fun _ => nofun
  nameless := nofun
  bound := fun h => absurd rfl h
  arrow := nofun
  not_keywords := fun _ _ _ _ => nofun

theorem regular_of_dissectPlain {tree : Node} {p : Parts} (h : tree.dissectPlain = .ok p) :
    p.Regular ∧ p.anonHead = none ∧ ∃ (form : Form) (children : List Node),
      tree = .expr form.head children ∧ p.head = some (.known form.head) := by
  obtain ⟨name, -, rfl, rfl⟩ | ⟨form, layers, core, body, q, -, rfl, hq, rfl⟩ :=
    dissectPlain_ok_cases h
  · exact ⟨regular_declaration name, rfl, .long, _, rfl, rfl⟩
  · have hr : form = .arrow → (peelReturnOf form core).1 = none := by
      rintro rfl
      rfl
    exact ⟨hq.regular hr _ _, hq.anonHead, form, _, rfl, rfl⟩

/-- Whatever a definition is taken apart into is a regular record. -/
theorem regular_of_dissect (tree : Node) (p : Parts) (h : tree.dissect = .ok p) : p.Regular := by
  cases hs : tree.assigned? with
  | none =>
    rw [dissect_eq_dissectPlain hs] at h
    exact (regular_of_dissectPlain h).1
  | some bound =>
    obtain ⟨symbol, form, definition⟩ := bound
    obtain ⟨hf, ⟨children, rfl⟩, rfl⟩ := assigned?_eq_some_iff.mp hs
    obtain ⟨q, hq, rfl⟩ := (dissect_bound_ok_iff hf).mp h
    obtain ⟨hregular, ha, form', children', he, hh⟩ := regular_of_dissectPlain hq
    rw [← (Node.expr.inj he).1] at hh
    exact hregular.boundTo ha hh hf symbol

theorem regular_of_dissect_lone_keywords : ∃ (tree : Node) (p : Parts), tree.dissect = .ok p ∧
    p.Regular ∧ p.innerHead = some (.known .arrow) ∧ p.kwargs = none ∧
      p.args = some [.expr .parameters [.symbol "x"]] := by
  let tree : Node := .expr .assign [.symbol "f", .expr .arrow
    [.expr .whereClause [.expr .parameters [.symbol "x"], .symbol "T"], .symbol "x"]]
  have h : tree.dissect = .ok {
    head := some (.known .assign), name := some (.symbol "f"), anonHead := some (.known .arrow),
    args := some [.expr .parameters [.symbol "x"]], whereParams := some [.symbol "T"],
    body := some (.symbol "x") } := by rfl
  exact ⟨tree, _, h, regular_of_dissect tree _ h, rfl, rfl, rfl⟩

end Node

end Anatomy
