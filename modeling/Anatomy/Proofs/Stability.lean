import Anatomy.Proofs.NormalForm

namespace Anatomy.Node

open Parts

/-- An arrow with a tuple around its only parameter, which is read apart without that tuple. -/
def Ambiguous (tree : Node) : Prop :=
  ∃ layers item body, item.isReadApart = true ∧
    tree.subject = .expr .arrow [layered layers (.expr .tuple [item]), body]

/-- Parameters that are written without a tuple only if they are read the same then. -/
def Unambiguous (form : Form) (parameters : Node) : Prop :=
  form = .arrow → ∀ item, parameters = .expr .tuple [item] → item.isReadApart = false

theorem normalParameters_cases (form : Form) (parameters : Node) :
    normalParameters form parameters = parameters ∨
    (∃ items, parameters = .expr .block items) ∨
    (form = .arrow ∧ ∃ item, parameters = .expr .tuple [item] ∧
      (∀ keywords, item ≠ .expr .parameters keywords) ∧
      normalParameters form parameters = item) := by
  unfold normalParameters
  split
  · exact .inr (.inl ⟨_, rfl⟩)
  · exact .inl rfl
  · rename_i item hk
    exact .inr (.inr ⟨rfl, item, rfl, hk, rfl⟩)
  · exact .inl rfl

theorem parameterList_item {item : Node} (h : ∀ keywords, item ≠ .expr .parameters keywords) :
    parameterList [item] = { args := some [item] } := by
  unfold parameterList
  split <;> simp_all

theorem Reads.normalParameters {form : Form} {parameters : Node} {q : Parts}
    (h : Reads form parameters q) (hs : Unambiguous form parameters) :
    Reads form (normalParameters form parameters) q := by
  obtain he | ⟨items, rfl⟩ | ⟨rfl, item, rfl, hk, he⟩ := normalParameters_cases form parameters
  · rwa [he]
  · cases h with
    | block _ _ _ hf hp =>
      rw [Node.normalParameters, ← parameterList_blockParameters hp]
      exact .tuple form _ hf
    | lone _ _ hb => exact absurd rfl (hb items)
  · have hi := hs rfl item rfl
    rw [he]
    cases h with
    | tuple _ _ _ =>
      rw [parameterList_item hk]
      exact (Reads.of_not_isReadApart hi).1
    | lone _ ht _ => exact absurd rfl (ht [item])

theorem isWhere_normalParameters {form : Form} {parameters : Node} (hw : parameters.isWhere = false)
    (hs : Unambiguous form parameters) :
    (Node.normalParameters form parameters).isWhere = false := by
  obtain he | ⟨items, rfl⟩ | ⟨rfl, item, rfl, -, he⟩ := normalParameters_cases form parameters
  · rwa [he]
  · rfl
  · rw [he]
    exact (Reads.of_not_isReadApart (hs rfl item rfl)).2

theorem mem_of_mem_args_parameterList {items args : List Node} {item : Node}
    (h : (parameterList items).args = some args) (hi : item ∈ args) : item ∈ items := by
  unfold parameterList at h
  split at h
  · cases h
  · cases h
  · cases h
    exact List.mem_cons_of_mem _ hi
  · cases h
    exact hi

theorem mem_of_mem_args_parameterBlock {items args : List Node} {q : Parts} {item : Node}
    (h : parameterBlock items = some q) (ha : q.args = some args) (hi : item ∈ args) :
    item ∈ items := by
  unfold parameterBlock at h
  rw [← statements] at h
  split at h <;> rename_i hs <;> cases h <;> cases ha
  all_goals
    obtain rfl := List.mem_singleton.mp hi
    have hm : item ∈ statements items := by rw [hs]; exact List.mem_cons_self
    exact (List.mem_filter.mp hm).1

theorem Reads.eq_or_sizeOf_lt {core item : Node} {q : Parts} (h : Reads .arrow core q)
    (ha : q.args = some [item]) :
    (core = item ∧ item.isReadApart = item.isWhere) ∨ sizeOf item < sizeOf core := by
  cases h with
  | call _ _ _ hf => contradiction
  | tuple _ items _ =>
    have hm := List.sizeOf_lt_of_mem (mem_of_mem_args_parameterList ha (List.mem_singleton_self item))
    right
    simp only [Node.expr.sizeOf_spec]
    omega
  | block _ items _ _ hp =>
    have hm := List.sizeOf_lt_of_mem
      (mem_of_mem_args_parameterBlock hp ha (List.mem_singleton_self item))
    right
    simp only [Node.expr.sizeOf_spec]
    omega
  | lone _ ht hb =>
    cases ha
    left
    refine ⟨rfl, ?_⟩
    unfold isReadApart isWhere
    split <;> simp_all

theorem args_ne_of_isReadApart {layers : List (List Node)} {item body : Node} {p : Parts}
    (hi : item.isReadApart = true)
    (h : (Node.expr .arrow [layered layers item, body]).dissectPlain = .ok p) :
    p.args ≠ some [item] := by
  intro ha
  obtain ⟨name, -, he, -⟩ | ⟨form, inner, core, body', q, hw, he, hq, rfl⟩ := dissectPlain_ok_cases h
  · cases he
  · obtain ⟨hh, hc⟩ := Node.expr.inj he
    have hl : layered layers item = layered inner core := (List.cons.inj hc).1
    have hf : Form.arrow = form := Form.head_inj hh
    subst form
    have hq : Reads .arrow core q := hq
    obtain ⟨hc, hr⟩ | hs := hq.eq_or_sizeOf_lt ha
    · rw [hi, ← hc, hw] at hr
      cases hr
    · obtain ⟨more, rfl⟩ := exists_layered_of_eq hw hl.symm
      exact absurd (sizeOf_le_layered more core) (Nat.not_le.mpr hs)

theorem Reads.isWhere {form : Form} {parameters : Node} {q : Parts}
    (h : Reads form parameters q) (hf : form ≠ .arrow) : parameters.isWhere = false := by
  cases h with
  | call _ _ _ _ => rfl
  | tuple _ _ _ => rfl
  | block _ _ _ _ _ => rfl
  | lone _ _ _ => contradiction

theorem dissectPlain_normalParameters {form : Form} {parameters : Node} {q : Parts}
    {rtype : Option Node} (h : Reads form parameters q) (hw : parameters.isWhere = false)
    (hr : form = .arrow → rtype = none) (hs : Unambiguous form parameters)
    (constraints : Option (List Node)) (body : Node) :
    (Node.expr form.head [withWhere constraints
        (withReturn rtype (normalParameters form parameters)), body]).dissectPlain =
      .ok (q.enclosed form rtype constraints body) :=
  dissectPlain_of_reads (h.normalParameters hs) (isWhere_normalParameters hw hs) hr constraints body

theorem args_ne_of_normalParameters {item : Node} {q p : Parts}
    (h : Reads .arrow (.expr .tuple [item]) q) (hi : item.isReadApart = true)
    (constraints : Option (List Node)) (body : Node)
    (hp : (Node.expr .arrow [withWhere constraints
      (normalParameters .arrow (.expr .tuple [item])), body]).dissectPlain = .ok p) :
    p.args ≠ q.args := by
  have hk : ∀ keywords, item ≠ .expr .parameters keywords := by
    rintro keywords rfl
    cases hi
  have hq : q.args = some [item] := by
    cases h with
    | tuple _ _ _ => rw [parameterList_item hk]
    | lone _ ht _ => exact absurd rfl (ht [item])
  rw [normalParameters_item hk, withWhere_eq_layered] at hp
  rw [hq]
  exact args_ne_of_isReadApart hi hp

theorem ambiguous_iff {tree core body : Node} {form : Form} {layers : List (List Node)}
    (hw : core.isWhere = false)
    (ht : tree.subject = .expr form.head [layered layers core, body]) :
    Ambiguous tree ↔ ¬Unambiguous form core := by
  constructor
  · rintro ⟨layers', item, body', hi, he⟩ hu
    obtain ⟨hh, hc⟩ := Node.expr.inj (ht.symm.trans he)
    have hf : form = .arrow := Form.head_inj hh
    have hl : core = .expr .tuple [item] := eq_of_layered_eq hw rfl (List.cons.inj hc).1
    rw [hu hf item hl] at hi
    cases hi
  · intro hu
    simp only [Unambiguous, Classical.not_forall, Bool.not_eq_false] at hu
    obtain ⟨rfl, item, rfl, hi⟩ := hu
    exact ⟨layers, item, body, hi, ht⟩

theorem unambiguous_peelReturnOf {form : Form} {core : Node} :
    Unambiguous form (peelReturnOf form core).2 ↔ Unambiguous form core := by
  cases form with
  | arrow => exact Iff.rfl
  | long | short => simp [Unambiguous]

theorem isWhere_peelReturnOf {form : Form} {core : Node} {q : Parts} (hw : core.isWhere = false)
    (h : Reads form (peelReturnOf form core).2 q) : (peelReturnOf form core).2.isWhere = false := by
  cases form with
  | arrow => exact hw
  | long | short => exact h.isWhere (by simp)

theorem peelReturnOf_arrow_fst {form : Form} {core : Node} (h : form = .arrow) :
    (peelReturnOf form core).1 = none := by
  rw [h]
  rfl

theorem dissect_assemble_iff {form : Form} {parameters body tree : Node} {q : Parts}
    {rtype : Option Node} {constraints : Option (List Node)} (hq : Reads form parameters q)
    (hw : parameters.isWhere = false) (hr : form = .arrow → rtype = none)
    (ha : (q.enclosed form rtype constraints body).assemble = .ok tree) :
    tree.dissect = .ok (q.enclosed form rtype constraints body) ↔ Unambiguous form parameters := by
  obtain ⟨name, hn, hs⟩ := hq.parameterNode
  rw [assemble_enclosed form _ _ body hq.anonHead hn, hs] at ha
  cases ha
  constructor
  · rintro hd rfl item rfl
    rw [dissect_eq_dissectPlain (assigned?_form_head _ (by simp)), hr rfl] at hd
    cases hi : item.isReadApart with
    | false => rfl
    | true => exact (args_ne_of_normalParameters hq hi _ body hd rfl).elim
  · intro hu
    rw [dissect_eq_dissectPlain ((hq.normalParameters hu).assigned? _ _ _)]
    exact dissectPlain_normalParameters hq hw hr hu _ _

theorem isWhere_unnamed {form : Form} {parameters : Node} (hw : parameters.isWhere = false) :
    (unnamed form parameters).isWhere = false := by
  unfold unnamed
  split
  · rfl
  · exact hw

theorem Unambiguous.unnamed {form : Form} {parameters : Node} (h : Unambiguous form parameters) :
    Unambiguous form (unnamed form parameters) := by
  cases form with
  | arrow => exact h
  | long | short => simp [Unambiguous]

theorem dissect_assemble_bound_iff {form : Form} {parameters body tree : Node} {q : Parts}
    {rtype : Option Node} {constraints : Option (List Node)} (name : String)
    (hq : Reads form parameters q) (hf : form ≠ .short) (hw : parameters.isWhere = false)
    (hr : form = .arrow → rtype = none)
    (ha : ((q.enclosed form rtype constraints body).bound name form).assemble = .ok tree) :
    tree.dissect = .ok ((q.enclosed form rtype constraints body).bound name form) ↔
      Unambiguous form parameters := by
  cases hp : q.params with
  | some params => cases ha.symm.trans (assemble_bound_generic name form hp)
  | none =>
    rw [assemble_bound_enclosed name form _ _ body hp, hq.parameterNode_none hf hp] at ha
    cases ha
    rw [dissect_bound_ok_iff hf]
    constructor
    · rintro ⟨p, hd, he⟩ rfl item rfl
      have hargs : p.args = q.args := (congrArg Parts.args he).symm
      rw [hr rfl] at hd
      cases hi : item.isReadApart with
      | false => rfl
      | true => exact (args_ne_of_normalParameters hq hi _ body hd hargs).elim
    · intro hs
      have hu := hq.unnamed hf hp
      exact ⟨_, dissectPlain_normalParameters hu (isWhere_unnamed hw) hr (hs.unnamed) _ _, rfl⟩

/-- Taking a definition apart, putting it together and taking it apart again gives the record of the
first time, except for an arrow that has lost the tuple around its only parameter. -/
theorem dissect_assemble_dissect (tree tree' : Node) (p : Parts) (h : tree.dissect = .ok p)
    (ha : p.assemble = .ok tree') : tree'.dissect = .ok p ↔ ¬Ambiguous tree := by
  cases hs : tree.assigned? with
  | none =>
    have ht := subject_of_assigned?_none hs
    rw [dissect_eq_dissectPlain hs] at h
    obtain ⟨name, hi, rfl, rfl⟩ | ⟨form, layers, core, body, q, hw, rfl, hq, rfl⟩ :=
      dissectPlain_ok_cases h
    · cases ha
      refine iff_of_true ((dissect_eq_dissectPlain hs).trans h) ?_
      rintro ⟨layers, item, body, -, he⟩
      cases ht.symm.trans he
    · rw [ambiguous_iff hw ht, Classical.not_not, ← unambiguous_peelReturnOf]
      exact dissect_assemble_iff hq (isWhere_peelReturnOf hw hq) peelReturnOf_arrow_fst ha
  | some found =>
    obtain ⟨name, form, definition⟩ := found
    have ht := subject_of_assigned? hs
    obtain ⟨hf, ⟨children, rfl⟩, rfl⟩ := assigned?_eq_some_iff.mp hs
    obtain ⟨p, hp, rfl⟩ := (dissect_bound_ok_iff hf).mp h
    obtain ⟨inner, hi, he, rfl⟩ | ⟨form', layers, core, body, q, hw, he, hq, rfl⟩ :=
      dissectPlain_ok_cases hp
    · cases form with
      | long => cases ha
      | short | arrow => cases he
    · obtain rfl : form = form' := Form.head_inj (Node.expr.inj he).1
      rw [ambiguous_iff hw (ht.trans he), Classical.not_not, ← unambiguous_peelReturnOf]
      exact dissect_assemble_bound_iff name hq hf (isWhere_peelReturnOf hw hq)
        peelReturnOf_arrow_fst ha

theorem dissect_assemble_dissect_block : ∃ p tree',
    (Node.expr .arrow [.expr .block [.symbol "x", .symbol "y"], .symbol "x"]).dissect = .ok p ∧
      p.assemble = .ok tree' ∧ tree'.dissect = .ok p := by
  refine ⟨_, _, rfl, rfl, (dissect_assemble_dissect
    (.expr .arrow [.expr .block [.symbol "x", .symbol "y"], .symbol "x"]) _ _ rfl rfl).mpr ?_⟩
  rintro ⟨layers, item, body, -, he⟩
  have hl : layered [] (.expr .block [.symbol "x", .symbol "y"]) =
      layered layers (.expr .tuple [item]) := (List.cons.inj (Node.expr.inj he).2).1
  cases eq_of_layered_eq rfl rfl hl

/-- Without its outer tuple, `((x, y),) -> x` takes two parameters. -/
theorem exists_dissect_assemble_dissect_ne : ∃ tree p tree', Node.dissect tree = .ok p ∧
    p.assemble = .ok tree' ∧ tree'.dissect ≠ .ok p := by
  refine ⟨.expr .arrow [.expr .tuple [.expr .tuple [.symbol "x", .symbol "y"]], .symbol "x"], _, _,
    rfl, rfl, fun h => ?_⟩
  have ha : some [Node.symbol "x", .symbol "y"] = some [.expr .tuple [.symbol "x", .symbol "y"]] :=
    congrArg Parts.args (Except.ok.inj h)
  simp at ha

end Anatomy.Node
