import Anatomy.Proofs.Writing

namespace Anatomy

namespace Node

/-- The parameters that a block stands for: its first item is positional, its second a keyword. -/
def blockParameters (items : List Node) : List Node :=
  .expr .parameters ((((statements items).drop 1).take 1).map asKeyword) ::
    (statements items).take 1

/-- Parameters as they are put together: a block becomes a tuple, and the only parameter of an arrow
stands alone. -/
def normalParameters : Form → Node → Node
  | _, .expr .block items => .expr .tuple (blockParameters items)
  | .arrow, .expr .tuple [.expr .parameters keywords] => .expr .tuple [.expr .parameters keywords]
  | .arrow, .expr .tuple [item] => item
  | _, parameters => parameters

def onParameters (f : Node → Node) : Form → Node → Node
  | .arrow, core => f core
  | _, .expr .ascription [core, rtype] => .expr .ascription [f core, rtype]
  | _, core => f core

/-- The parameters of a definition whose name is left out, since it is bound to another. -/
def unnamed : Form → Node → Node
  | .long, .expr .call (_ :: items) => .expr .tuple items
  | _, parameters => parameters

def isGeneric : Form → Node → Bool
  | .long, .expr .call (.expr .curly (_ :: _) :: _) => true
  | _, _ => false

theorem normalParameters_item {item : Node} (h : ∀ keywords, item ≠ .expr .parameters keywords) :
    normalParameters .arrow (.expr .tuple [item]) = item := by
  unfold normalParameters
  split <;> simp_all

theorem normalParameters_keywords (form : Form) (keywords items : List Node) :
    normalParameters form (.expr .tuple (.expr .parameters keywords :: items)) =
      .expr .tuple (.expr .parameters keywords :: items) := by
  cases form <;> cases items <;> simp [normalParameters]

theorem parameterNodes_parameterList (items : List Node) :
    (parameterList items).parameterNodes = items := by
  unfold parameterList
  split <;> rfl

theorem parameterList_blockParameters {items : List Node} {q : Parts}
    (h : parameterBlock items = some q) : parameterList (blockParameters items) = q := by
  unfold parameterBlock at h
  rw [← statements] at h
  split at h <;> rename_i hs <;> cases h <;> simp [blockParameters, hs, parameterList]

theorem parameterNode_parameterList {form : Form} (items : List Node) (h : form ≠ .short) :
    (parameterList items).parameterNode (.known form.head) none =
      normalParameters form (.expr .tuple items) := by
  cases form with
  | short => contradiction
  | long =>
    simp [Parts.parameterNode, parameterNodes_parameterList, normalParameters, Form.head]
  | arrow =>
    unfold parameterList
    split
    · rfl
    · rfl
    · rename_i keywords rest _
      rw [normalParameters_keywords]
      rfl
    · rename_i hn hk _
      cases items with
      | nil => contradiction
      | cons item items =>
        cases items with
        | nil =>
          rw [normalParameters_item fun keywords he => hk keywords (by rw [he])]
          rfl
        | cons next rest =>
          simp [Parts.parameterNode, Parts.parameterNodes, Parts.keywordNodes, normalParameters]

theorem displayName_calleeParts (callee : Node) : (calleeParts callee).displayName = .ok (some callee) := by
  unfold calleeParts
  split <;> rfl

theorem calleeParts_anonHead (callee : Node) : (calleeParts callee).anonHead = none := by
  unfold calleeParts
  split <;> rfl

theorem parameterList_eq (items : List Node) :
    parameterList items =
      { args := (parameterList items).args, kwargs := (parameterList items).kwargs } := by
  unfold parameterList
  split <;> rfl

theorem Reads.anonHead {form : Form} {parameters : Node} {q : Parts}
    (h : Reads form parameters q) : q.anonHead = none := by
  cases h with
  | call _ callee _ _ => exact calleeParts_anonHead callee
  | tuple _ items _ => rw [parameterList_eq]
  | block _ items _ _ hp => rw [← parameterList_blockParameters hp, parameterList_eq]
  | lone _ _ _ => rfl

theorem Reads.parameterNode {form : Form} {parameters : Node} {q : Parts}
    (h : Reads form parameters q) : ∃ name, q.displayName = .ok name ∧
      q.parameterNode (.known form.head) name = normalParameters form parameters := by
  cases h with
  | call _ callee items hf =>
    refine ⟨some callee, displayName_calleeParts callee, ?_⟩
    have hn : normalParameters form (.expr .call (callee :: items)) =
        .expr .call (callee :: items) := by cases form <;> rfl
    rw [hn]
    exact congrArg (fun nodes => Node.expr .call (callee :: nodes)) (parameterNodes_parameterList items)
  | tuple _ items hf =>
    refine ⟨none, ?_, parameterNode_parameterList items hf⟩
    rw [parameterList_eq]
    rfl
  | block _ items _ hf hp =>
    rw [← parameterList_blockParameters hp]
    refine ⟨none, ?_, ?_⟩
    · rw [parameterList_eq]
      rfl
    · rw [parameterNode_parameterList _ hf, blockParameters, normalParameters_keywords,
        normalParameters, blockParameters]
  | lone _ ht hb =>
    refine ⟨none, rfl, ?_⟩
    unfold normalParameters
    split <;> simp_all [Parts.parameterNode, Form.head]

theorem onParameters_eq (f : Node → Node) (form : Form) (core : Node) :
    onParameters f form core =
      Parts.withReturn (peelReturnOf form core).1 (f (peelReturnOf form core).2) := by
  cases form with
  | arrow => rfl
  | long | short =>
    simp only [peelReturnOf, peelReturn]
    split
    · rfl
    · simp_all [onParameters, Parts.withReturn]

theorem Reads.params {form : Form} {parameters : Node} {q : Parts}
    (h : Reads form parameters q) (hf : form ≠ .short) :
    q.params.isSome = isGeneric form parameters := by
  cases h with
  | call _ callee items hc =>
    cases form with
    | long =>
      unfold calleeParts isGeneric
      split <;> split <;> simp_all
    | short | arrow => contradiction
  | tuple _ items _ =>
    rw [parameterList_eq]
    cases form <;> rfl
  | block _ items _ _ hp =>
    rw [← parameterList_blockParameters hp, parameterList_eq]
    cases form <;> rfl
  | lone _ _ _ => rfl

/-- Parameters without the name beside them are read as before, if the name has no type
parameters. -/
theorem Reads.unnamed {form : Form} {parameters : Node} {q : Parts}
    (h : Reads form parameters q) (hf : form ≠ .short) (hp : q.params = none) :
    Reads form (unnamed form parameters) q.anonymous := by
  cases h with
  | call _ callee items hc =>
    cases form with
    | long =>
      have hq : parameterList items = Parts.anonymous { calleeParts callee with
          args := (parameterList items).args, kwargs := (parameterList items).kwargs } := by
        rw [parameterList_eq]
        unfold calleeParts at hp ⊢
        split at hp
        · cases hp
        · rfl
      rw [Node.unnamed, ← hq]
      exact .tuple .long items hf
    | short | arrow => contradiction
  | tuple _ items _ =>
    have hq : (parameterList items).anonymous = parameterList items := by
      rw [parameterList_eq, Parts.anonymous]
    have hu : Node.unnamed form (.expr .tuple items) = .expr .tuple items := by cases form <;> rfl
    rw [hq, hu]
    exact .tuple form items hf
  | block _ items _ _ hb =>
    have hq : q.anonymous = q := by
      rw [← parameterList_blockParameters hb, parameterList_eq, Parts.anonymous]
    have hu : Node.unnamed form (.expr .block items) = .expr .block items := by cases form <;> rfl
    rw [hq, hu]
    exact .block form items q hf hb
  | lone _ ht hb => exact .lone parameters ht hb

theorem Reads.parameterNode_none {form : Form} {parameters : Node} {q : Parts}
    (h : Reads form parameters q) (hf : form ≠ .short) (hp : q.params = none) :
    q.parameterNode (.known form.head) none = normalParameters form (Node.unnamed form parameters) := by
  obtain ⟨name, hn, hs⟩ := (h.unnamed hf hp).parameterNode
  have hd : q.anonymous.displayName = .ok none := by
    simp [Parts.displayName, Parts.anonymous, hp]
  obtain rfl : none = name := Except.ok.inj (hd.symm.trans hn)
  exact hs

theorem assemble_dissect_layered {form : Form} {layers : List (List Node)} {core body : Node}
    {p : Parts} (hw : core.isWhere = false)
    (h : (Node.expr form.head [layered layers core, body]).dissectPlain = .ok p) :
    p.assemble = .ok (.expr form.head
      [layered (merged layers) (onParameters (normalParameters form) form core), body]) := by
  obtain ⟨q, hq, rfl⟩ := (dissectPlain_layered_ok_iff hw).mp h
  obtain ⟨name, hn, hs⟩ := hq.parameterNode
  rw [Parts.assemble_enclosed form _ _ body hq.anonHead hn, hs, withWhere_constraintsOf,
    onParameters_eq]

theorem assemble_dissect_bound_layered {form : Form} {layers : List (List Node)} {core body : Node}
    {p : Parts} (name : String) (hf : form ≠ .short) (hw : core.isWhere = false)
    (h : (Node.expr form.head [layered layers core, body]).dissectPlain = .ok p) :
    (p.bound name form).assemble =
      if isGeneric form (peelReturnOf form core).2 then .error .paramsWithoutName
      else .ok (.expr .assign [.symbol name, .expr form.head [layered (merged layers)
        (onParameters (fun parameters => normalParameters form (unnamed form parameters)) form core),
        body]]) := by
  obtain ⟨q, hq, rfl⟩ := (dissectPlain_layered_ok_iff hw).mp h
  rw [← hq.params hf]
  cases hp : q.params with
  | some params => exact Parts.assemble_bound_generic name form hp
  | none =>
    rw [Parts.assemble_bound_enclosed name form _ _ body hp, hq.parameterNode_none hf hp,
      withWhere_constraintsOf, onParameters_eq]
    rfl

/-- What becomes of a tree that is taken apart and put together again. It comes back in normal form,
unless it binds a symbol to a definition that only declares a name or has a name with type
parameters. -/
theorem assemble_dissect (tree : Node) (p : Parts) (h : tree.dissect = .ok p) :
    (∀ name, name.isName = true → tree = .expr .function [name] → p.assemble = .ok tree) ∧
    (∀ form layers core body, core.isWhere = false → tree.assigned? = none →
      tree = .expr form.head [layered layers core, body] →
      p.assemble = .ok (.expr form.head
        [layered (merged layers) (onParameters (normalParameters form) form core), body])) ∧
    (∀ symbol name, name.isName = true →
      tree = .expr .assign [.symbol symbol, .expr .function [name]] →
      p.assemble = .error .nothingToDefine) ∧
    (∀ symbol form layers core body, form ≠ .short → core.isWhere = false →
      tree = .expr .assign [.symbol symbol, .expr form.head [layered layers core, body]] →
      p.assemble =
        if isGeneric form (peelReturnOf form core).2 then .error .paramsWithoutName
        else .ok (.expr .assign [.symbol symbol, .expr form.head [layered (merged layers)
          (onParameters (fun parameters => normalParameters form (unnamed form parameters))
            form core), body]])) := by
  refine ⟨?_, ?_, ?_, ?_⟩
  · rintro name hn rfl
    rw [dissect_eq_dissectPlain rfl, dissectPlain_declaration hn] at h
    cases h
    rfl
  · rintro form layers core body hw ha rfl
    rw [dissect_eq_dissectPlain ha] at h
    exact assemble_dissect_layered hw h
  · rintro symbol name hn rfl
    have hf : Form.long ≠ .short := by simp
    obtain ⟨q, hq, rfl⟩ := (dissect_bound_ok_iff hf).mp h
    cases hq.symm.trans (dissectPlain_declaration hn)
    rfl
  · rintro symbol form layers core body hf hw rfl
    obtain ⟨q, hq, rfl⟩ := (dissect_bound_ok_iff hf).mp h
    exact assemble_dissect_bound_layered symbol hf hw hq

theorem assemble_dissect_two_clauses :
    ∃ p, (Node.expr .assign [.expr .whereClause [.expr .whereClause
        [.expr .call [.symbol "f", .symbol "x"], .expr .subtype [.symbol "B", .symbol "A"]],
        .symbol "A"], .symbol "x"]).dissect = .ok p ∧
      p.assemble = .ok (.expr .assign [.expr .whereClause
        [.expr .call [.symbol "f", .symbol "x"], .symbol "A",
          .expr .subtype [.symbol "B", .symbol "A"]], .symbol "x"]) :=
  ⟨_, rfl, (assemble_dissect _ _ rfl).2.1 .short
    [[.symbol "A"], [.expr .subtype [.symbol "B", .symbol "A"]]]
    (.expr .call [.symbol "f", .symbol "x"]) (.symbol "x") rfl rfl rfl⟩

end Node

end Anatomy
