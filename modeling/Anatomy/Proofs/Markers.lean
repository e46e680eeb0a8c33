import Anatomy.Node.Basic
import Anatomy.Proofs.Grammar

namespace Anatomy

def Parts.withoutMarkers (p : Parts) : Parts :=
  { p with
    name := p.name.map Node.withoutMarkers
    params := p.params.map (List.map Node.withoutMarkers)
    args := p.args.map (List.map Node.withoutMarkers)
    kwargs := p.kwargs.map (List.map Node.withoutMarkers)
    rtype := p.rtype.map Node.withoutMarkers
    whereParams := p.whereParams.map (List.map Node.withoutMarkers)
    body := p.body.map Node.withoutMarkers }

def Rejection.withoutMarkers (r : Rejection) : Rejection :=
  { r with tree := r.tree.withoutMarkers }

namespace Node

mutual

/-- Outside of what is quoted a line marker is the child of a block or of nothing. -/
def tidy : Node → Bool
  | .expr head children =>
    (decide (head = .block) || children.all fun child => !child.isMarker) && tidyAll children
  | .foreign _ children => (children.all fun child => !child.isMarker) && tidyAll children
  | _ => true

def tidyAll : List Node → Bool
  | [] => true
  | node :: nodes => tidy node && tidyAll nodes

end

section Tidy

theorem tidyAll_iff (nodes : List Node) :
    tidyAll nodes = true ↔ ∀ node ∈ nodes, node.tidy = true := by
  induction nodes with
  | nil => simp [tidyAll]
  | cons node nodes ih => rw [tidyAll, Bool.and_eq_true, ih, List.forall_mem_cons]

theorem tidy_of_mem {head : Head} {children : List Node} {child : Node}
    (h : (Node.expr head children).tidy = true) (hc : child ∈ children) : child.tidy = true := by
  rw [tidy, Bool.and_eq_true, tidyAll_iff] at h
  exact h.2 child hc

theorem statements_of_tidy {head : Head} {children : List Node} (hb : head ≠ .block)
    (h : (Node.expr head children).tidy = true) : statements children = children := by
  rw [tidy, Bool.and_eq_true, Bool.or_eq_true, decide_eq_true_iff] at h
  exact List.filter_eq_self.mpr (List.all_eq_true.mp (h.1.resolve_left hb))

theorem withoutMarkersAll_eq_map (nodes : List Node) :
    withoutMarkersAll nodes = (statements nodes).map withoutMarkers := by
  induction nodes with
  | nil => rfl
  | cons node nodes ih =>
    cases node with
    | marker line file => exact ih
    | _ => exact congrArg (List.cons _) ih

theorem withoutMarkers_expr {head : Head} {children : List Node} (hb : head ≠ .block)
    (h : (Node.expr head children).tidy = true) :
    (Node.expr head children).withoutMarkers = .expr head (children.map withoutMarkers) := by
  rw [withoutMarkers, withoutMarkersAll_eq_map, statements_of_tidy hb h]

theorem isMarker_withoutMarkers (node : Node) : node.withoutMarkers.isMarker = node.isMarker := by
  cases node <;> rfl

theorem statements_withoutMarkersAll (items : List Node) :
    statements (withoutMarkersAll items) = (statements items).map withoutMarkers := by
  rw [withoutMarkersAll_eq_map, statements, List.filter_eq_self]
  rw [List.forall_mem_map]
  intro item hi
  rw [isMarker_withoutMarkers]
  exact (List.mem_filter.mp hi).2

end Tidy

section Signature

theorem withoutMarkers_layered {layers : List (List Node)} {core : Node}
    (h : (layered layers core).tidy = true) :
    (layered layers core).withoutMarkers =
      layered (layers.map (List.map withoutMarkers)) core.withoutMarkers ∧ core.tidy = true := by
  induction layers with
  | nil => exact ⟨rfl, h⟩
  | cons constraints layers ih =>
    rw [layered] at h
    obtain ⟨hl, hc⟩ := ih (tidy_of_mem h List.mem_cons_self)
    refine ⟨?_, hc⟩
    rw [layered, withoutMarkers_expr (by simp) h, List.map_cons, hl, List.map_cons, layered]

theorem constraintsOf_map (f : Node → Node) (layers : List (List Node)) :
    constraintsOf (layers.map (List.map f)) = (constraintsOf layers).map (List.map f) := by
  cases layers <;> simp [constraintsOf, List.map_flatten]

theorem isWhere_withoutMarkers (core : Node) : core.withoutMarkers.isWhere = core.isWhere := by
  cases core with
  | expr head children => cases head <;> rfl
  | _ => rfl

theorem peelReturn_withoutMarkers {core : Node} (h : core.tidy = true) :
    peelReturn core.withoutMarkers =
      ((peelReturn core).1.map withoutMarkers, (peelReturn core).2.withoutMarkers) := by
  cases core with
  | expr head children =>
    cases head with
    | ascription =>
      have hc := withoutMarkers_expr (by simp) h
      match children with
      | [] => rfl
      | [target] => rw [hc]; simp [peelReturn, hc]
      | [target, rtype] => rw [hc]; rfl
      | target :: rtype :: next :: rest => rw [hc]; simp [peelReturn, hc]
    | _ => rfl
  | _ => rfl

theorem peelReturnOf_withoutMarkers (form : Form) {core : Node} (h : core.tidy = true) :
    peelReturnOf form core.withoutMarkers =
      ((peelReturnOf form core).1.map withoutMarkers, (peelReturnOf form core).2.withoutMarkers) := by
  cases form with
  | arrow => rfl
  | long | short => exact peelReturn_withoutMarkers h

theorem tidy_peelReturnOf (form : Form) {core : Node} (h : core.tidy = true) :
    (peelReturnOf form core).2.tidy = true := by
  obtain ⟨-, target, rtype, rfl, hp⟩ | ⟨hp, -⟩ := peelReturnOf_cases form core
  · rw [hp]
    exact tidy_of_mem h List.mem_cons_self
  · rwa [hp]

end Signature

section Parameters

theorem parameterList_map {items : List Node} (h : ∀ item ∈ items, item.tidy = true) :
    parameterList (items.map withoutMarkers) = (parameterList items).withoutMarkers := by
  cases items with
  | nil => rfl
  | cons item items =>
    rw [List.forall_mem_cons] at h
    cases item with
    | expr head children =>
      cases head with
      | parameters =>
        rw [List.map_cons, withoutMarkers_expr (by simp) h.1]
        cases items <;> rfl
      | _ => rfl
    | _ => rfl

theorem asKeyword_withoutMarkers (node : Node) :
    asKeyword node.withoutMarkers = (asKeyword node).withoutMarkers := by
  cases node with
  | expr head children => cases head <;> rfl
  | _ => rfl

/-- A block is read by its statements, so its markers do not count. -/
theorem parameterBlock_withoutMarkersAll (items : List Node) :
    parameterBlock (withoutMarkersAll items) =
      (parameterBlock items).map Parts.withoutMarkers := by
  unfold parameterBlock
  rw [← statements, ← statements, statements_withoutMarkersAll]
  rcases statements items with _ | ⟨positional, _ | ⟨keyword, _ | ⟨next, rest⟩⟩⟩
  · rfl
  · rfl
  · simp only [List.map_cons, List.map_nil, asKeyword_withoutMarkers]
    rfl
  · rfl

theorem calleeParts_withoutMarkers {callee : Node} (h : callee.tidy = true) :
    calleeParts callee.withoutMarkers = (calleeParts callee).withoutMarkers := by
  cases callee with
  | expr head children =>
    cases head with
    | curly =>
      rw [withoutMarkers_expr (by simp) h]
      cases children with
      | nil => rfl
      | cons name params => rfl
    | _ => rfl
  | _ => rfl

theorem dissectParameters_call {form : Form} {children : List Node} (hf : form ≠ .arrow)
    (h : (Node.expr .call children).tidy = true) :
    dissectParameters form (Node.expr .call children).withoutMarkers =
      (dissectParameters form (.expr .call children)).map Parts.withoutMarkers := by
  rw [withoutMarkers_expr (by simp) h]
  cases children with
  | nil => cases form <;> rfl
  | cons callee items =>
    have hl := parameterList_map fun item hi => tidy_of_mem h (List.mem_cons_of_mem callee hi)
    have hc := calleeParts_withoutMarkers (tidy_of_mem h List.mem_cons_self)
    cases form with
    | arrow => contradiction
    | long | short =>
      simp only [List.map_cons, dissectParameters, hl, hc]
      rfl

theorem dissectParameters_tuple {form : Form} {items : List Node} (hf : form ≠ .short)
    (h : (Node.expr .tuple items).tidy = true) :
    dissectParameters form (Node.expr .tuple items).withoutMarkers =
      (dissectParameters form (.expr .tuple items)).map Parts.withoutMarkers := by
  have hl := parameterList_map fun item hi => tidy_of_mem h hi
  rw [withoutMarkers_expr (by simp) h]
  cases form with
  | short => contradiction
  | long | arrow => exact congrArg Except.ok hl

theorem dissectParameters_block {form : Form} (items : List Node) (hf : form ≠ .short) :
    dissectParameters form (Node.expr .block items).withoutMarkers =
      (dissectParameters form (.expr .block items)).map Parts.withoutMarkers := by
  have hb := parameterBlock_withoutMarkersAll items
  cases form with
  | short => contradiction
  | long | arrow =>
    simp only [withoutMarkers, dissectParameters, hb]
    cases parameterBlock items <;> rfl

theorem dissectParameters_withoutMarkers (form : Form) {core : Node} (h : core.tidy = true) :
    dissectParameters form core.withoutMarkers =
      (dissectParameters form core).map Parts.withoutMarkers := by
  cases core with
  | expr head children =>
    cases form with
    | short =>
      cases head with
      | call => exact dissectParameters_call (by simp) h
      | _ => rfl
    | long =>
      cases head with
      | call => exact dissectParameters_call (by simp) h
      | tuple => exact dissectParameters_tuple (by simp) h
      | block => exact dissectParameters_block children (by simp)
      | _ => rfl
    | arrow =>
      cases head with
      | tuple => exact dissectParameters_tuple (by simp) h
      | block => exact dissectParameters_block children (by simp)
      | _ => rfl
  | _ => cases form <;> rfl

end Parameters

section Dissection

theorem dissectSignature_withoutMarkers (form : Form) (tree body : Node) {signature : Node}
    (h : signature.tidy = true) :
    dissectSignature form tree.withoutMarkers signature.withoutMarkers body.withoutMarkers =
      ((dissectSignature form tree signature body).map Parts.withoutMarkers).mapError
        Rejection.withoutMarkers := by
  obtain ⟨layers, core, rfl, hw | rfl⟩ := exists_layered signature
  · obtain ⟨hl, hc⟩ := withoutMarkers_layered h
    have hw' : core.withoutMarkers.isWhere = false := (isWhere_withoutMarkers core).trans hw
    rw [hl, dissectSignature_layered _ _ _ _ _ hw', dissectSignature_layered _ _ _ _ _ hw,
      peelReturnOf_withoutMarkers form hc,
      dissectParameters_withoutMarkers form (tidy_peelReturnOf form hc), constraintsOf_map]
    cases dissectParameters form (peelReturnOf form core).2 <;> rfl
  · obtain ⟨hl, -⟩ := withoutMarkers_layered h
    rw [hl, dissectSignature, dissectSignature, withoutMarkers, withoutMarkersAll,
      peelWhere_layered_empty, peelWhere_layered_empty]
    rfl

theorem eq_quoted_of_withoutMarkers {node value : Node}
    (h : node.withoutMarkers = .quoted value) : node = .quoted value := by
  cases node with
  | quoted value' => exact h
  | _ => cases h

theorem exists_of_withoutMarkers_eq_member {node base : Node} {name : String}
    (h : node.tidy = true) (he : node.withoutMarkers = .expr .dot [base, .quoted (.symbol name)]) :
    ∃ base', node = .expr .dot [base', .quoted (.symbol name)] := by
  cases node with
  | expr head children =>
    obtain rfl : head = .dot := (Node.expr.inj he).1
    rw [withoutMarkers_expr (by simp) h] at he
    obtain ⟨base', rest, rfl, -, hrest⟩ := List.map_eq_cons_iff.mp (Node.expr.inj he).2
    obtain ⟨member, rfl, hmember⟩ := List.map_eq_singleton_iff.mp hrest
    exact ⟨base', by rw [eq_quoted_of_withoutMarkers hmember]⟩
  | _ => cases he

theorem isName_withoutMarkers {node : Node} (h : node.tidy = true) :
    node.withoutMarkers.isName = node.isName := by
  fun_induction isName node with
  | case1 name => rfl
  | case2 base name ih =>
    have hm : (Node.expr .dot [base, .quoted (.symbol name)]).withoutMarkers =
        member base.withoutMarkers name := withoutMarkers_expr (by simp) h
    rw [hm, isName_member]
    exact ih (tidy_of_mem h List.mem_cons_self)
  | case3 node hs hd =>
    unfold isName
    split
    · next name he =>
      cases node with
      | symbol name' => exact absurd rfl (hs name')
      | _ => cases he
    · next base name he =>
      obtain ⟨base', rfl⟩ := exists_of_withoutMarkers_eq_member h he
      exact absurd rfl (hd base' name)
    · rfl

/-- A tree without a signature and a body declares a name with its markers and without them, or
it has too many or too few children both times. -/
theorem dissectPlain_withoutMarkers_of_length_ne {form : Form} {children : List Node}
    (hl : children.length ≠ 2) (h : (Node.expr form.head children).tidy = true)
    (hm : (Node.expr form.head children).withoutMarkers =
      .expr form.head (children.map withoutMarkers)) :
    (Node.expr form.head (children.map withoutMarkers)).dissectPlain =
      ((Node.expr form.head children).dissectPlain.map Parts.withoutMarkers).mapError
        Rejection.withoutMarkers := by
  by_cases hn : ∃ name, name.isName = true ∧ Node.expr form.head children = .expr .function [name]
  · obtain ⟨name, hn, he⟩ := hn
    obtain ⟨hf, rfl⟩ := Node.expr.inj he
    have hn' : name.withoutMarkers.isName = true :=
      (isName_withoutMarkers (tidy_of_mem h List.mem_cons_self)).trans hn
    rw [hf, dissectPlain_declaration hn]
    exact dissectPlain_declaration hn'
  · have hne : ∀ name, name.isName = true → Node.expr form.head children ≠ .expr .function [name] :=
      fun name hi he => hn ⟨name, hi, he⟩
    have hne' : ∀ name, name.isName = true →
        Node.expr form.head (children.map withoutMarkers) ≠ .expr .function [name] := by
      intro name hi he
      obtain ⟨hf, hc⟩ := Node.expr.inj he
      obtain ⟨node, rfl, rfl⟩ := List.map_eq_singleton_iff.mp hc
      rw [isName_withoutMarkers (tidy_of_mem h List.mem_cons_self)] at hi
      exact hne node hi (by rw [hf])
    have hl' : (children.map withoutMarkers).length ≠ 2 := by rwa [List.length_map]
    rw [dissectPlain_of_length_ne hl hne, dissectPlain_of_length_ne hl' hne', List.length_map, ← hm]
    rfl

theorem dissectPlain_withoutMarkers {tree : Node} (h : tree.tidy = true) :
    tree.withoutMarkers.dissectPlain =
      (tree.dissectPlain.map Parts.withoutMarkers).mapError Rejection.withoutMarkers := by
  cases hd : tree.definition? with
  | none =>
    have hd' : tree.withoutMarkers.definition? = none := by
      cases tree with
      | expr head children => simpa [withoutMarkers, definition?] using hd
      | _ => rfl
    have ht : tree.withoutMarkers.headText = tree.headText := by
      cases tree <;> rfl
    rw [dissectPlain, dissectPlain, hd, hd', ht]
    rfl
  | some found =>
    obtain ⟨form, children⟩ := found
    obtain rfl := definition?_eq_some_iff.mp hd
    have hf : form.head ≠ .block := by cases form <;> simp [Form.head]
    have hm := withoutMarkers_expr hf h
    by_cases hl : children.length = 2
    · obtain ⟨signature, body, rfl⟩ := List.length_eq_two.mp hl
      have hs := dissectSignature_withoutMarkers form (.expr form.head [signature, body]) body
        (tidy_of_mem h List.mem_cons_self)
      rw [dissectPlain_pair, ← hs, hm]
      exact dissectPlain_pair form signature.withoutMarkers body.withoutMarkers
    · rw [hm]
      exact dissectPlain_withoutMarkers_of_length_ne hl h hm

theorem assigned?_withoutMarkers {tree : Node} (h : tree.tidy = true) :
    tree.withoutMarkers.assigned? =
      tree.assigned?.map fun (name, form, definition) => (name, form, definition.withoutMarkers) := by
  cases tree with
  | expr head children =>
    cases head with
    | assign =>
      rw [withoutMarkers_expr (by simp) h]
      match children with
      | [] => rfl
      | [_] => simp [assigned?]
      | [name, definition] =>
        cases name with
        | symbol name =>
          cases definition with
          | expr head children => cases head <;> rfl
          | _ => rfl
        | _ => rfl
      | _ :: _ :: _ :: _ => simp [assigned?]
    | _ => rfl
  | _ => rfl

/-- Dropping the markers and taking a tree apart can be done in any order. -/
theorem dissect_withoutMarkers_eq {tree : Node} (h : tree.tidy = true) :
    tree.withoutMarkers.dissect =
      (tree.dissect.map Parts.withoutMarkers).mapError Rejection.withoutMarkers := by
  have ha := assigned?_withoutMarkers h
  cases hs : tree.assigned? with
  | none =>
    rw [hs] at ha
    rw [dissect_eq_dissectPlain hs, dissect_eq_dissectPlain ha]
    exact dissectPlain_withoutMarkers h
  | some bound =>
    obtain ⟨name, form, definition⟩ := bound
    rw [hs] at ha
    obtain ⟨-, -, rfl⟩ := assigned?_eq_some_iff.mp hs
    have hd : definition.tidy = true := tidy_of_mem h (by simp)
    have hp := dissectPlain_withoutMarkers hd
    rw [dissect, dissect, ha, hs]
    simp only [Option.map_some, hp]
    cases definition.dissectPlain <;> rfl

end Dissection

/-- A tree with line markers in its blocks is a definition if and only if it is one without them.
The record of the tree without markers is that of the tree, without markers; what is rejected is
rejected for a fault in the same area. -/
theorem dissect_withoutMarkers (tree : Node) (h : tree.tidy = true) :
    ((∃ p, tree.withoutMarkers.dissect = .ok p) ↔ ∃ p, tree.dissect = .ok p) ∧
    (∀ p, tree.dissect = .ok p → tree.withoutMarkers.dissect = .ok p.withoutMarkers) ∧
    ∀ r, tree.dissect = .error r → tree.withoutMarkers.dissect = .error r.withoutMarkers ∧
      r.withoutMarkers.fault.area = r.fault.area := by
  rw [dissect_withoutMarkers_eq h]
  cases tree.dissect with
  | ok p => simp [Except.map, Except.mapError]
  | error r => simp [Except.map, Except.mapError, Rejection.withoutMarkers]

theorem dissect_withoutMarkers_arrow : ∃ (tree : Node) (p : Parts), tree.tidy = true ∧
    tree.dissect = .ok p ∧ tree.withoutMarkers.dissect = .ok p.withoutMarkers ∧
    p.kwargs = some [.expr .keyword [.symbol "y", .literal (.int 1)]] ∧
    p.body = some (.expr .block [.marker 3 none, .symbol "x"]) ∧
    p.withoutMarkers.body = some (.expr .block [.symbol "x"]) := by
  let tree : Node := .expr .arrow
    [.expr .block [.marker 1 none, .symbol "x", .marker 2 none,
      .expr .assign [.symbol "y", .literal (.int 1)]],
      .expr .block [.marker 3 none, .symbol "x"]]
  have h : tree.dissect = .ok {
    head := some (.known .arrow), args := some [.symbol "x"],
    kwargs := some [.expr .keyword [.symbol "y", .literal (.int 1)]],
    body := some (.expr .block [.marker 3 none, .symbol "x"]) } := by rfl
  have ht : tree.tidy = true := by rfl
  exact ⟨tree, _, ht, h, (dissect_withoutMarkers tree ht).2.1 _ h, rfl, rfl, rfl⟩

end Node

end Anatomy
