import Anatomy.Proofs.Acceptance

namespace Anatomy

namespace Node

mutual

/-- The leaves of a tree from left to right. What is quoted is a leaf. -/
def leaves : Node → List Node
  | .expr _ children => leavesAll children
  | .foreign _ children => leavesAll children
  | leaf => [leaf]

def leavesAll : List Node → List Node
  | [] => []
  | node :: nodes => leaves node ++ leavesAll nodes

end

theorem leavesAll_eq_flatMap (nodes : List Node) : leavesAll nodes = nodes.flatMap leaves := by
  induction nodes with
  | nil => rfl
  | cons node nodes ih => rw [leavesAll, ih, List.flatMap_cons]

@[simp]
theorem leaves_expr (head : Head) (children : List Node) :
    (Node.expr head children).leaves = children.flatMap leaves :=
  leavesAll_eq_flatMap children

end Node

namespace Parts

open Node

/-- The trees of a record in the order in which a definition has them. -/
def contents (p : Parts) : List Node :=
  p.name.toList ++ p.params.getD [] ++ p.kwargs.getD [] ++ p.args.getD [] ++ p.rtype.toList ++
    p.whereParams.getD [] ++ p.body.toList

def IsFormHead (head : Option HeadSlot) : Prop :=
  head = none ∨ ∃ form : Form, head = some (.known form.head)

/-- The records that hold enough for a definition and nothing that it has no place for. -/
structure Complete (p : Parts) : Prop where
  head : IsFormHead p.head
  anonHead : IsFormHead p.anonHead
  slots : p.anonHead ≠ none ∧ p.name ≠ none ∧ p.body ≠ none ∧ p.params = none ∨
    p.anonHead = none ∧ (p.params = none ∨ p.name ≠ none) ∧
      (p.body ≠ none ∨ p.name ≠ none ∧
        p.args = none ∧ p.kwargs = none ∧ p.rtype = none ∧ p.whereParams = none)

section Slots

variable {p : Parts}

theorem bodySlots_eq_nil_iff : p.bodySlots = [] ↔
    p.args = none ∧ p.kwargs = none ∧ p.rtype = none ∧ p.whereParams = none := by
  simp [bodySlots, has]

theorem exists_displayName_iff :
    (∃ name, p.displayName = .ok name) ↔ p.params = none ∨ p.name ≠ none := by
  unfold displayName
  split <;> simp_all

end Slots

section Leaves

variable {p : Parts}

theorem leaves_displayName {name : Option Node} (h : p.displayName = .ok name) :
    name.toList.flatMap leaves = (p.name.toList ++ p.params.getD []).flatMap leaves := by
  cases hp : p.params with
  | none =>
    obtain rfl : p.name = name := by simpa [displayName, hp] using h
    rw [Option.getD_none, List.append_nil]
  | some params =>
    cases hn : p.name with
    | none => simp [displayName, hp, hn] at h
    | some callee =>
      obtain rfl : some (Node.expr .curly (callee :: params)) = name := by
        simpa [displayName, hp, hn] using h
      simp

theorem leaves_parameterNodes :
    p.parameterNodes.flatMap leaves = (p.kwargs.getD [] ++ p.args.getD []).flatMap leaves := by
  cases hk : p.kwargs <;> simp [parameterNodes, keywordNodes, hk]

theorem leaves_parameterNode (head : HeadSlot) (name : Option Node) :
    (p.parameterNode head name).leaves =
      name.toList.flatMap leaves ++ (p.kwargs.getD [] ++ p.args.getD []).flatMap leaves := by
  unfold parameterNode
  split
  · simp [leaves_parameterNodes]
  · next hk ha => simp [hk, ha]
  · simp [leaves_parameterNodes]

theorem leaves_withReturn (rtype : Option Node) (signature : Node) :
    (withReturn rtype signature).leaves = signature.leaves ++ rtype.toList.flatMap leaves := by
  cases rtype <;> simp [withReturn]

theorem leaves_withWhere (constraints : Option (List Node)) (signature : Node) :
    (withWhere constraints signature).leaves =
      signature.leaves ++ (constraints.getD []).flatMap leaves := by
  cases constraints <;> simp [withWhere]

theorem leaves_signatureNode (head : HeadSlot) (name : Option Node) :
    (p.signatureNode head name).leaves = name.toList.flatMap leaves ++
      (p.kwargs.getD [] ++ p.args.getD [] ++ p.rtype.toList ++ p.whereParams.getD []).flatMap
        leaves := by
  rw [signatureNode, leaves_withWhere, leaves_withReturn, leaves_parameterNode]
  simp only [List.flatMap_append, List.append_assoc]

variable {tree : Node}

theorem leaves_assemblePlain {head : HeadSlot} {form : Form}
    (h : p.assemblePlain head form = .ok tree) : tree.leaves = p.contents.flatMap leaves := by
  obtain ⟨name, hd, ⟨body, hb, rfl⟩ | ⟨hb, hs, callee, rfl, rfl⟩⟩ := assemblePlain_eq_ok_iff.mp h
  · simp [contents, hb, leaves_signatureNode, leaves_displayName hd]
  · obtain ⟨ha, hk, hr, hw⟩ := bodySlots_eq_nil_iff.mp hs
    have hl := leaves_displayName hd
    simpa [contents, hb, ha, hk, hr, hw] using hl

theorem leaves_assembleAssigned {form innerForm : Form} {innerHead : HeadSlot}
    (h : p.assembleAssigned form innerHead innerForm = .ok tree) :
    tree.leaves = p.contents.flatMap leaves := by
  obtain ⟨hp, name, body, hn, hb, rfl⟩ := assembleAssigned_eq_ok_iff.mp h
  simp [contents, hp, hn, hb, leaves_signatureNode]

theorem leaves_assemble (h : p.assemble = .ok tree) : tree.leaves = p.contents.flatMap leaves := by
  obtain ⟨form, -, ⟨-, h⟩ | ⟨innerHead, innerForm, -, -, h⟩⟩ := assemble_eq_ok_iff.mp h
  · exact leaves_assemblePlain h
  · exact leaves_assembleAssigned h

end Leaves

section Success

variable {p : Parts}

theorem exists_assemblePlain_iff {head : HeadSlot} {form : Form} :
    (∃ tree, p.assemblePlain head form = .ok tree) ↔
      (p.params = none ∨ p.name ≠ none) ∧ (p.body ≠ none ∨ p.name ≠ none ∧
        p.args = none ∧ p.kwargs = none ∧ p.rtype = none ∧ p.whereParams = none) := by
  rw [← exists_displayName_iff, ← bodySlots_eq_nil_iff]
  constructor
  · rintro ⟨tree, h⟩
    obtain ⟨name, hd, ⟨body, hb, -⟩ | ⟨-, hs, callee, rfl, -⟩⟩ := assemblePlain_eq_ok_iff.mp h
    · exact ⟨⟨name, hd⟩, .inl (by simp [hb])⟩
    · exact ⟨⟨_, hd⟩, .inr ⟨fun hn => by simpa using (displayName_eq_none_iff hd).mpr hn, hs⟩⟩
  · rintro ⟨⟨name, hd⟩, h⟩
    cases hb : p.body with
    | some body => exact ⟨_, assemblePlain_eq_ok_iff.mpr ⟨name, hd, .inl ⟨body, hb, rfl⟩⟩⟩
    | none =>
      obtain ⟨hn, hs⟩ := h.resolve_left (not_not.mpr hb)
      obtain ⟨callee, rfl⟩ := Option.ne_none_iff_exists'.mp
        fun he => hn ((displayName_eq_none_iff hd).mp he)
      exact ⟨_, assemblePlain_eq_ok_iff.mpr ⟨_, hd, .inr ⟨hb, hs, callee, rfl, rfl⟩⟩⟩

theorem exists_assembleAssigned_iff {form innerForm : Form} {innerHead : HeadSlot} :
    (∃ tree, p.assembleAssigned form innerHead innerForm = .ok tree) ↔
      p.name ≠ none ∧ p.body ≠ none ∧ p.params = none := by
  simp only [assembleAssigned_eq_ok_iff, Option.ne_none_iff_exists']
  constructor
  · rintro ⟨tree, hp, name, body, hn, hb, -⟩
    exact ⟨⟨name, hn⟩, ⟨body, hb⟩, hp⟩
  · rintro ⟨⟨name, hn⟩, ⟨body, hb⟩, hp⟩
    exact ⟨_, hp, name, body, hn, hb, rfl⟩

theorem isFormHead_iff (hk : ∀ s, p.head ≠ some (.text s)) :
    IsFormHead p.head ↔ ∃ form, checkedForm .head p.leadingHead = .ok form := by
  constructor
  · rintro (hh | ⟨form, hh⟩)
    · exact ⟨.long, by rw [leadingHead, hh]; rfl⟩
    · exact ⟨form, by rw [HasForm.leadingHead (.inl hh), checkedForm_known]⟩
  · rintro ⟨form, h⟩
    obtain hh | ⟨hh, -⟩ := hasForm_of_checkedForm hk h
    · exact .inr ⟨form, hh⟩
    · exact .inl hh

theorem exists_assemble_iff (hh : ∀ s, p.head ≠ some (.text s))
    (hi : ∀ s, p.anonHead ≠ some (.text s)) : (∃ tree, p.assemble = .ok tree) ↔ p.Complete := by
  constructor
  · rintro ⟨tree, h⟩
    obtain ⟨form, hf, ⟨ha, h⟩ | ⟨innerHead, innerForm, ha, hc, h⟩⟩ := assemble_eq_ok_iff.mp h
    · have hs := exists_assemblePlain_iff.mp ⟨tree, h⟩
      exact ⟨(isFormHead_iff hh).mpr ⟨form, hf⟩, .inl ha, .inr ⟨ha, hs⟩⟩
    · have ht : ∀ s, innerHead ≠ .text s := fun s he => hi s (ha.trans (congrArg some he))
      have hk := ha.trans (congrArg some (eq_known_of_checkedForm ht hc))
      have hs := exists_assembleAssigned_iff.mp ⟨tree, h⟩
      exact ⟨(isFormHead_iff hh).mpr ⟨form, hf⟩, .inr ⟨innerForm, hk⟩, .inl ⟨by simp [ha], hs⟩⟩
  · rintro ⟨hf, ha, hs⟩
    obtain ⟨form, hf⟩ := (isFormHead_iff hh).mp hf
    obtain ⟨hne, hs⟩ | ⟨hnone, hs⟩ := hs
    · obtain ⟨innerForm, hk⟩ := ha.resolve_left hne
      obtain ⟨tree, h⟩ := exists_assembleAssigned_iff.mpr hs
      exact ⟨tree, assemble_eq_ok_iff.mpr
        ⟨form, hf, .inr ⟨_, innerForm, hk, checkedForm_known .anonHead innerForm, h⟩⟩⟩
    · obtain ⟨tree, h⟩ := exists_assemblePlain_iff.mpr hs
      exact ⟨tree, assemble_eq_ok_iff.mpr ⟨form, hf, .inl ⟨hnone, h⟩⟩⟩

end Success

/-- A definition is made of the complete records and of no others. Its leaves are those of the
record's slots. -/
theorem assemble_iff_complete (p : Parts) (hh : ∀ s, p.head ≠ some (.text s))
    (hi : ∀ s, p.anonHead ≠ some (.text s)) :
    ((∃ tree, p.assemble = .ok tree) ↔ p.Complete) ∧
    (¬p.Complete → ∃ cause, p.assemble = .error cause) ∧
    ∀ tree, p.assemble = .ok tree → tree.leaves = p.contents.flatMap leaves := by
  refine ⟨exists_assemble_iff hh hi, fun hc => ?_, fun tree h => leaves_assemble h⟩
  rw [← exists_assemble_iff hh hi] at hc
  cases h : p.assemble with
  | ok tree => exact absurd ⟨tree, h⟩ hc
  | error cause => exact ⟨cause, rfl⟩

theorem assemble_iff_complete_bound : ∃ (p : Parts) (tree : Node),
    (∀ s, p.head ≠ some (.text s)) ∧ (∀ s, p.anonHead ≠ some (.text s)) ∧ p.Complete ∧
    p.assemble = .ok tree ∧
    tree.leaves = [.symbol "f", .symbol "y", .symbol "x", .symbol "T", .symbol "T", .symbol "z"] := by
  let p : Parts := {
    head := some (.known .assign), name := some (.symbol "f"), anonHead := some (.known .arrow),
    args := some [.expr .ascription [.symbol "x", .symbol "T"]], kwargs := some [.symbol "y"],
    whereParams := some [.symbol "T"], body := some (.symbol "z") }
  have hh : ∀ s, p.head ≠ some (.text s) := by simp [p]
  have hi : ∀ s, p.anonHead ≠ some (.text s) := by simp [p]
  have hc : p.Complete := ⟨.inr ⟨.short, rfl⟩, .inr ⟨.arrow, rfl⟩, .inl (by simp [p])⟩
  obtain ⟨hiff, -, hleaves⟩ := assemble_iff_complete p hh hi
  obtain ⟨tree, ht⟩ := hiff.mpr hc
  exact ⟨p, tree, hh, hi, hc, ht, hleaves tree ht⟩

end Parts

end Anatomy
