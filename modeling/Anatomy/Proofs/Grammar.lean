import Mathlib.Data.List.Basic
import Anatomy.Event
import Anatomy.Proofs.Reading

namespace Anatomy.Node

inductive Applied : Form → Node → Prop
  | call (form : Form) (callee : Node) (items : List Node) (h : form ≠ .arrow) :
      Applied form (.expr .call (callee :: items))
  | tuple (items : List Node) : Applied .long (.expr .tuple items)
  | block (items : List Node) (h : (statements items).length ≤ 2) :
      Applied .long (.expr .block items)

/-- A signature without clauses. An arrow takes anything but a block of too many items; the other
forms can have a return type. -/
inductive Core : Form → Node → Prop
  | arrow (core : Node) (h : ∀ items, core = .expr .block items → (statements items).length ≤ 2) :
      Core .arrow core
  | bare (form : Form) (core : Node) (h : Applied form core) : Core form core
  | annotated (form : Form) (core rtype : Node) (h : Applied form core) :
      Core form (.expr .ascription [core, rtype])

inductive Definition : Node → Prop
  | declaration (name : Node) (h : name.isName = true) : Definition (.expr .function [name])
  | bound (name : String) (form : Form) (children : List Node) (hf : form ≠ .short)
      (h : Definition (.expr form.head children)) :
      Definition (.expr .assign [.symbol name, .expr form.head children])
  | signed (form : Form) (layers : List (List Node)) (core body : Node)
      (hw : core.isWhere = false) (h : Core form core)
      (ha : (Node.expr form.head [layered layers core, body]).assigned? = none) :
      Definition (.expr form.head [layered layers core, body])

/-- A signature without clauses whose parameters are a block of too many items. -/
inductive LongBlock : Form → Node → Prop
  | bare (form : Form) (items : List Node) (hf : form ≠ .short)
      (h : 2 < (statements items).length) : LongBlock form (.expr .block items)
  | annotated (items : List Node) (rtype : Node) (h : 2 < (statements items).length) :
      LongBlock .long (.expr .ascription [.expr .block items, rtype])

/-- What is wrong with a tree that is no definition, by the area of the fault. -/
inductive Faulty : Area → Node → Prop
  | head (tree : Node) (h : tree.isDefinition = false) : Faulty .head tree
  | childCount (form : Form) (children : List Node) (hl : children.length ≠ 2)
      (hn : ∀ name, name.isName = true → Node.expr form.head children ≠ .expr .function [name]) :
      Faulty .childCount (.expr form.head children)
  | emptyClause (form : Form) (layers : List (List Node)) (body : Node) :
      Faulty .arguments (.expr form.head [layered layers (.expr .whereClause []), body])
  | arguments (form : Form) (layers : List (List Node)) (core body : Node)
      (hw : core.isWhere = false) (hc : ¬Core form core) (hb : ¬LongBlock form core) :
      Faulty .arguments (.expr form.head [layered layers core, body])
  | block (form : Form) (layers : List (List Node)) (core body : Node) (h : LongBlock form core) :
      Faulty .block (.expr form.head [layered layers core, body])

theorem parameterBlock_eq_none_iff (items : List Node) :
    parameterBlock items = none ↔ 2 < (statements items).length := by
  unfold parameterBlock
  rw [← statements]
  split <;> rename_i hs
  · simp [hs]
  · simp [hs]
  · simp [hs]
  · match h : statements items with
    | [] | [_] | [_, _] => simp_all
    | _ :: _ :: _ :: _ => simp

theorem exists_parameterBlock_iff (items : List Node) :
    (∃ p, parameterBlock items = some p) ↔ (statements items).length ≤ 2 := by
  rw [← Option.isSome_iff_exists, Option.isSome_iff_ne_none, ne_eq, parameterBlock_eq_none_iff,
    Nat.not_lt]

theorem exists_reads_iff_applied {form : Form} {core : Node} (hf : form ≠ .arrow) :
    (∃ q, Reads form core q) ↔ Applied form core := by
  constructor
  · rintro ⟨q, h⟩
    cases h with
    | call _ callee items _ => exact .call form callee items hf
    | tuple _ items hs =>
      cases form with
      | long => exact .tuple items
      | short | arrow => contradiction
    | block _ items _ hs hp =>
      cases form with
      | long => exact .block items ((exists_parameterBlock_iff items).mp ⟨_, hp⟩)
      | short | arrow => contradiction
    | lone _ _ _ => contradiction
  · intro h
    cases h with
    | call _ callee items _ => exact ⟨_, .call form callee items hf⟩
    | tuple items => exact ⟨_, .tuple .long items (by simp)⟩
    | block items hl =>
      obtain ⟨p, hp⟩ := (exists_parameterBlock_iff items).mpr hl
      exact ⟨p, .block .long items p (by simp) hp⟩

theorem exists_reads_arrow_iff {core : Node} :
    (∃ q, Reads .arrow core q) ↔
      ∀ items, core = .expr .block items → (statements items).length ≤ 2 := by
  constructor
  · rintro ⟨q, h⟩ items rfl
    cases h with
    | block _ _ _ _ hp => exact (exists_parameterBlock_iff items).mp ⟨_, hp⟩
    | lone _ _ hb => exact absurd rfl (hb items)
  · intro h
    by_cases ht : ∃ items, core = .expr .tuple items
    · obtain ⟨items, rfl⟩ := ht
      exact ⟨_, .tuple .arrow items (by simp)⟩
    by_cases hb : ∃ items, core = .expr .block items
    · obtain ⟨items, rfl⟩ := hb
      obtain ⟨p, hp⟩ := (exists_parameterBlock_iff items).mpr (h items rfl)
      exact ⟨p, .block .arrow items p (by simp) hp⟩
    · exact ⟨_, .lone core (fun items he => ht ⟨items, he⟩) (fun items he => hb ⟨items, he⟩)⟩

theorem exists_reads_iff_core {form : Form} {core : Node} :
    (∃ q, Reads form (peelReturnOf form core).2 q) ↔ Core form core := by
  obtain ⟨hf, target, rtype, rfl, hp⟩ | ⟨hp, hc⟩ := peelReturnOf_cases form core
  · rw [hp, exists_reads_iff_applied hf]
    constructor
    · exact .annotated form target rtype
    · intro h
      cases h with
      | arrow _ _ => contradiction
      | bare _ _ h => cases h
      | annotated _ _ _ h => exact h
  · rw [hp]
    by_cases hf : form = .arrow
    · subst form
      rw [exists_reads_arrow_iff]
      constructor
      · exact .arrow core
      · intro h
        cases h with
        | arrow _ h => exact h
        | bare _ _ h => cases h; contradiction
        | annotated _ _ _ _ => simp
    · rw [exists_reads_iff_applied hf]
      constructor
      · exact .bare form core
      · intro h
        cases h with
        | arrow _ _ => contradiction
        | bare _ _ h => exact h
        | annotated _ target rtype _ => exact absurd rfl (hc.resolve_left hf target rtype)

theorem dissectParameters_eq_error {form : Form} {target : Node} {fault : Fault}
    (h : dissectParameters form target = .error fault) :
    fault = .noArguments ∨ fault = .longBlock ∧ form ≠ .short ∧
      ∃ items, target = .expr .block items ∧ 2 < (statements items).length := by
  unfold dissectParameters at h
  split at h
  · cases h
  · cases h
  · cases h
  · cases h
  · split at h <;> cases h
    exact .inr ⟨rfl, by simp, _, rfl, (parameterBlock_eq_none_iff _).mp ‹_›⟩
  · split at h <;> cases h
    exact .inr ⟨rfl, by simp, _, rfl, (parameterBlock_eq_none_iff _).mp ‹_›⟩
  · cases h
  · cases h
    exact .inl rfl

theorem dissectParameters_eq_longBlock_iff {form : Form} {core : Node} :
    dissectParameters form (peelReturnOf form core).2 = .error .longBlock ↔ LongBlock form core := by
  constructor
  · intro h
    obtain hn | ⟨-, hs, items, ht, hl⟩ := dissectParameters_eq_error h
    · cases hn
    obtain ⟨hf, target, rtype, rfl, hp⟩ | ⟨hp, -⟩ := peelReturnOf_cases form core
    · obtain rfl : target = .expr .block items := by rwa [hp] at ht
      cases form with
      | long => exact .annotated items rtype hl
      | short | arrow => contradiction
    · obtain rfl : core = .expr .block items := by rwa [hp] at ht
      exact .bare form items hs hl
  · intro h
    cases h with
    | bare _ items hf hl =>
      have hb := (parameterBlock_eq_none_iff items).mpr hl
      cases form with
      | short => contradiction
      | long | arrow => simp [peelReturnOf, peelReturn, dissectParameters, hb]
    | annotated items rtype hl =>
      have hb := (parameterBlock_eq_none_iff items).mpr hl
      simp [peelReturnOf, peelReturn, dissectParameters, hb]

theorem LongBlock.isWhere {form : Form} {core : Node} (h : LongBlock form core) :
    core.isWhere = false := by
  cases h <;> rfl

theorem dissectPlain_of_length_ne {form : Form} {children : List Node} (hl : children.length ≠ 2)
    (hn : ∀ name, name.isName = true → Node.expr form.head children ≠ .expr .function [name]) :
    (Node.expr form.head children).dissectPlain =
      .error ⟨if children.length > 2 then .tooMany form else .tooFew form,
        .expr form.head children⟩ := by
  have hd : (Node.expr form.head children).definition? = some (form, children) :=
    definition?_eq_some_iff.mpr rfl
  rw [dissectPlain, hd]
  split
  · cases ‹_›
  · rename_i he
    cases he
    exact absurd rfl hl
  · rename_i name he
    cases he
    have hi : ¬name.isName = true := fun hi => hn name hi rfl
    rw [if_neg hi]
    rfl
  · rename_i he
    cases he
    rfl

theorem Faulty.dissectPlain {area : Area} {tree : Node} (h : Faulty area tree) :
    ∃ r, tree.dissectPlain = .error r ∧ r.fault.area = area ∧
      (r.tree = tree ∨ r = ⟨.emptyWhere, .expr .whereClause []⟩) := by
  cases h with
  | head _ h =>
    have hd : tree.definition? = none := by simpa [isDefinition] using h
    rw [Node.dissectPlain, hd]
    exact ⟨_, rfl, rfl, .inl rfl⟩
  | childCount form children hl hn =>
    rw [dissectPlain_of_length_ne hl hn]
    refine ⟨_, rfl, ?_, .inl rfl⟩
    by_cases hc : children.length > 2
    · simp only [if_pos hc]; rfl
    · simp only [if_neg hc]; rfl
  | emptyClause form layers body =>
    rw [dissectPlain_pair, dissectSignature, peelWhere_layered_empty]
    exact ⟨_, rfl, rfl, .inr rfl⟩
  | arguments form layers core body hw hc hb =>
    rw [dissectPlain_pair, dissectSignature_layered _ _ _ _ _ hw]
    cases hd : dissectParameters form (peelReturnOf form core).2 with
    | ok q => exact absurd (exists_reads_iff_core.mp ⟨q, dissectParameters_eq_ok_iff.mp hd⟩) hc
    | error fault =>
      obtain rfl | ⟨rfl, -⟩ := dissectParameters_eq_error hd
      · exact ⟨_, rfl, rfl, .inl rfl⟩
      · exact absurd (dissectParameters_eq_longBlock_iff.mp hd) hb
  | block form layers core body h =>
    rw [dissectPlain_pair, dissectSignature_layered _ _ _ _ _ h.isWhere,
      dissectParameters_eq_longBlock_iff.mpr h]
    exact ⟨_, rfl, rfl, .inl rfl⟩

theorem Faulty.dissect {area : Area} {tree : Node} (h : Faulty area tree.subject) :
    ∃ r, tree.dissect = .error r ∧ r.fault.area = area ∧
      (r.tree = tree.subject ∨ r = ⟨.emptyWhere, .expr .whereClause []⟩) := by
  obtain ⟨r, hr, ha⟩ := h.dissectPlain
  cases hs : tree.assigned? with
  | none =>
    rw [subject_of_assigned?_none hs] at hr
    exact ⟨r, (dissect_eq_dissectPlain hs).trans hr, ha⟩
  | some bound =>
    obtain ⟨name, form, definition⟩ := bound
    rw [subject_of_assigned? hs] at hr
    refine ⟨r, ?_, ha⟩
    rw [Node.dissect, hs]
    simp only [hr]

theorem Definition.dissect {tree : Node} (h : Definition tree) : ∃ p, tree.dissect = .ok p := by
  induction h with
  | declaration name h =>
    have hp := dissectPlain_declaration h
    exact ⟨_, (dissect_eq_dissectPlain rfl).trans hp⟩
  | bound name form children hf _ ih =>
    obtain ⟨p, hp⟩ := ih
    rw [dissect_eq_dissectPlain (assigned?_form_head children hf)] at hp
    exact ⟨_, (dissect_bound_ok_iff hf).mpr ⟨p, hp, rfl⟩⟩
  | signed form layers core body hw hc ha =>
    obtain ⟨q, hq⟩ := exists_reads_iff_core.mpr hc
    rw [dissect_eq_dissectPlain ha]
    exact ⟨_, (dissectPlain_layered_ok_iff hw).mpr ⟨q, hq, rfl⟩⟩

theorem definition_or_faulty_of_assigned?_none {tree : Node} (h : tree.assigned? = none) :
    Definition tree ∨ ∃ area, Faulty area tree := by
  cases hd : tree.definition? with
  | none => exact .inr ⟨_, .head tree (by simp [isDefinition, hd])⟩
  | some found =>
    obtain ⟨form, children⟩ := found
    obtain rfl := definition?_eq_some_iff.mp hd
    by_cases hl : children.length = 2
    · obtain ⟨signature, body, rfl⟩ := List.length_eq_two.mp hl
      obtain ⟨layers, core, rfl, hw | rfl⟩ := exists_layered signature
      · by_cases hc : Core form core
        · exact .inl (.signed form layers core body hw hc h)
        by_cases hb : LongBlock form core
        · exact .inr ⟨_, .block form layers core body hb⟩
        · exact .inr ⟨_, .arguments form layers core body hw hc hb⟩
      · exact .inr ⟨_, .emptyClause form layers body⟩
    · by_cases hn : ∃ name, name.isName = true ∧
          Node.expr form.head children = .expr .function [name]
      · obtain ⟨name, hn, he⟩ := hn
        rw [he]
        exact .inl (.declaration name hn)
      · exact .inr ⟨_, .childCount form children hl fun name hi he => hn ⟨name, hi, he⟩⟩

theorem definition_or_faulty (tree : Node) :
    Definition tree ∨ ∃ area, Faulty area tree.subject := by
  cases hs : tree.assigned? with
  | none =>
    rw [subject_of_assigned?_none hs]
    exact definition_or_faulty_of_assigned?_none hs
  | some bound =>
    obtain ⟨name, form, definition⟩ := bound
    rw [subject_of_assigned? hs]
    obtain ⟨hf, ⟨children, rfl⟩, rfl⟩ := assigned?_eq_some_iff.mp hs
    obtain hd | hd := definition_or_faulty_of_assigned?_none (assigned?_form_head children hf)
    · exact .inl (.bound name form children hf hd)
    · exact .inr hd

/-- A tree is taken apart if and only if it is a definition. What is no definition is rejected, and
the rejection names the one area in which the tree is faulty. -/
theorem dissect_iff_definition (tree : Node) :
    ((∃ p, tree.dissect = .ok p ∧ tree.recognize.1 = some p) ↔ Definition tree) ∧
    (¬Definition tree → ∃ r, tree.dissect = .error r ∧ tree.recognize.1 = none ∧
      (∀ area, r.fault.area = area ↔ Faulty area tree.subject) ∧
      (r.tree = tree.subject ∨ r = ⟨.emptyWhere, .expr .whereClause []⟩)) := by
  refine ⟨⟨?_, ?_⟩, ?_⟩
  · rintro ⟨p, hp, -⟩
    obtain hd | ⟨area, hf⟩ := definition_or_faulty tree
    · exact hd
    · obtain ⟨r, hr, -⟩ := hf.dissect
      rw [hp] at hr
      cases hr
  · intro hd
    obtain ⟨p, hp⟩ := hd.dissect
    exact ⟨p, hp, by rw [recognize, hp]⟩
  · intro hd
    obtain ⟨area, hf⟩ := (definition_or_faulty tree).resolve_left hd
    obtain ⟨r, hr, ha, ht⟩ := hf.dissect
    refine ⟨r, hr, by rw [recognize, hr], fun area' => ⟨?_, fun hf' => ?_⟩, ht⟩
    · rintro rfl
      rwa [ha]
    · obtain ⟨r', hr', ha', -⟩ := hf'.dissect
      rw [hr] at hr'
      cases hr'
      exact ha'

theorem dissect_iff_definition_three_items :
    ¬Definition (.expr .arrow [.expr .block [.symbol "a", .symbol "b", .symbol "c"], .symbol "a"]) ∧
    ∃ r, (Node.expr .arrow [.expr .block [.symbol "a", .symbol "b", .symbol "c"],
      .symbol "a"]).dissect = .error r ∧ r.fault.area = .block := by
  have hd : ¬Definition
      (.expr .arrow [.expr .block [.symbol "a", .symbol "b", .symbol "c"], .symbol "a"]) := by
    intro hd
    obtain ⟨p, hp, -⟩ := (dissect_iff_definition _).1.mpr hd
    cases hp
  obtain ⟨r, hr, -, ha, -⟩ := (dissect_iff_definition _).2 hd
  exact ⟨hd, r, hr, (ha .block).mpr
    (.block .arrow [] _ (.symbol "a") (.bare .arrow _ (by simp) (by decide)))⟩

end Anatomy.Node
