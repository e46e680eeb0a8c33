import Anatomy.Method.Extractor
import Anatomy.Proofs.Echoes

namespace Anatomy

/-- Trees that differ in names that were marked and in the order of what a union is made of. -/
inductive Node.Echoes (visible : List String) : Node → Node → Prop
  | refl (node : Node) : Echoes visible node node
  | symbol {name name' : String} (hn : Ty.Echo name name') :
      Echoes visible (.symbol name) (.symbol name')
  | expr {head : Head} {as bs : List Node} (h : List.Forall₂ (Echoes visible) as bs) :
      Echoes visible (.expr head as) (.expr head bs)
  | union {as bs cs : List Node} (h : List.Forall₂ (Echoes visible) as bs) (hp : bs.Perm cs) :
      Echoes visible (.expr .curly (TypeName.union.render visible :: as))
        (.expr .curly (TypeName.union.render visible :: cs))

/-- Two runs both succeed, with results in the relation `R`, or both fail, with errors in the
relation `E`. -/
inductive Agree {ε α β : Type} (E : ε → ε → Prop) (R : α → β → Prop) :
    Except ε α → Except ε β → Prop
  | ok {a : α} {b : β} (h : R a b) : Agree E R (.ok a) (.ok b)
  | error {e e' : ε} (h : E e e') : Agree E R (.error e) (.error e')

section Agree

variable {ε ε' α β γ δ : Type} {E : ε → ε → Prop} {R : α → β → Prop} {x : Except ε α}
  {y : Except ε β}

theorem Agree.bind {S : γ → δ → Prop} {f : α → Except ε γ} {g : β → Except ε δ}
    (h : Agree E R x y) (hfg : ∀ a b, R a b → Agree E S (f a) (g b)) :
    Agree E S (x >>= f) (y >>= g) := by
  cases h with
  | ok h => exact hfg _ _ h
  | error h => exact .error h

theorem Agree.mono {S : α → β → Prop} (h : Agree E R x y) (hS : ∀ a b, R a b → S a b) :
    Agree E S x y := by
  cases h with
  | ok h => exact .ok (hS _ _ h)
  | error h => exact .error h

theorem Agree.map {S : γ → δ → Prop} {f : α → γ} {g : β → δ} (h : Agree E R x y)
    (hfg : ∀ a b, R a b → S (f a) (g b)) : Agree E S (x.map f) (y.map g) := by
  cases h with
  | ok h => exact .ok (hfg _ _ h)
  | error h => exact .error h

theorem Agree.comp {S : β → γ → Prop} {T : α → γ → Prop} {z : Except ε γ} (h : Agree E R x y)
    (h' : Agree E S y z) (hE : ∀ e e' e'', E e e' → E e' e'' → E e e'')
    (hT : ∀ a b c, R a b → S b c → T a c) : Agree E T x z := by
  cases h with
  | ok h =>
    cases h' with
    | ok h' => exact .ok (hT _ _ _ h h')
  | error h =>
    cases h' with
    | error h' => exact .error (hE _ _ _ h h')

end Agree

/-- Both can be written, as trees that echo one another, or neither can. -/
abbrev Written {α β : Type} (R : α → β → Prop) :
    Except Unrenderable α → Except Unrenderable β → Prop :=
  Agree (fun _ _ => True) R

namespace Ty

variable {visible : List String}

theorem Echoes.isBottom_eq {N : String → String → Prop} {a b : Ty} (h : Echoes N a b) :
    b.isBottom = a.isBottom := by
  cases h with
  | union h hp =>
    cases h with
    | nil => rw [List.nil_perm.mp hp]
    | cons _ _ =>
      rename_i cs _ _ _ _ _ _
      cases cs with
      | nil => exact absurd hp.symm (List.nil_perm.not.mpr (List.cons_ne_nil _ _))
      | cons _ _ => rfl
  | _ => rfl

theorem Echoes.isAny_eq {N : String → String → Prop} {a b : Ty} (h : Echoes N a b) :
    b.isAny = a.isAny := by
  cases h with
  | nominal h => cases h <;> rfl
  | _ => rfl

theorem written_renderAll {as bs : List Ty}
    (h : List.Forall₂
      (fun a b => Written (Node.Echoes visible) (a.render visible) (b.render visible)) as bs) :
    Written (List.Forall₂ (Node.Echoes visible)) (renderAll visible as) (renderAll visible bs) := by
  induction h with
  | nil => exact .ok .nil
  | cons h _ ih =>
    rw [renderAll, renderAll]
    exact h.bind fun m n hmn => ih.bind fun ms ns hs => .ok (.cons hmn hs)

theorem written_renderAll_perm {as bs : List Ty} (h : as.Perm bs) :
    Written List.Perm (renderAll visible as) (renderAll visible bs) := by
  induction h with
  | nil => exact .ok .nil
  | cons t _ ih =>
    rw [renderAll, renderAll]
    cases t.render visible with
    | error e => exact .error trivial
    | ok node => exact ih.bind fun ms ns hs => .ok (hs.cons node)
  | swap a b ts =>
    simp only [renderAll]
    cases a.render visible <;> cases b.render visible <;> cases renderAll visible ts
    case ok.ok.ok => exact .ok (.swap _ _ _)
    all_goals exact .error trivial
  | trans _ _ ih ih' =>
    exact ih.comp ih' (fun _ _ _ _ _ => trivial) fun _ _ _ h h' => h.trans h'

theorem written_boundUnless {trivial : Bool} {x y : Except Unrenderable Node}
    (h : Written (Node.Echoes visible) x y) :
    Written (Option.Rel (Node.Echoes visible)) (boundUnless trivial x) (boundUnless trivial y) := by
  rw [boundUnless, boundUnless]
  split
  · exact .ok .none
  · exact h.map fun _ _ h => .some h

theorem echoes_declarationNode {name name' : String} (hn : Echo name name')
    {lower lower' upper upper' : Option Node}
    (hl : Option.Rel (Node.Echoes visible) lower lower')
    (hu : Option.Rel (Node.Echoes visible) upper upper') :
    Node.Echoes visible (declarationNode name lower upper)
      (declarationNode name' lower' upper') := by
  cases hl with
  | none =>
    cases hu with
    | none => exact .symbol hn
    | some hu => exact .expr (.cons (.symbol hn) (.cons hu .nil))
  | some hl =>
    cases hu with
    | none => exact .expr (.cons (.symbol hn) (.cons hl .nil))
    | some hu =>
      exact .expr (.cons hl (.cons (.refl _) (.cons (.symbol hn) (.cons (.refl _)
        (.cons hu .nil)))))

theorem written_declaration {name name' : String} (hn : Echo name name')
    {lower lower' upper upper' : Except Unrenderable (Option Node)}
    (hl : Written (Option.Rel (Node.Echoes visible)) lower lower')
    (hu : Written (Option.Rel (Node.Echoes visible)) upper upper') :
    Written (Node.Echoes visible) (declaration name lower upper)
      (declaration name' lower' upper') := by
  rw [declaration, declaration]
  exact hl.bind fun l l' hl => hu.bind fun u u' hu => .ok (echoes_declarationNode hn hl hu)

theorem constrain_of_ne {head : Head} (h : head ≠ .whereClause) (constraint : Node)
    (children : List Node) : constrain constraint (.expr head children) =
      .expr .whereClause [.expr head children, constraint] := by
  rw [constrain]
  rintro core constraints ⟨⟩
  exact h rfl

theorem echoes_constrain {constraint constraint' node node' : Node}
    (hc : Node.Echoes visible constraint constraint') (hn : Node.Echoes visible node node') :
    Node.Echoes visible (constrain constraint node) (constrain constraint' node') := by
  have hplain : ∀ {a b : Node}, Node.Echoes visible a b →
      Node.Echoes visible (.expr .whereClause [a, constraint])
        (.expr .whereClause [b, constraint']) := fun h => .expr (.cons h (.cons hc .nil))
  cases hn with
  | refl =>
    rw [constrain.eq_def, constrain.eq_def]
    split
    · exact .expr (.cons (.refl _) (.cons hc (List.forall₂_same.mpr fun n _ => .refl n)))
    · exact hplain (.refl _)
  | symbol hn => exact hplain (.symbol hn)
  | @expr head as bs h =>
    by_cases hw : head = .whereClause
    · subst hw
      cases h with
      | nil => exact hplain (.expr .nil)
      | cons h hs => exact .expr (.cons h (.cons hc hs))
    · rw [constrain_of_ne hw, constrain_of_ne hw]
      exact hplain (.expr h)
  | union h hp => exact hplain (.union h hp)

theorem render_vararg {element count : Ty} (h : count ≠ .value .null) :
    (Ty.vararg element count).render visible = (do
      let element ← element.render visible
      let count ← count.render visible
      .ok (.expr .curly [TypeName.vararg.render visible, element, count])) := by
  rw [render]
  exact h

theorem Echoes.written {a b : Ty} (h : Echoes Echo a b) :
    Written (Node.Echoes visible) (a.render visible) (b.render visible) := by
  induction b generalizing a with
  | nominal name params ih =>
    cases h with
    | nominal h =>
      cases h with
      | nil => exact .ok (.refl _)
      | cons h hs =>
        obtain ⟨hb, hbs⟩ := List.forall_mem_cons.mp ih
        rw [render, render]
        refine Agree.bind (hb h) fun m n hmn => ?_
        refine Agree.bind (written_renderAll (forall₂_imp_of_mem hs fun b hb a => hbs b hb)) ?_
        exact fun ms ns hs => .ok (.expr (.cons (.refl _) (.cons hmn hs)))
  | tuple params ih =>
    cases h with
    | tuple h =>
      rw [render, render]
      refine Agree.bind (written_renderAll (forall₂_imp_of_mem h fun b hb a => ih b hb)) ?_
      intro ms ns hs
      exact .ok (.expr (.cons (.refl _) hs))
  | union members ih =>
    cases h with
    | union h hp =>
      have h := forall₂_imp_of_mem h fun b hb a => ih b (hp.mem_iff.mp hb)
      have hms : Written (fun ms ns => ∃ ks, List.Forall₂ (Node.Echoes visible) ms ks ∧ ks.Perm ns)
          (renderAll visible _) (renderAll visible members) :=
        (written_renderAll h).comp (written_renderAll_perm hp) (fun _ _ _ _ _ => trivial)
          fun _ ks _ h h' => ⟨ks, h, h'⟩
      rw [render, render]
      refine hms.bind fun ms ns hs => ?_
      obtain ⟨ks, h, hp⟩ := hs
      exact .ok (.union h hp)
  | var v =>
    rw [TypeVar.toTy] at h ⊢
    cases h with
    | var hn => exact .ok (.symbol hn)
  | layer v b ihl ihu ihb =>
    rw [TypeVar.over] at h ⊢
    cases h with
    | layer hn hl hu hb =>
      rw [render, render, hl.isBottom_eq, hu.isAny_eq]
      refine (written_declaration hn (written_boundUnless (ihl hl))
        (written_boundUnless (ihu hu))).bind fun c c' hc => ?_
      exact (ihb hb).bind fun n n' hn => .ok (echoes_constrain hc hn)
  | vararg element count ihe ihc =>
    cases h with
    | @vararg e c _ _ he hc =>
      by_cases hnull : c = .value .null
      · subst hnull
        cases hc
        rw [render, render, he.isAny_eq]
        split
        · exact .ok (.refl _)
        · exact Agree.bind (ihe he) fun m n h => .ok (.expr (.cons (.refl _) (.cons h .nil)))
      · have hnull' : count ≠ .value .null := by
          rintro rfl
          cases hc
          exact hnull rfl
        rw [render_vararg hnull, render_vararg hnull']
        refine Agree.bind (ihe he) fun m n h => Agree.bind (ihc hc) fun m' n' h' => ?_
        exact .ok (.expr (.cons (.refl _) (.cons h (.cons h' .nil))))
  | symbol name =>
    cases h
    exact .ok (.refl _)
  | bareName name =>
    cases h
    exact .error trivial
  | value scalar =>
    cases h
    cases (Ty.value scalar).render visible with
    | ok node => exact .ok (.refl node)
    | error u => exact .error trivial

end Ty

inductive FaultKind
  | record
  | parameters
  | rendering
  deriving DecidableEq

def SignatureFault.kind : SignatureFault → FaultKind
  | .unparametric _ => .parameters
  | .unrenderable _ => .rendering
  | _ => .record

/-- Records that differ in marked names and in the order of what unions are made of. -/
structure Parts.Echoes (visible : List String) (p p' : Parts) : Prop where
  head : p'.head = p.head
  name : p'.name = p.name
  anonHead : p'.anonHead = p.anonHead
  params : Option.Rel (List.Forall₂ (Node.Echoes visible)) p.params p'.params
  args : Option.Rel (List.Forall₂ (Node.Echoes visible)) p.args p'.args
  kwargs : p'.kwargs = p.kwargs
  rtype : p'.rtype = p.rtype
  whereParams : Option.Rel (List.Forall₂ (Node.Echoes visible)) p.whereParams p'.whereParams
  body : p'.body = p.body

theorem Parts.Echoes.withKwargs {visible : List String} {p p' : Parts}
    (h : Parts.Echoes visible p p') (kwargs : Option (List Node)) :
    Parts.Echoes visible { p with kwargs := kwargs } { p' with kwargs := kwargs } :=
  { h with kwargs := rfl }

theorem Parts.Echoes.has_eq {visible : List String} {p p' : Parts} (h : Parts.Echoes visible p p')
    (slot : Slot) : p'.has slot = p.has slot := by
  have hrel : ∀ {x y : Option (List Node)},
      Option.Rel (List.Forall₂ (Node.Echoes visible)) x y → y.isSome = x.isSome := by
    intro x y hxy
    cases hxy <;> rfl
  cases slot with
  | head => rw [has, has, h.head]
  | name => rw [has, has, h.name]
  | anonHead => rw [has, has, h.anonHead]
  | params => exact hrel h.params
  | args => exact hrel h.args
  | kwargs => rw [has, has, h.kwargs]
  | rtype => rw [has, has, h.rtype]
  | whereParams => exact hrel h.whereParams
  | body => rw [has, has, h.body]

namespace Ty

variable {N : String → String → Prop}

theorem parameters_unwrap (t : Ty) : t.unwrap.parameters = t.parameters := by
  induction t with
  | layer v b _ _ ih =>
    rw [TypeVar.over, unwrap, ih, parameters]
  | _ => rfl

theorem Echoes.unwrap {a b : Ty} (h : Echoes N a b) : Echoes N a.unwrap b.unwrap := by
  induction b generalizing a with
  | layer v b _ _ ih =>
    rw [TypeVar.over] at h ⊢
    cases h with
    | layer _ _ _ hb =>
      rw [Ty.unwrap, Ty.unwrap]
      exact ih hb
  | var v =>
    rw [TypeVar.toTy] at h ⊢
    cases h with
    | var hn => exact .var hn
  | _ =>
    cases h
    constructor <;> assumption

theorem forall₂_replicate {R : Ty → Ty → Prop} {a b : Ty} (n : Nat) (h : R a b) :
    List.Forall₂ R (List.replicate n a) (List.replicate n b) := by
  induction n with
  | zero => exact .nil
  | succ n ih => exact .cons h ih

theorem expandCounts_cons {t : Ty} (h : ∀ element n, t ≠ .vararg element (.value (.int n)))
    (ts : List Ty) : expandCounts (t :: ts) = t :: expandCounts ts := by
  rw [expandCounts]
  exact h

theorem forall₂_expandCounts {as bs : List Ty} (h : List.Forall₂ (Echoes N) as bs) :
    List.Forall₂ (Echoes N) (expandCounts as) (expandCounts bs) := by
  induction h with
  | nil => exact .nil
  | @cons a b as bs h hs ih =>
    by_cases hc : ∃ element n, a = .vararg element (.value (.int n))
    · obtain ⟨element, n, rfl⟩ := hc
      cases h with
      | vararg he hc =>
        cases hc
        rw [expandCounts, expandCounts]
        exact List.rel_append (forall₂_replicate n.toNat he) ih
    · have hb : ∀ element n, b ≠ .vararg element (.value (.int n)) := by
        rintro element n rfl
        cases h with
        | vararg _ hcount =>
          cases hcount
          exact hc ⟨_, n, rfl⟩
      rw [expandCounts_cons fun element n he => hc ⟨element, n, he⟩, expandCounts_cons hb]
      exact .cons h ih

theorem Echoes.exists_parameters {a b : Ty} (h : Echoes N a b) {ps : List Ty}
    (ha : a.unwrap = .tuple ps) : ∃ as bs, a.parameters = .ok as ∧ b.parameters = .ok bs ∧
      List.Forall₂ (Echoes N) as bs := by
  have hu := h.unwrap
  rw [ha] at hu
  generalize hb : b.unwrap = t at hu
  cases hu with
  | tuple hps =>
    refine ⟨_, _, ?_, ?_, forall₂_expandCounts hps⟩
    · rw [← parameters_unwrap, ha, parameters]
    · rw [← parameters_unwrap, hb, parameters]

variable {visible : List String}

theorem written_constraint {name name' : String} (hn : Echo name name')
    {lower upper lower' upper' : Ty} (hl : Echoes Echo lower lower')
    (hu : Echoes Echo upper upper') :
    Written (Node.Echoes visible) (TypeVar.constraint visible ⟨name, lower, upper⟩)
      (TypeVar.constraint visible ⟨name', lower', upper'⟩) := by
  rw [TypeVar.constraint, TypeVar.constraint, hl.isBottom_eq, hu.isAny_eq]
  exact written_declaration hn (written_boundUnless hl.written) (written_boundUnless hu.written)

theorem Echoes.written_constraints {a b : Ty} (h : Echoes Echo a b) :
    Written (List.Forall₂ (Node.Echoes visible)) (a.constraints visible)
      (b.constraints visible) := by
  induction b generalizing a with
  | layer v b _ _ ih =>
    rw [TypeVar.over] at h ⊢
    cases h with
    | layer hn hl hu hb =>
      rw [constraints, constraints]
      exact (written_constraint hn hl hu).bind fun m n hmn => (ih hb).bind fun ms ns hs =>
        .ok (.cons hmn hs)
  | var v =>
    rw [TypeVar.toTy] at h ⊢
    cases h
    exact .ok .nil
  | _ =>
    cases h
    exact .ok .nil

theorem Echoes.written_whereParameters {a b : Ty} (h : Echoes Echo a b) :
    Written (Option.Rel (List.Forall₂ (Node.Echoes visible))) (a.whereParameters visible)
      (b.whereParameters visible) := by
  cases h with
  | layer hn hl hu hb =>
    rw [whereParameters, whereParameters]
    exact (Echoes.layer hn hl hu hb).written_constraints.map fun _ _ h => .some h
  | _ => exact .ok .none

end Ty

namespace Signature

open Ty (Echo Echoes renderAll)

variable {visible : List String}

theorem rel_absentIfEmpty {ms ns : List Node} (h : List.Forall₂ (Node.Echoes visible) ms ns) :
    Option.Rel (List.Forall₂ (Node.Echoes visible)) (absentIfEmpty ms) (absentIfEmpty ns) := by
  cases h with
  | nil => exact .none
  | cons h hs => exact .some (.cons h hs)

theorem rel_constructed? {a b : Ty} (h : Echoes Echo a b) :
    Option.Rel (fun x y => x.1 = y.1 ∧ List.Forall₂ (Echoes Echo) x.2 y.2) (constructed? a)
      (constructed? b) := by
  cases h with
  | nominal h =>
    cases h with
    | nil => exact .none
    | cons h _ =>
      simp only [constructed?]
      split
      · cases h with
        | nominal h => exact .some ⟨rfl, h⟩
        | layer hn hl hu hb =>
          have hu := hb.unwrap
          simp only [Ty.unwrap]
          generalize Ty.unwrap _ = t at hu
          generalize Ty.unwrap _ = t' at hu
          cases hu with
          | nominal _ => exact .some ⟨rfl, .nil⟩
          | _ => exact .none
        | _ => exact .none
      · exact .none
  | _ => exact .none

theorem written_nameParts (name : String) {a b : Ty} (h : Echoes Echo a b) :
    Written (Parts.Echoes visible) (nameParts visible name a) (nameParts visible name b) := by
  have hmade := rel_constructed? h
  rw [nameParts, nameParts]
  generalize constructed? a = x at hmade
  generalize constructed? b = y at hmade
  cases hmade with
  | none => exact .ok ⟨rfl, rfl, rfl, .none, .none, rfl, rfl, .none, rfl⟩
  | @some x y hmade =>
    obtain ⟨made, as⟩ := x
    obtain ⟨made', bs⟩ := y
    obtain ⟨rfl, hps⟩ := hmade
    have hw : Written _ (renderAll visible as) (renderAll visible bs) :=
      Ty.written_renderAll (hps.imp fun _ _ h => h.written)
    simp only
    generalize renderAll visible as = x at hw
    generalize renderAll visible bs = y at hw
    cases hw with
    | ok hw => exact .ok ⟨rfl, rfl, rfl, rel_absentIfEmpty hw, .none, rfl, rfl, .none, rfl⟩
    | error _ => exact .error trivial

theorem written_parameter (name : String) {a b : Ty} (h : Echoes Echo a b) :
    Written (Node.Echoes visible) (parameter visible name a) (parameter visible name b) := by
  rw [parameter, parameter, h.isAny_eq]
  split
  · exact h.written.map fun _ _ h => .expr (.cons h .nil)
  · split
    · exact .ok (.refl _)
    · exact h.written.map fun _ _ h => .expr (.cons (.refl _) (.cons h .nil))

theorem written_parameters (names : List String) {as bs : List Ty}
    (h : List.Forall₂ (Echoes Echo) as bs) :
    Written (List.Forall₂ (Node.Echoes visible)) (parameters visible (names.zip as))
      (parameters visible (names.zip bs)) := by
  induction h generalizing names with
  | nil =>
    rw [List.zip_nil_right]
    exact .ok .nil
  | cons h _ ih =>
    cases names with
    | nil => exact .ok .nil
    | cons name names =>
      rw [List.zip_cons_cons, List.zip_cons_cons, parameters, parameters]
      exact (written_parameter name h).bind fun m n hmn => (ih names).bind fun ms ns hs =>
        .ok (.cons hmn hs)

theorem written_complete {a b : Ty} (h : Echoes Echo a b) (names : List String) {as bs : List Ty}
    (hs : List.Forall₂ (Echoes Echo) as bs) {p p' : Parts} (hp : Parts.Echoes visible p p') :
    Written (Parts.Echoes visible) (complete visible a (names.zip as) p)
      (complete visible b (names.zip bs) p') := by
  rw [complete, complete]
  refine (written_parameters names hs).bind fun ms ns hms => ?_
  refine h.written_whereParameters.bind fun cs cs' hcs => ?_
  exact .ok { hp with args := rel_absentIfEmpty hms, whereParams := hcs }

theorem agree_mapError {R : Parts → Parts → Prop} {x y : Except Unrenderable Parts}
    (h : Written R x y) : Agree (fun f f' : SignatureFault => f'.kind = f.kind) R
      (x.mapError .unrenderable) (y.mapError .unrenderable) := by
  cases h with
  | ok h => exact .ok h
  | error _ => exact .error rfl

/-- The fault and the parts depend on the shape of the type only. -/
theorem agree_ofCallee (m : Method) {a b callee callee' : Ty} (h : Echoes Echo a b)
    (hcallee : Echoes Echo callee callee') {as bs : List Ty}
    (hs : List.Forall₂ (Echoes Echo) as bs) :
    Agree (fun f f' => f'.kind = f.kind) (Parts.Echoes visible)
      (ofCallee visible m a callee as) (ofCallee visible m b callee' bs) := by
  have hname : Written (Parts.Echoes visible) _ _ := written_nameParts m.name hcallee
  rw [ofCallee, ofCallee, ← hs.length_eq]
  generalize nameParts visible m.name callee = x at hname
  generalize nameParts visible m.name callee' = y at hname
  cases hname with
  | error _ => exact .error rfl
  | ok hp =>
    cases parameterNames m.slotNames as.length with
    | error fault => exact .error rfl
    | ok names =>
      exact agree_mapError (written_complete h names hs (hp.withKwargs _))

theorem agree_split {a b : Ty} (h : Echoes Echo a b) {ps : List Ty} (ha : a.unwrap = .tuple ps) :
    Agree (fun f f' => f'.kind = f.kind)
      (fun x y => Echoes Echo x.1 y.1 ∧ List.Forall₂ (Echoes Echo) x.2 y.2) (split a)
      (split b) := by
  obtain ⟨as, bs, has, hbs, hs⟩ := h.exists_parameters ha
  rw [split, split, has, hbs]
  cases hs with
  | nil => exact .error rfl
  | cons h hs => exact .ok ⟨h, hs⟩

end Signature

namespace Extractor

open Ty Ty.Example

theorem settings_prepare (x : Extractor) (type : Ty) :
    (x.prepare type).2.settings = x.settings := by
  rw [prepare]
  split <;> rfl

theorem signature_eq (x : Extractor) (m : Method) :
    (x.signature m).1 = (do
      let (callee, types) ← Signature.split (x.prepare m.signatureType).1
      Signature.ofCallee x.settings.visible m (x.prepare m.signatureType).1 callee types) := by
  rw [← settings_prepare x m.signatureType, signature]
  generalize x.prepare m.signatureType = prepared
  obtain ⟨type, y⟩ := prepared
  simp only
  cases Signature.split type <;> rfl

theorem echoes_prepare {plain hygienic : Extractor} (hplain : plain.settings.hygiene = false)
    (hhygienic : hygienic.settings.hygiene = true) {type : Ty} (ht : type.Sound)
    (hnames : type.Unmarked) :
    (plain.prepare type).1 = type ∧ Echoes Echo type (hygienic.prepare type).1 := by
  rw [prepare, prepare, hplain, hhygienic]
  exact ⟨rfl, Ty.echoes_refresh ht hnames _⟩

/-- Fresh names for bound variables change a signature in nothing but names and the order of union
members. -/
theorem signature_hygiene {m : Method} {ps : List Ty} (htype : m.signatureType.unwrap = .tuple ps)
    (hexact : m.signatureType.Exact) (hcanon : m.signatureType.Canonical)
    (hnames : m.signatureType.Unmarked) {plain hygienic : Extractor}
    (hplain : plain.settings.hygiene = false) (hhygienic : hygienic.settings.hygiene = true)
    (hvisible : hygienic.settings.visible = plain.settings.visible) :
    Agree (fun f f' => f'.kind = f.kind)
      (fun p p' => Parts.Echoes plain.settings.visible p p' ∧ ∀ slot, p'.has slot = p.has slot)
      (plain.signature m).1 (hygienic.signature m).1 := by
  obtain ⟨hid, hechoes⟩ := echoes_prepare hplain hhygienic ⟨hexact, hcanon⟩ hnames
  rw [signature_eq, signature_eq, hid, hvisible]
  refine (Signature.agree_split hechoes htype).bind fun x y hxy => ?_
  refine (Signature.agree_ofCallee m hechoes hxy.1 hxy.2).mono fun p p' hp => ?_
  exact ⟨hp, hp.has_eq⟩

def pairMethod : Method where
  name := "f"
  slotNames := ["#self#", "x", "y"]
  signatureType := outer.over (inner.over (.tuple
    [.functionType "f" "Main", inner.toTy, outer.toTy]))

theorem plain_pairMethod : Everywhere IsPlain pairMethod.signatureType := by
  have hinner : Everywhere IsPlain inner.toTy := plain_toTy plain_bottom plain_outer
  refine plain_over plain_outer (plain_over hinner (everywhere_tuple.mpr
    ⟨⟨rfl, trivial, trivial⟩, ?_⟩))
  rw [List.forall_mem_cons, List.forall_mem_cons, List.forall_mem_singleton]
  exact ⟨plain_functionType "f" "Main", hinner, plain_outer⟩

theorem unmarked_pairMethod : Unmarked pairMethod.signatureType := by
  refine unmarked_of_mentions fun x hx => ?_
  simp only [pairMethod, functionType, mentions_layer, mentions_outer, mentions_inner,
    mentions_tuple, mentions_nominal, List.mem_cons, List.not_mem_nil, or_false, exists_eq_or_imp,
    exists_eq_left, false_and, exists_false, false_or] at hx
  tauto

theorem signature_hygiene_pairMethod :
    ∃ p p', (({} : Extractor).signature pairMethod).1 = .ok p ∧
      (({ settings := { hygiene := true }, next := 7 } : Extractor).signature pairMethod).1 =
        .ok p' ∧
      Parts.Echoes ["Base", "Core", "Main"] p p' := by
  have hsound := (plain_of_everywhere plain_pairMethod).1
  have h : Agree _ _ (({} : Extractor).signature pairMethod).1
      (({ settings := { hygiene := true }, next := 7 } : Extractor).signature pairMethod).1 :=
    signature_hygiene rfl hsound.exact hsound.canonical unmarked_pairMethod rfl rfl rfl
  obtain ⟨p, hp⟩ : ∃ p, (({} : Extractor).signature pairMethod).1 = .ok p := ⟨_, rfl⟩
  rw [hp] at h ⊢
  generalize (Extractor.signature _ pairMethod).1 = y at h ⊢
  cases h with
  | ok h => exact ⟨p, _, rfl, rfl, h.1⟩

end Extractor

end Anatomy
