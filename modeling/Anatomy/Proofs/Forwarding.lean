import Anatomy.Parts.Forward
import Anatomy.Proofs.Clause
import Anatomy.Proofs.Extraction

namespace Anatomy

namespace Text.Dotted

/-- What stands behind the last dot of a path, or the path itself if it has no dot. -/
def last (path : String) : String :=
  (components path).getLast (components_ne_nil path)

theorem last_append (home name : String) : last (home ++ "." ++ name) = last name := by
  simp only [last, components_append]
  exact List.getLast_append_of_ne_nil _ (components_ne_nil name)

end Text.Dotted

open Text

namespace Node

theorem lastMember_qualified (path : String) :
    (qualified path).lastMember = .symbol (Dotted.last path) := by
  obtain ⟨first, rest, hparts⟩ := List.exists_cons_of_ne_nil (Dotted.components_ne_nil path)
  simp only [qualified_eq hparts, Dotted.last, hparts]
  obtain rfl | ⟨init, name, rfl⟩ := rest.eq_nil_or_concat
  · rfl
  · simp [member, lastMember]

theorem unwhere_of_isName {node : Node} (h : node.isName = true) : node.unwhere = node := by
  unfold unwhere
  split
  · cases h
  · rfl

theorem uncurly_of_isName {node : Node} (h : node.isName = true) : node.uncurly = node := by
  unfold uncurly
  split
  · cases h
  · rfl

theorem unwhere_constrain (constraint node : Node) :
    (Ty.constrain constraint node).unwhere = node.unwhere := by
  unfold Ty.constrain
  split
  · rfl
  · next hnode =>
    rw [unwhere]
    unfold unwhere
    split
    · next target rest => exact absurd rfl (hnode target rest)
    · rfl

end Node

namespace TypeName

variable {visible : List String}

theorem render_of_mem {n : TypeName} (h : n.home ∈ visible) : n.render visible = .symbol n.name := by
  rw [render, if_pos (List.contains_iff_mem.mpr h)]

theorem render_of_notMem {n : TypeName} (h : n.home ∉ visible) :
    n.render visible = Node.qualified n.qualified := by
  rw [render, if_neg (mt List.contains_iff_mem.mp h)]

theorem lastMember_render_of_notMem {n : TypeName} (h : n.home ∉ visible) :
    (n.render visible).lastMember = .symbol (Dotted.last n.name) := by
  rw [render_of_notMem h, Node.lastMember_qualified, qualified, Dotted.last_append]

/-- A name is written as a whole, or with its last component behind the path of its home. -/
theorem lastMember_render (n : TypeName) (visible : List String) :
    (n.render visible).lastMember = .symbol n.name ∨
      (n.render visible).lastMember = .symbol (Dotted.last n.name) := by
  by_cases h : n.home ∈ visible
  · rw [render_of_mem h]
    exact .inl rfl
  · exact .inr (lastMember_render_of_notMem h)

theorem lastMember_render_ne {n : TypeName} (h : Dotted.last n.name ≠ "Vararg") :
    (n.render visible).lastMember ≠ .symbol "Vararg" := by
  obtain hn | hn := n.lastMember_render visible
  · rw [hn]
    intro he
    rw [Node.symbol.inj he] at h
    exact h (by decide)
  · rw [hn]
    exact mt Node.symbol.inj h

theorem lastMember_render_vararg : (vararg.render visible).lastMember = .symbol "Vararg" := by
  obtain h | h := vararg.lastMember_render visible
  · exact h
  · exact h.trans (by decide)

end TypeName

namespace Ty

variable {visible : List String}

theorem unwhere_of_callee? {t : Ty} {n : TypeName} {node : Node} (hn : t.callee? = some n)
    (h : t.render visible = .ok node) : node.unwhere.uncurly = n.render visible := by
  rw [render_of_callee? hn] at h
  cases hts : t.arguments with
  | none =>
    rw [hts] at h
    cases h
    rw [Node.unwhere_of_isName (n.isName_render visible),
      Node.uncurly_of_isName (n.isName_render visible)]
  | some ts =>
    rw [hts] at h
    obtain ⟨nodes, -, rfl⟩ := map_eq_ok.mp h
    rfl

/-- The type of a parameter that takes any number of values, below all layers. -/
def isVariadic (t : Ty) : Bool :=
  match t.unwrap with
  | .vararg _ _ => true
  | _ => false

def IsTold : Ty → Prop
  | .nominal name _ => Dotted.last name.name ≠ "Vararg"
  | .var name _ _ => name ≠ "Vararg"
  | _ => True

theorem isVararg_render {t : Ty} {node : Node} (h : t.render visible = .ok node)
    (ht : t.unwrap.IsTold) : node.isVararg = t.isVariadic := by
  induction t generalizing node with
  | nominal name params =>
    rw [Node.isVararg, unwhere_of_callee? rfl h]
    exact decide_eq_false (TypeName.lastMember_render_ne ht)
  | tuple params =>
    rw [Node.isVararg, unwhere_of_callee? rfl h]
    exact decide_eq_false (TypeName.lastMember_render_ne (by decide))
  | union members =>
    rw [Node.isVararg, unwhere_of_callee? rfl h]
    exact decide_eq_false (TypeName.lastMember_render_ne (by decide))
  | vararg element count =>
    rw [Node.isVararg, unwhere_of_callee? rfl h]
    exact decide_eq_true TypeName.lastMember_render_vararg
  | var v =>
    cases h
    exact decide_eq_false (mt Node.symbol.inj ht)
  | layer v b _ _ ih =>
    obtain ⟨constraint, -, h⟩ := bind_eq_ok.mp h
    obtain ⟨inner, hb, ⟨⟩⟩ := bind_eq_ok.mp h
    rw [Node.isVararg, Node.unwhere_constrain]
    exact ih hb ht
  | symbol name =>
    cases h
    rfl
  | bareName name => cases h
  | value scalar => cases scalar <;> cases h <;> rfl

end Ty

namespace Signature

variable {visible : List String}

def passed (name : String) (type : Ty) : Node :=
  Node.splatIf type.isVariadic (.symbol name)

theorem forward_of_declares {name : String} {type : Ty} {node : Node}
    (h : Declares visible name type node) (hname : name ≠ Method.unusedSlot)
    (ht : type.unwrap.IsTold) : node.forward = .ok (passed name type) := by
  cases h with
  | unused _ => exact absurd rfl hname
  | plain _ => rfl
  | typed _ _ h => rw [passed, ← Ty.isVararg_render h ht]; rfl

theorem exists_forward_error {name : String} {type : Ty} {node : Node}
    (h : Declares visible name type node) (hname : name = Method.unusedSlot) :
    ∃ u, node.forward = .error u := by
  cases h with
  | unused _ => exact ⟨_, rfl⟩
  | plain hn => exact absurd hname hn
  | typed hn _ _ => exact absurd hname hn

section Forward

variable {named : List (String × Ty)} {nodes : List Node}
  (h : List.Forall₂ (fun entry node => Declares visible entry.1 entry.2 node) named nodes)

include h

theorem forwardAll_of_declares (hnames : Method.unusedSlot ∉ named.map Prod.fst)
    (ht : ∀ entry ∈ named, entry.2.unwrap.IsTold) :
    Node.forwardAll nodes = .ok (named.map fun entry => passed entry.1 entry.2) := by
  induction h with
  | nil => rfl
  | @cons entry node named nodes h _ ih =>
    obtain ⟨ht, hts⟩ := List.forall_mem_cons.mp ht
    rw [List.map_cons, List.mem_cons, not_or] at hnames
    rw [Node.forwardAll, forward_of_declares h (Ne.symm hnames.1) ht, ih hnames.2 hts]
    rfl

theorem exists_forwardAll_error (hnames : Method.unusedSlot ∈ named.map Prod.fst) :
    ∃ u, Node.forwardAll nodes = .error u := by
  induction h with
  | nil => cases hnames
  | @cons entry node named nodes h _ ih =>
    rw [Node.forwardAll]
    cases hf : node.forward with
    | error u => exact ⟨u, rfl⟩
    | ok argument =>
      have hentry : Method.unusedSlot ≠ entry.1 := by
        intro he
        obtain ⟨u, hu⟩ := exists_forward_error h he.symm
        rw [hf] at hu
        cases hu
      obtain ⟨u, hu⟩ := ih ((List.mem_cons.mp hnames).resolve_left hentry)
      rw [hu]
      exact ⟨u, rfl⟩

end Forward

theorem absentIfEmpty_getD (nodes : List Node) : (absentIfEmpty nodes).getD [] = nodes := by
  cases nodes <;> rfl

/-- The parameters of a record have these names and types. They are passed on in order, unless one
of them has no name. -/
structure PassesOn (p : Parts) (names : List String) (types : List Ty) : Prop where
  length_eq : names.length = types.length
  error_iff : (∃ u, p.forward = .error u) ↔ Method.unusedSlot ∈ names
  forward_eq : Method.unusedSlot ∉ names →
    p.forward = .ok (.expr .tuple (List.zipWith passed names types))

theorem PassesOn.congr {p : Parts} {names : List String} {types types' : List Ty}
    (hp : PassesOn p names types) (h : types.map Ty.isVariadic = types'.map Ty.isVariadic) :
    PassesOn p names types' := by
  have hpassed : ∀ ts : List Ty, List.zipWith passed names ts =
      List.zipWith (fun name variadic => Node.splatIf variadic (.symbol name)) names
        (ts.map Ty.isVariadic) := by
    intro ts
    rw [List.zipWith_map_right]
    rfl
  have hlength : types.length = types'.length := by
    simpa only [List.length_map] using congrArg List.length h
  refine ⟨hp.length_eq.trans hlength, hp.error_iff, fun hnames => ?_⟩
  rw [hp.forward_eq hnames, hpassed, hpassed, h]

theorem passesOn_of_args {p : Parts} {names : List String} {types : List Ty} {nodes : List Node}
    (hargs : p.args = absentIfEmpty nodes)
    (hnodes : parameters visible (names.zip types) = .ok nodes)
    (hlength : names.length = types.length) (ht : ∀ t ∈ types, t.unwrap.IsTold) :
    PassesOn p names types := by
  have hdeclares := forall₂_declares hnodes
  have hfst : (names.zip types).map Prod.fst = names := List.map_fst_zip (by omega)
  have hok : Method.unusedSlot ∉ names →
      p.forward = .ok (.expr .tuple (List.zipWith passed names types)) := by
    intro hnames
    have hforward := forwardAll_of_declares hdeclares (hfst.symm ▸ hnames)
      fun entry he => ht _ (List.of_mem_zip he).2
    rw [Parts.forward, hargs, absentIfEmpty_getD, Node.forwardTuple, hforward,
      ← List.map_uncurry_zip_eq_zipWith]
    rfl
  refine ⟨hlength, ⟨?_, ?_⟩, hok⟩
  · rintro ⟨u, hu⟩
    by_contra hnames
    rw [hok hnames] at hu
    cases hu
  · intro hnames
    obtain ⟨u, hu⟩ := exists_forwardAll_error hdeclares (hfst.symm ▸ hnames)
    rw [Parts.forward, hargs, absentIfEmpty_getD, Node.forwardTuple, hu]
    exact ⟨u, rfl⟩

end Signature

namespace Ty

def ownName? : Ty → Option String
  | .nominal name _ => some name.name
  | .var name _ _ => some name
  | .unionAll name _ _ _ => some name
  | _ => none

/-- No nominal type and no variable in a type has a name whose last component is the word. -/
def Avoids (word : String) (t : Ty) : Prop :=
  Everywhere (fun s => ∀ name, s.ownName? = some name → Dotted.last name ≠ word) t

theorem Avoids.told {t : Ty} (h : Avoids "Vararg" t) : Everywhere IsTold t := by
  intro s hs
  have hname := h s hs
  cases s with
  | nominal name params => exact hname name.name rfl
  | var v =>
    intro (he : v.name = "Vararg")
    exact hname v.name rfl (by rw [he]; decide)
  | _ => trivial

theorem told_substitute {old new : TypeVar} (hnew : Everywhere IsTold new.toTy) {t : Ty}
    (ht : Everywhere IsTold t) : Everywhere IsTold (t.substitute old new) := by
  refine everywhere_substitute (P := IsTold) ?_ hnew ht
  intro t ht
  cases t with
  | nominal name params => exact ht.node
  | var w =>
    have hw : w.name ≠ "Vararg" := ht.node
    rw [substitute_toTy]
    split
    · exact hnew.node
    · exact hw
  | layer w b =>
    rw [substitute_over]
    split <;> trivial
  | _ => trivial

theorem Renames.isTold {t t' : Ty} {k k' : Nat} (h : Renames t k t' k') (ht : IsTold t) :
    IsTold t' := by
  revert ht
  refine h.induct (P := fun t _ t' _ => IsTold t → IsTold t') ?leaf ?nominal ?_ ?_ ?_ ?_
  case leaf =>
    intro t k _ ht
    exact ht
  case nominal =>
    intro name ps k ps' k' _ ht
    exact ht
  all_goals
    intros
    trivial

theorem Renames.told {t t' : Ty} {k k' : Nat} (h : Renames t k t' k')
    (ht : Everywhere IsTold t) : Everywhere IsTold t' := by
  refine h.everywhere (P := IsTold) (fun hr ht => hr.isTold ht.node) ?_ told_substitute ht
  intro v v' b k k₁ k₂ hname _ _ _ (he : v'.name = "Vararg")
  have hmarked := isMarked_mark v.name k
  rw [← hname, he] at hmarked
  exact absurd hmarked (by decide)

/-- Where `t` has a variadic type among its parameters, `t'` has one, unless they are unions, whose
members may change places. -/
structure Keeps (t t' : Ty) : Prop where
  variadic : t'.isVariadic = t.isVariadic
  copies : t'.copies.map isVariadic = t.copies.map isVariadic
  isUnion : t'.unwrap.isUnion = t.unwrap.isUnion
  parameters : t.unwrap.isUnion = false →
    t'.parameters.map (List.map isVariadic) = t.parameters.map (List.map isVariadic)

theorem Keeps.refl (t : Ty) : Keeps t t :=
  ⟨rfl, rfl, rfl, fun _ => rfl⟩

theorem Keeps.trans {r s t : Ty} (h : Keeps r s) (h' : Keeps s t) : Keeps r t :=
  ⟨h'.variadic.trans h.variadic, h'.copies.trans h.copies, h'.isUnion.trans h.isUnion,
    fun hu => (h'.parameters (h.isUnion.trans hu)).trans (h.parameters hu)⟩

section Keeps

variable {ts ts' : List Ty} (h : List.Forall₂ Keeps ts ts')

include h

theorem map_isVariadic : ts'.map isVariadic = ts.map isVariadic := by
  induction h with
  | nil => rfl
  | cons h _ ih => rw [List.map_cons, List.map_cons, h.variadic, ih]

theorem map_isVariadic_copies :
    (ts'.flatMap copies).map isVariadic = (ts.flatMap copies).map isVariadic := by
  induction h with
  | nil => rfl
  | cons h _ ih =>
    rw [List.flatMap_cons, List.flatMap_cons, List.map_append, List.map_append, h.copies, ih]

theorem keeps_nominal (name : TypeName) : Keeps (.nominal name ts) (.nominal name ts') :=
  ⟨rfl, rfl, rfl, fun _ => congrArg Except.ok (map_isVariadic h)⟩

theorem keeps_tuple : Keeps (.tuple ts) (.tuple ts') := by
  refine ⟨rfl, rfl, rfl, fun _ => ?_⟩
  rw [parameters, parameters, expandCounts_eq_flatMap, expandCounts_eq_flatMap]
  exact congrArg Except.ok (map_isVariadic_copies h)

end Keeps

theorem keeps_union (ms ms' : List Ty) : Keeps (.union ms) (.union ms') :=
  ⟨rfl, rfl, rfl, nofun⟩

theorem keeps_toTy (v v' : TypeVar) : Keeps v.toTy v'.toTy :=
  ⟨rfl, rfl, rfl, fun _ => rfl⟩

theorem keeps_over {b b' : Ty} (v v' : TypeVar) (h : Keeps b b') : Keeps (v.over b) (v'.over b') :=
  ⟨h.variadic, congrArg (fun x => [x]) h.variadic, h.isUnion, h.parameters⟩

theorem keeps_vararg {e e' : Ty} (c : Ty) (h : Keeps e e') :
    Keeps (.vararg e c) (.vararg e' c) := by
  refine ⟨rfl, ?_, rfl, fun _ => ?_⟩
  · cases c with
    | value scalar =>
      cases scalar with
      | int n => simp only [copies, List.map_replicate, h.variadic]
      | _ => rfl
    | _ => rfl
  · cases c with
    | value scalar =>
      cases scalar with
      | null => exact congrArg (fun x => Except.ok [x]) h.variadic
      | _ => exact congrArg (fun x => Except.ok [x, false]) h.variadic
    | _ => exact congrArg (fun x => Except.ok [x, _]) h.variadic

theorem keeps_vararg_toTy {e e' : Ty} (w w' : TypeVar) (h : Keeps e e') :
    Keeps (.vararg e w.toTy) (.vararg e' w'.toTy) :=
  ⟨rfl, rfl, rfl, fun _ => congrArg (fun x => Except.ok [x, false]) h.variadic⟩

theorem keeps_substitute (old new : TypeVar) (t : Ty) : Keeps t (t.substitute old new) := by
  induction t with
  | nominal name params ih =>
    rw [substitute_nominal]
    exact keeps_nominal (List.forall₂_map_right_iff.mpr (List.forall₂_same.mpr ih)) name
  | tuple params ih =>
    rw [substitute_tuple]
    exact keeps_tuple (List.forall₂_map_right_iff.mpr (List.forall₂_same.mpr ih))
  | union members => exact keeps_union _ _
  | var w =>
    obtain ⟨w', h⟩ := exists_substitute_toTy old new w
    rw [h]
    exact keeps_toTy w w'
  | layer w b _ _ ih =>
    rw [substitute_over]
    split
    · exact .refl _
    · exact keeps_over w _ ih
  | vararg element count ih =>
    obtain ⟨⟨w, rfl⟩, h⟩ | ⟨-, h⟩ := substitute_vararg old new element count
    · obtain ⟨w', hw⟩ := exists_substitute_toTy old new w
      rw [h, hw]
      exact keeps_vararg_toTy w w' ih
    · rw [h]
      exact keeps_vararg count ih
  | symbol name => exact .refl _
  | bareName name => exact .refl _
  | value scalar => exact .refl _

theorem RenamesAll.forall₂_keeps {ts ts' : List Ty} {k k' : Nat}
    (h : RenamesAll (fun t _ t' _ => Keeps t t') ts k ts' k') : List.Forall₂ Keeps ts ts' := by
  induction h with
  | nil => exact .nil
  | cons _ h _ ih => exact .cons h ih

theorem Renames.keeps {t t' : Ty} {k k' : Nat} (h : Renames t k t' k') : Keeps t t' := by
  refine h.induct (P := fun t _ t' _ => Keeps t t') ?leaf ?nominal ?tuple ?union ?vararg ?layer
  case leaf =>
    intro t k _
    exact .refl t
  case nominal =>
    intro name ps k ps' k' h
    exact keeps_nominal h.forall₂_keeps name
  case tuple =>
    intro ps k ps' k' h
    exact keeps_tuple h.forall₂_keeps
  case union =>
    intro ms k ms' k' _
    exact keeps_union ms _
  case vararg =>
    intro e c k e' k' _ h
    exact keeps_vararg c h
  case layer =>
    intro v v' b k k₁ k₂ b' k' _ _ _ _ _ _ hb
    exact keeps_over v v' ((keeps_substitute v v' b).trans hb)

theorem within_unwrap (t : Ty) : Within t.unwrap t := by
  induction t with
  | layer v b _ _ ih => exact .part (mem_parts_over v b) ih
  | _ => exact .refl

theorem within_of_mem_copies {s t : Ty} (h : s ∈ t.copies) : Within s t := by
  unfold copies at h
  split at h
  · rw [List.eq_of_mem_replicate h]
    exact .child List.mem_cons_self
  · rw [List.mem_singleton.mp h]
    exact .refl

theorem within_of_mem_parameters {s t : Ty} {ps : List Ty} (ht : t.parameters = .ok ps)
    (hs : s ∈ ps) : Within s t := by
  induction t with
  | nominal name params =>
    cases ht
    exact .child hs
  | tuple params =>
    rw [parameters, expandCounts_eq_flatMap] at ht
    cases ht
    obtain ⟨p, hp, hs⟩ := List.mem_flatMap.mp hs
    exact (within_of_mem_copies hs).trans (.child hp)
  | union members =>
    cases ht
    exact .child hs
  | var v =>
    cases ht
    cases hs
  | layer v b _ _ ih => exact (ih ht).trans (within_body v b)
  | vararg element count =>
    by_cases hc : count = .value .null
    · subst hc
      cases ht
      rw [List.mem_singleton.mp hs]
      exact .child List.mem_cons_self
    · rw [parameters] at ht
      · cases ht
        exact .child hs
      · exact hc
  | _ => cases ht

end Ty

namespace Ty.Example

def unbounded (name : String) : TypeVar :=
  ⟨name, .bottom, .any⟩

def rests (name : String) : Ty :=
  (unbounded name).over (.vararg (unbounded name).toTy (.value .null))

def boxed (name : String) : Ty :=
  (unbounded name).over (box (unbounded name).toTy)

def choice (rest one : String) : List Ty :=
  [.functionType "f" "Main", rests rest, boxed one]

theorem avoids_nominal {n : TypeName} {params : List Ty} (h : Dotted.last n.name ≠ "Vararg")
    (hparams : ∀ p ∈ params, Avoids "Vararg" p) : Avoids "Vararg" (.nominal n params) := by
  refine everywhere_nominal.mpr ⟨?_, hparams⟩
  rintro _ ⟨⟩
  exact h

section Avoids

variable {name : String} (h : Dotted.last name ≠ "Vararg")

include h

theorem avoids_unbounded : Avoids "Vararg" (unbounded name).toTy := by
  have hbottom : Avoids "Vararg" .bottom := everywhere_union.mpr ⟨nofun, nofun⟩
  refine everywhere_toTy.mpr ⟨?_, hbottom, avoids_nominal (by decide) nofun⟩
  rintro _ ⟨⟩
  exact h

theorem avoids_unbounded_over {b : Ty} (hb : Avoids "Vararg" b) :
    Avoids "Vararg" ((unbounded name).over b) := by
  obtain ⟨-, hl, hu⟩ := everywhere_toTy.mp (avoids_unbounded h)
  refine everywhere_over.mpr ⟨?_, hl, hu, hb⟩
  rintro _ ⟨⟩
  exact h

theorem avoids_rests : Avoids "Vararg" (rests name) := by
  have hnull : Avoids "Vararg" (.value .null) := everywhere_of_parts_eq_nil rfl nofun
  exact avoids_unbounded_over h (everywhere_vararg.mpr ⟨nofun, avoids_unbounded h, hnull⟩)

theorem avoids_boxed : Avoids "Vararg" (boxed name) :=
  avoids_unbounded_over h
    (avoids_nominal (by decide) (List.forall_mem_singleton.mpr (avoids_unbounded h)))

end Avoids

theorem plain_unbounded (name : String) : Everywhere IsPlain (unbounded name).toTy :=
  plain_toTy plain_bottom plain_any

theorem plain_choice (rest one : String) : ∀ t ∈ choice rest one, Everywhere IsPlain t := by
  have hrest : Everywhere IsPlain (.vararg (unbounded rest).toTy (.value .null)) :=
    everywhere_vararg.mpr ⟨⟨rfl, trivial, trivial⟩, plain_unbounded rest,
      everywhere_of_parts_eq_nil rfl ⟨rfl, trivial, trivial⟩⟩
  rw [choice, List.forall_mem_cons, List.forall_mem_cons, List.forall_mem_singleton]
  exact ⟨plain_functionType "f" "Main", plain_over (plain_unbounded rest) hrest,
    plain_over (plain_unbounded one) (plain_box (plain_unbounded one))⟩

theorem canonicalMembers_choice {rest one : String} {ts : List Ty}
    (hperm : (choice rest one).Perm ts) (hsorted : ts.Pairwise (precedes · ·)) :
    canonicalMembers (choice rest one) = ts := by
  have hexact : ∀ t ∈ choice rest one, Exact t :=
    fun t ht => (plain_of_everywhere (plain_choice rest one t ht)).1.exact
  have hflat : ∀ t ∈ choice rest one, t.isUnion = false := by
    simp [choice, functionType, rests, boxed, TypeVar.over, isUnion]
  have hnodup : (choice rest one).Nodup := by
    simp [choice, functionType, rests, boxed, TypeVar.over, box]
  exact canonicalMembers_eq_of_perm hflat hexact hnodup hperm hsorted

theorem sorted_callee {v w : TypeVar} {a b : Ty} (h : precedes (v.over a) (w.over b) = true) :
    [.functionType "f" "Main", v.over a, w.over b].Pairwise (precedes · ·) := by
  have hlabel : "DataType" < "UnionAll" := by decide
  have hcallee : ∀ (v : TypeVar) (b : Ty), precedes (.functionType "f" "Main") (v.over b) = true :=
    fun v b => precedes_iff.mpr (.inl hlabel)
  rw [List.pairwise_cons, List.forall_mem_cons, List.forall_mem_singleton, List.pairwise_pair]
  exact ⟨⟨hcallee v a, hcallee w b⟩, h⟩

theorem substitute_unbounded (name new : String) :
    (unbounded name).toTy.substitute (unbounded name) (unbounded new) = (unbounded new).toTy :=
  substitute_toTy_self (plain_of_everywhere (plain_unbounded name)).1.exact

theorem refresh_unbounded (name : String) (s : Supply) :
    (unbounded name).toTy.refresh s = ((unbounded name).toTy, s) := by
  simp only [TypeVar.toTy, refresh]

theorem refresh_unbounded_over {name : String} {b b' : Ty} {s s' : Supply}
    (h : (b.substitute (unbounded name) (unbounded (mark name s.next))).refresh
      ((s.fresh name).2.record name (mark name s.next)) = (b', s')) :
    ((unbounded name).over b).refresh s = ((unbounded (mark name s.next)).over b', s') := by
  have hbottom : ∀ s : Supply, refresh .bottom s = (.bottom, s) := by
    intro s
    simp [bottom, refresh, refreshAll, unionOf]
  have hany : ∀ s : Supply, refresh .any s = (.any, s) := by
    intro s
    simp [any, refresh, refreshAll]
  simp only [unbounded, mark, Supply.fresh] at h
  simp only [unbounded, mark, TypeVar.over, refresh, hbottom, hany, Supply.fresh, h]

theorem refresh_rests (name : String) (s : Supply) :
    (rests name).refresh s =
      (rests (mark name s.next), (s.fresh name).2.record name (mark name s.next)) := by
  refine refresh_unbounded_over ?_
  rw [substitute_vararg_of_ne _ (by rintro _ ⟨⟩), substitute_unbounded, refresh, refresh_unbounded]

theorem refresh_boxed (name : String) (s : Supply) :
    (boxed name).refresh s =
      (boxed (mark name s.next), (s.fresh name).2.record name (mark name s.next)) := by
  refine refresh_unbounded_over ?_
  simp only [box, substitute_nominal, List.map_singleton, substitute_unbounded, refresh,
    refreshAll, refresh_unbounded]

theorem refresh_choice (rest one : String) :
    ((Ty.union (choice rest one)).refresh {}).1 = unionOf (choice (mark rest 1) (mark one 2)) := by
  simp only [choice, functionType, refresh, refreshAll, refresh_rests, refresh_boxed]
  rfl

end Ty.Example

namespace Extractor

open Signature Ty Ty.Example

theorem prepare_cases (x : Extractor) (type : Ty) :
    (x.prepare type).1 = type ∨ ∃ k', Renames type x.next (x.prepare type).1 k' := by
  rw [prepare]
  split
  · exact .inr ⟨_, renames_refresh type { next := x.next }⟩
  · exact .inl rfl

theorem told_prepare (x : Extractor) {type : Ty} (h : Avoids "Vararg" type) :
    Everywhere IsTold (x.prepare type).1 := by
  obtain he | ⟨k', hr⟩ := x.prepare_cases type
  · rw [he]
    exact h.told
  · exact hr.told h.told

/-- The own parameters of a method are variadic where those of the prepared type are. A union has
its members in the order of their names, which may change with the names. -/
theorem map_isVariadic_parameterTypes {x : Extractor} {m : Method} {callee : Ty} {types : List Ty}
    (hparams : (x.prepare m.signatureType).1.parameters = .ok (callee :: types))
    (h : x.settings.hygiene = false ∨ m.signatureType.unwrap.isUnion = false) :
    ∃ own, m.parameterTypes = .ok own ∧ own.map isVariadic = types.map isVariadic := by
  have hkeeps : (x.prepare m.signatureType).1.parameters.map (List.map isVariadic) =
      m.signatureType.parameters.map (List.map isVariadic) := by
    obtain hx | hu := h
    · rw [prepare_of_not_hygiene hx]
    · obtain he | ⟨k', hr⟩ := x.prepare_cases m.signatureType
      · rw [he]
      · exact hr.keeps.parameters hu
  rw [hparams] at hkeeps
  obtain ⟨ps, hps, hmap⟩ := map_eq_ok.mp hkeeps.symm
  refine ⟨ps.tail, by rw [Method.parameterTypes, hps]; rfl, ?_⟩
  rw [List.map_tail, hmap, List.map_cons, List.tail_cons]

theorem passesOn_prepared {x : Extractor} {m : Method} {p : Parts}
    (h : (x.signature m).1 = .ok p) (hnames : m.signatureType.Avoids "Vararg") :
    ∃ callee types, (x.prepare m.signatureType).1.parameters = .ok (callee :: types) ∧
      PassesOn p (m.slotNames.tail.take types.length) types := by
  obtain ⟨callee, types, hparams, h⟩ := signature_eq_ok_iff.mp h
  obtain ⟨titled, nodes, clause, -, -, hlength, hnodes, -, rfl⟩ := ofCallee_eq_ok_iff.mp h
  have hslots : (m.slotNames.tail.take types.length).length = types.length := by
    rw [List.length_take, List.length_tail]
    omega
  have htold : ∀ t ∈ types, t.unwrap.IsTold := by
    intro t ht
    have hin := within_of_mem_parameters hparams (List.mem_cons_of_mem callee ht)
    exact x.told_prepare hnames _ ((within_unwrap t).trans hin)
  exact ⟨callee, types, hparams, passesOn_of_args rfl hnodes hslots htold⟩

/-- The parameters that a signature declares can be passed on unless one of them has no name. Each
is passed on by the name of its slot, which is splatted if its type is variadic. The types are the
parameters of the method, unless a union is given fresh names and sorted again by them. -/
theorem forward_signature {x : Extractor} {m : Method} {p : Parts}
    (h : (x.signature m).1 = .ok p) (hnames : m.signatureType.Avoids "Vararg") :
    (∃ types, Method.parameterTypes { m with signatureType := (x.prepare m.signatureType).1 } =
        .ok types ∧ PassesOn p (m.slotNames.tail.take types.length) types) ∧
      (x.settings.hygiene = false ∨ m.signatureType.unwrap.isUnion = false →
        ∃ types, m.parameterTypes = .ok types ∧
          PassesOn p (m.slotNames.tail.take types.length) types) := by
  obtain ⟨callee, types, hparams, hp⟩ := passesOn_prepared h hnames
  refine ⟨⟨types, ?_, hp⟩, fun hunion => ?_⟩
  · rw [Method.parameterTypes, hparams]
    rfl
  · obtain ⟨own, hown, hmap⟩ := map_isVariadic_parameterTypes hparams hunion
    have hlength : own.length = types.length := by
      simpa only [List.length_map] using congrArg List.length hmap
    exact ⟨own, hown, hlength ▸ hp.congr hmap.symm⟩

def restMethod : Method where
  name := "f"
  slotNames := ["#self#", "x", "rest", "local"]
  signatureType := .tuple [.functionType "f" "Main", .any, rests "T"]

theorem avoids_restMethod : restMethod.signatureType.Avoids "Vararg" := by
  refine everywhere_tuple.mpr ⟨nofun, ?_⟩
  rw [List.forall_mem_cons, List.forall_mem_cons, List.forall_mem_singleton]
  exact ⟨avoids_nominal (by decide) nofun, avoids_nominal (by decide) nofun,
    avoids_rests (by decide)⟩

theorem forward_signature_restMethod :
    ∃ p, (({ settings := { visible := [] } } : Extractor).signature restMethod).1 = .ok p ∧
      restMethod.signatureType.Avoids "Vararg" ∧
      p.forward = .ok (.expr .tuple [.symbol "x", .expr .splat [.symbol "rest"]]) := by
  obtain ⟨p, hp⟩ : ∃ p,
      (({ settings := { visible := [] } } : Extractor).signature restMethod).1 = .ok p := ⟨_, rfl⟩
  obtain ⟨types, ⟨⟩, hpasses⟩ := (forward_signature hp avoids_restMethod).2 (.inl rfl)
  exact ⟨p, hp, avoids_restMethod, hpasses.forward_eq (by decide)⟩

def choiceMethod : Method where
  name := "f"
  slotNames := ["#self#", "a", "b"]
  signatureType := .union (choice "T$" "T")

def hygienic : Extractor where
  settings := { hygiene := true }

def resorted : List Ty :=
  [boxed (mark "T" 2), rests (mark "T$" 1)]

theorem prepare_choiceMethod :
    (hygienic.prepare choiceMethod.signatureType).1 =
      .union (.functionType "f" "Main" :: resorted) := by
  have hperm : (choice (mark "T$" 1) (mark "T" 2)).Perm (.functionType "f" "Main" :: resorted) :=
    .cons _ (.swap _ _ _)
  have hsorted : (.functionType "f" "Main" :: resorted).Pairwise (precedes · ·) :=
    sorted_callee (precedes_over ['\x27', '#', '#', 'T'] rfl rfl (by decide))
  calc (hygienic.prepare choiceMethod.signatureType).1
      = ((Ty.union (choice "T$" "T")).refresh {}).1 := rfl
    _ = unionOf (choice (mark "T$" 1) (mark "T" 2)) := refresh_choice "T$" "T"
    _ = .union (.functionType "f" "Main" :: resorted) :=
      congrArg Ty.union (canonicalMembers_choice hperm hsorted)

theorem canonical_choiceMethod : choiceMethod.signatureType.Canonical := by
  have hsorted : (choice "T$" "T").Pairwise (precedes · ·) :=
    sorted_callee (precedes_over ['\x27', 'T'] rfl rfl (by decide))
  refine everywhere_union.mpr ⟨canonicalMembers_choice (.refl _) hsorted, fun t ht => ?_⟩
  exact (plain_of_everywhere (plain_choice _ _ t ht)).1.canonical

theorem avoids_choiceMethod : choiceMethod.signatureType.Avoids "Vararg" := by
  refine everywhere_union.mpr ⟨nofun, ?_⟩
  rw [choice, List.forall_mem_cons, List.forall_mem_cons, List.forall_mem_singleton]
  exact ⟨avoids_nominal (by decide) nofun, avoids_rests (by decide), avoids_boxed (by decide)⟩

theorem exists_signature_choiceMethod : ∃ p, (hygienic.signature choiceMethod).1 = .ok p := by
  obtain ⟨p, h⟩ : ∃ p, ofCallee hygienic.settings.visible choiceMethod
      (.union (.functionType "f" "Main" :: resorted)) (.functionType "f" "Main") resorted =
        .ok p := ⟨_, rfl⟩
  refine ⟨p, signature_eq_ok_iff.mpr ⟨.functionType "f" "Main", resorted, ?_⟩⟩
  rw [prepare_choiceMethod]
  exact ⟨rfl, h⟩

/-- The type of the box comes last before it is given a fresh name and first afterwards, so the
wrong parameter is splatted. -/
theorem exists_forward_resorted : ∃ p types, (hygienic.signature choiceMethod).1 = .ok p ∧
    choiceMethod.signatureType.Canonical ∧ choiceMethod.signatureType.Avoids "Vararg" ∧
    choiceMethod.parameterTypes = .ok types ∧
    p.forward = .ok (.expr .tuple [.symbol "a", .expr .splat [.symbol "b"]]) ∧
    ¬PassesOn p (choiceMethod.slotNames.tail.take types.length) types := by
  obtain ⟨p, hp⟩ := exists_signature_choiceMethod
  obtain ⟨callee, types, hparams, hpasses⟩ := passesOn_prepared hp avoids_choiceMethod
  rw [prepare_choiceMethod] at hparams
  obtain ⟨⟩ := hparams
  have hforward : p.forward = .ok (.expr .tuple [.symbol "a", .expr .splat [.symbol "b"]]) :=
    hpasses.forward_eq (by decide)
  refine ⟨p, [rests "T$", boxed "T"], hp, canonical_choiceMethod, avoids_choiceMethod, rfl,
    hforward, fun hown => ?_⟩
  have hother : p.forward = .ok (.expr .tuple [.expr .splat [.symbol "a"], .symbol "b"]) :=
    hown.forward_eq (by decide)
  rw [hforward] at hother
  cases hother

end Extractor

namespace Node

inductive VarargName : Node → Prop
  | symbol : VarargName (.symbol "Vararg")
  | member (base : Node) : VarargName (.expr .dot [base, .quoted (.symbol "Vararg")])

inductive VarargForm : Node → Prop
  | plain {name : Node} (h : VarargName name) : VarargForm name
  | applied {name : Node} (h : VarargName name) (params : List Node) :
      VarargForm (.expr .curly (name :: params))

theorem VarargForm.unwhere {core : Node} (h : VarargForm core) :
    core.unwhere = core ∧ core.uncurly.lastMember = .symbol "Vararg" := by
  cases h with
  | plain h => cases h <;> exact ⟨rfl, rfl⟩
  | applied h params => cases h <;> exact ⟨rfl, rfl⟩

theorem VarargForm.isVararg_layered {core : Node} (h : VarargForm core)
    (layers : List (List Node)) :
    (layered layers core).isVararg = decide (layers.length ≤ 1) := by
  obtain ⟨hwhere, hlast⟩ := h.unwhere
  match layers with
  | [] =>
    rw [layered, isVararg, hwhere]
    exact decide_eq_true hlast
  | [constraints] => exact decide_eq_true hlast
  | outer :: inner :: rest =>
    rw [layered, layered, isVararg]
    exact decide_eq_false (by rintro ⟨⟩)

/-- A parameter whose type is written as a variadic one below at most one where clause is passed on
splatted, and below more clauses it is passed on as a single value. -/
theorem forwardTuple_vararg {core : Node} (h : VarargForm core) (layers : List (List Node))
    (name : String) :
    (layers.length ≤ 1 →
      forwardTuple [.expr .ascription [.symbol name, layered layers core]] =
        .ok (.expr .tuple [.expr .splat [.symbol name]])) ∧
    (1 < layers.length →
      forwardTuple [.expr .ascription [.symbol name, layered layers core]] =
        .ok (.expr .tuple [.symbol name])) := by
  have hforward : forwardTuple [.expr .ascription [.symbol name, layered layers core]] =
      .ok (.expr .tuple [splatIf (layered layers core).isVararg (.symbol name)]) := rfl
  rw [hforward, h.isVararg_layered]
  constructor
  · intro hl
    rw [decide_eq_true hl]
    rfl
  · intro hl
    rw [decide_eq_false (by omega)]
    rfl

theorem forwardTuple_vararg_clause :
    forwardTuple [.expr .ascription [.symbol "x", layered [[.symbol "N"]]
        (.expr .curly [member (.symbol "Core") "Vararg", .symbol "T", .symbol "N"])]] =
      .ok (.expr .tuple [.expr .splat [.symbol "x"]]) :=
  (forwardTuple_vararg (.applied (.member _) _) [[.symbol "N"]] "x").1 (by decide)

/-- The type `(Vararg{T, N} where N) where T` is taken for one of a single value. -/
theorem exists_vararg_not_splatted : ∃ (core : Node) (layers : List (List Node)) (name : String),
    VarargForm core ∧
      forwardTuple [.expr .ascription [.symbol name, layered layers core]] =
        .ok (.expr .tuple [.symbol name]) ∧
      forwardTuple [.expr .ascription [.symbol name, layered layers core]] ≠
        .ok (.expr .tuple [.expr .splat [.symbol name]]) := by
  refine ⟨.expr .curly [.symbol "Vararg", .symbol "T", .symbol "N"],
    [[.symbol "T"], [.symbol "N"]], "x", .applied .symbol _, rfl, ?_⟩
  intro h
  cases h

end Node

end Anatomy
