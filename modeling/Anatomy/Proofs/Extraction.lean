import Anatomy.Proofs.Signatures

namespace Anatomy

namespace Ty

def isInvalid : Ty → Bool
  | .bareName _ => true
  | .value (.text _) => true
  | _ => false

def isVar : Ty → Bool
  | .var _ _ _ => true
  | _ => false

/-- What is no type stands in a type, at any depth. An occurrence of a variable is not entered,
other than the variable that a layer binds. -/
inductive Flawed : Ty → Prop
  | invalid {t : Ty} (ht : t.isInvalid = true) : Flawed t
  | part {t p : Ty} (ht : t.isVar = false) (hp : p ∈ t.parts) (h : Flawed p) : Flawed t

theorem flawed_iff {t : Ty} :
    Flawed t ↔ t.isInvalid = true ∨ t.isVar = false ∧ ∃ p ∈ t.parts, Flawed p := by
  constructor
  · intro h
    cases h with
    | invalid ht => exact .inl ht
    | part ht hp h => exact .inr ⟨ht, _, hp, h⟩
  · rintro (ht | ⟨ht, p, hp, h⟩)
    · exact .invalid ht
    · exact .part ht hp h

theorem not_flawed_of_parts_eq_nil {t : Ty} (ht : t.isInvalid = false) (hparts : t.parts = []) :
    ¬Flawed t := by
  rw [flawed_iff, ht, hparts]
  rintro (h | ⟨-, p, hp, -⟩)
  · cases h
  · cases hp

theorem not_flawed_toTy (v : TypeVar) : ¬Flawed v.toTy := by
  rw [flawed_iff]
  rintro (ht | ⟨ht, -⟩)
  · cases ht
  · cases ht

theorem flawed_over {v : TypeVar} {b : Ty} :
    Flawed (v.over b) ↔ Flawed v.lower ∨ Flawed v.upper ∨ Flawed b := by
  rw [flawed_iff]
  simp [TypeVar.over, isInvalid, isVar, parts, children, body?]

theorem flawed_iff_arguments {t : Ty} {n : TypeName} (h : t.callee? = some n) :
    Flawed t ↔ ∃ p ∈ t.arguments.getD [], Flawed p := by
  have hparts : t.isInvalid = false → t.isVar = false →
      (Flawed t ↔ ∃ p ∈ t.parts, Flawed p) := by
    intro hi hv
    rw [flawed_iff, hi, hv]
    simp
  cases t with
  | nominal name params =>
    rw [hparts rfl rfl, parts_nominal]
    cases params <;> rfl
  | tuple params => rw [hparts rfl rfl, parts_tuple, arguments, Option.getD_some]
  | union members => rw [hparts rfl rfl, parts_union, arguments, Option.getD_some]
  | vararg element count =>
    rw [hparts rfl rfl, parts_vararg]
    by_cases hc : count = .value .null
    · subst hc
      have hnull : ¬Flawed (.value .null) := not_flawed_of_parts_eq_nil rfl rfl
      rw [arguments]
      split
      · next hany =>
        have helement : ¬Flawed element :=
          isAny_iff.mp hany ▸ not_flawed_of_parts_eq_nil rfl rfl
        simp [hnull, helement]
      · simp [hnull]
    · rw [arguments_vararg hc, Option.getD_some]
  | _ => cases h

section Written

variable {visible : List String}

theorem exists_renderAll_iff {ts : List Ty} : (∃ nodes, renderAll visible ts = .ok nodes) ↔
    ∀ t ∈ ts, ∃ node, t.render visible = .ok node := by
  induction ts with
  | nil => simp [renderAll]
  | cons t ts ih =>
    rw [List.forall_mem_cons, ← ih]
    simp only [renderAll, bind_eq_ok, Except.ok.injEq]
    constructor
    · rintro ⟨_, node, hnode, nodes, hnodes, -⟩
      exact ⟨⟨node, hnode⟩, nodes, hnodes⟩
    · rintro ⟨⟨node, hnode⟩, nodes, hnodes⟩
      exact ⟨_, node, hnode, nodes, hnodes, rfl⟩

theorem exists_boundUnless_iff {trivial : Bool} {bound : Except Unrenderable Node}
    (h : trivial = true → ∃ node, bound = .ok node) :
    (∃ node?, boundUnless trivial bound = .ok node?) ↔ ∃ node, bound = .ok node := by
  rw [boundUnless]
  split
  · next ht => exact ⟨fun _ => h ht, fun _ => ⟨none, rfl⟩⟩
  · simp [map_eq_ok]

theorem exists_constraint_iff {v : TypeVar} :
    (∃ node, v.constraint visible = .ok node) ↔
      (∃ node, v.lower.render visible = .ok node) ∧ ∃ node, v.upper.render visible = .ok node := by
  have hbottom : v.lower.isBottom = true → ∃ node, v.lower.render visible = .ok node := by
    intro h
    rw [isBottom_iff.mp h]
    exact ⟨_, rfl⟩
  have hany : v.upper.isAny = true → ∃ node, v.upper.render visible = .ok node := by
    intro h
    rw [isAny_iff.mp h]
    exact ⟨_, rfl⟩
  rw [← exists_boundUnless_iff hbottom, ← exists_boundUnless_iff hany]
  simp only [TypeVar.constraint, declaration, bind_eq_ok, Except.ok.injEq]
  constructor
  · rintro ⟨_, lower, hl, upper, hu, -⟩
    exact ⟨⟨lower, hl⟩, upper, hu⟩
  · rintro ⟨⟨lower, hl⟩, upper, hu⟩
    exact ⟨_, lower, hl, upper, hu, rfl⟩

theorem exists_render_iff (visible : List String) {t : Ty} :
    (∃ node, t.render visible = .ok node) ↔ ¬Flawed t := by
  induction t using induct_parts with
  | h t ih =>
    cases hn : t.callee? with
    | some n =>
      rw [render_of_callee? hn, flawed_iff_arguments hn]
      cases hts : t.arguments with
      | none => simp [renderApplied]
      | some ts =>
        simp only [renderApplied, map_eq_ok, Option.getD_some, not_exists, not_and]
        have hall : (∀ p ∈ ts, ∃ node, p.render visible = .ok node) ↔ ∀ p ∈ ts, ¬Flawed p :=
          forall₂_congr fun p hp => ih p (mem_parts_of_mem_arguments hts hp)
        rw [← hall, ← exists_renderAll_iff]
        constructor
        · rintro ⟨_, nodes, hnodes, -⟩
          exact ⟨nodes, hnodes⟩
        · rintro ⟨nodes, hnodes⟩
          exact ⟨_, nodes, hnodes, rfl⟩
    | none =>
      cases t with
      | var v => exact iff_of_true ⟨_, rfl⟩ (not_flawed_toTy v)
      | layer v b =>
        rw [flawed_over, not_or, not_or, ← ih v.lower (by simp), ← ih v.upper (by simp),
          ← ih b (by simp), ← and_assoc, ← exists_constraint_iff]
        constructor
        · rintro ⟨node, h⟩
          obtain ⟨constraint, hc, h⟩ := bind_eq_ok.mp h
          obtain ⟨inner, hb, -⟩ := bind_eq_ok.mp h
          exact ⟨⟨constraint, hc⟩, inner, hb⟩
        · rintro ⟨⟨constraint, hc⟩, inner, hb⟩
          exact ⟨_, bind_eq_ok.mpr ⟨constraint, hc, bind_eq_ok.mpr ⟨inner, hb, rfl⟩⟩⟩
      | symbol name => exact iff_of_true ⟨_, rfl⟩ (not_flawed_of_parts_eq_nil rfl rfl)
      | bareName name => exact iff_of_false (by rintro ⟨_, ⟨⟩⟩) (not_not.mpr (.invalid rfl))
      | value scalar =>
        cases scalar with
        | text s => exact iff_of_false (by rintro ⟨_, ⟨⟩⟩) (not_not.mpr (.invalid rfl))
        | _ => exact iff_of_true ⟨_, rfl⟩ (not_flawed_of_parts_eq_nil rfl rfl)
      | _ => cases hn

def front : Ty → List TypeVar
  | .unionAll name lower upper body => ⟨name, lower, upper⟩ :: front body
  | _ => []

theorem exists_constraints_iff (visible : List String) {t : Ty} :
    (∃ nodes, t.constraints visible = .ok nodes) ↔
      ∀ v ∈ t.front, ¬v.lower.Flawed ∧ ¬v.upper.Flawed := by
  induction t with
  | layer v b _ _ ih =>
    rw [TypeVar.over, front, List.forall_mem_cons, ← ih, ← exists_render_iff visible,
      ← exists_render_iff visible, ← exists_constraint_iff]
    simp only [constraints, bind_eq_ok, Except.ok.injEq]
    constructor
    · rintro ⟨_, node, hnode, nodes, hnodes, -⟩
      exact ⟨⟨node, hnode⟩, nodes, hnodes⟩
    · rintro ⟨⟨node, hnode⟩, nodes, hnodes⟩
      exact ⟨_, node, hnode, nodes, hnodes, rfl⟩
  | _ => exact iff_of_true ⟨[], rfl⟩ (List.forall_mem_nil _)

theorem exists_whereParameters_iff {t : Ty} :
    (∃ nodes?, t.whereParameters visible = .ok nodes?) ↔
      ∀ v ∈ t.front, ¬v.lower.Flawed ∧ ¬v.upper.Flawed := by
  cases t with
  | layer v b =>
    rw [← exists_constraints_iff visible]
    simp [TypeVar.over, whereParameters, map_eq_ok]
  | _ => exact iff_of_true ⟨none, rfl⟩ (List.forall_mem_nil _)

end Written

/-- What stands for a parameter of a tuple: as many types as a fixed count says, none if it is not
positive, and else the parameter itself. -/
def copies : Ty → List Ty
  | .vararg element (.value (.int n)) => List.replicate n.toNat element
  | t => [t]

theorem expandCounts_eq_flatMap (ts : List Ty) : expandCounts ts = ts.flatMap copies := by
  fun_induction expandCounts ts with
  | case1 => rfl
  | case2 element n ts ih => rw [ih, List.flatMap_cons, copies]
  | case3 t ts h ih =>
    rw [ih, List.flatMap_cons, copies]
    · rfl
    · exact h

theorem parameters_of_unwrap {t : Ty} {params : List Ty} (h : t.unwrap = .tuple params) :
    t.parameters = .ok (params.flatMap copies) := by
  rw [← parameters_unwrap, h, parameters, expandCounts_eq_flatMap]

end Ty

namespace Signature

variable {visible : List String}

/-- The declaration of a parameter with a slot and a type: `::T` if the slot is not used, and else
`x`, or `x::T` if the type says something. -/
inductive Declares (visible : List String) : String → Ty → Node → Prop
  | unused {type : Ty} {node : Node} (h : type.render visible = .ok node) :
      Declares visible Method.unusedSlot type (.expr .ascription [node])
  | plain {name : String} (hname : name ≠ Method.unusedSlot) :
      Declares visible name .any (.symbol name)
  | typed {name : String} {type : Ty} {node : Node} (hname : name ≠ Method.unusedSlot)
      (htype : type ≠ .any) (h : type.render visible = .ok node) :
      Declares visible name type (.expr .ascription [.symbol name, node])

theorem parameter_eq_ok_iff {name : String} {type : Ty} {node : Node} :
    parameter visible name type = .ok node ↔ Declares visible name type node := by
  constructor
  · intro h
    unfold parameter at h
    split at h
    · next hname =>
      obtain ⟨inner, hinner, rfl⟩ := map_eq_ok.mp h
      exact hname ▸ .unused hinner
    · next hname =>
      split at h
      · next hany =>
        cases h
        exact Ty.isAny_iff.mp hany ▸ .plain hname
      · next hany =>
        obtain ⟨inner, hinner, rfl⟩ := map_eq_ok.mp h
        exact .typed hname (mt Ty.isAny_iff.mpr hany) hinner
  · intro h
    cases h with
    | unused h => rw [parameter, if_pos rfl, h, Except.map]
    | plain hname => rw [parameter, if_neg hname, if_pos (Ty.isAny_iff.mpr rfl)]
    | typed hname htype h =>
      rw [parameter, if_neg hname, if_neg (mt Ty.isAny_iff.mp htype), h, Except.map]

theorem exists_parameter_iff (visible : List String) (name : String) {type : Ty} :
    (∃ node, parameter visible name type = .ok node) ↔ ¬type.Flawed := by
  rw [← Ty.exists_render_iff visible, parameter]
  split
  · simp [map_eq_ok]
  · split
    · next hany =>
      rw [Ty.isAny_iff.mp hany]
      exact iff_of_true ⟨_, rfl⟩ ⟨_, rfl⟩
    · simp [map_eq_ok]

theorem parameters_cons_eq_ok_iff {entry : String × Ty} {named : List (String × Ty)}
    {nodes : List Node} : parameters visible (entry :: named) = .ok nodes ↔
      ∃ node rest, parameter visible entry.1 entry.2 = .ok node ∧
        parameters visible named = .ok rest ∧ nodes = node :: rest := by
  simp only [parameters, bind_eq_ok, Except.ok.injEq]
  constructor
  · rintro ⟨node, hnode, rest, hrest, rfl⟩
    exact ⟨node, rest, hnode, hrest, rfl⟩
  · rintro ⟨node, rest, hnode, hrest, rfl⟩
    exact ⟨node, hnode, rest, hrest, rfl⟩

theorem forall₂_declares {named : List (String × Ty)} {nodes : List Node}
    (h : parameters visible named = .ok nodes) :
    List.Forall₂ (fun entry node => Declares visible entry.1 entry.2 node) named nodes := by
  induction named generalizing nodes with
  | nil =>
    cases h
    exact .nil
  | cons entry named ih =>
    obtain ⟨node, rest, hnode, hrest, rfl⟩ := parameters_cons_eq_ok_iff.mp h
    exact .cons (parameter_eq_ok_iff.mp hnode) (ih hrest)

theorem exists_parameters_iff {named : List (String × Ty)} :
    (∃ nodes, parameters visible named = .ok nodes) ↔ ∀ entry ∈ named, ¬entry.2.Flawed := by
  induction named with
  | nil => exact iff_of_true ⟨[], rfl⟩ (List.forall_mem_nil _)
  | cons entry named ih =>
    rw [List.forall_mem_cons, ← ih, ← exists_parameter_iff visible entry.1]
    simp only [parameters_cons_eq_ok_iff]
    constructor
    · rintro ⟨_, node, rest, hnode, hrest, -⟩
      exact ⟨⟨node, hnode⟩, rest, hrest⟩
    · rintro ⟨⟨node, hnode⟩, rest, hrest⟩
      exact ⟨_, node, rest, hnode, hrest, rfl⟩

theorem constructed?_eq_some {callee : Ty} {made : TypeName} {params : List Ty}
    (h : constructed? callee = some (made, params)) :
    params = [] ∨ ∃ rest, callee = .nominal .type (.nominal made params :: rest) := by
  unfold constructed? at h
  split at h
  · split at h
    · next hname =>
      subst hname
      split at h
      · cases h
        exact .inr ⟨_, rfl⟩
      · cases h
        exact .inl rfl
      · cases h
    · cases h
  · cases h

theorem exists_nameParts_iff {name : String} {callee : Ty} :
    (∃ p, nameParts visible name callee = .ok p) ↔
      ∀ made params rest, callee = .nominal .type (.nominal made params :: rest) →
        ∀ p ∈ params, ¬p.Flawed := by
  have hsome : ∀ made params, constructed? callee = some (made, params) →
      ((∃ p, nameParts visible name callee = .ok p) ↔ ∀ p ∈ params, ¬p.Flawed) := by
    intro made params h
    have hall : (∃ nodes, Ty.renderAll visible params = .ok nodes) ↔ ∀ p ∈ params, ¬p.Flawed :=
      Ty.exists_renderAll_iff.trans (forall₂_congr fun p _ => Ty.exists_render_iff visible)
    rw [nameParts, h, ← hall]
    simp only
    cases Ty.renderAll visible params <;> simp
  cases h : constructed? callee with
  | none =>
    rw [nameParts, h]
    refine iff_of_true ⟨_, rfl⟩ ?_
    rintro made params rest rfl
    cases h
  | some constructed =>
    obtain ⟨made, params⟩ := constructed
    rw [hsome made params h]
    constructor
    · rintro hparams made' params' rest rfl
      cases h
      exact hparams
    · intro hcallee
      obtain rfl | ⟨rest, rfl⟩ := constructed?_eq_some h
      · exact List.forall_mem_nil _
      · exact hcallee made params rest rfl

theorem parameterNames_eq_ok_iff {slotNames names : List String} {count : Nat} :
    parameterNames slotNames count = .ok names ↔
      slotNames.head? = some Method.receiverSlot ∧ count < slotNames.length ∧
        names = slotNames.tail.take count := by
  cases slotNames with
  | nil => simp [parameterNames]
  | cons first rest =>
    rw [parameterNames, List.head?_cons, Option.some.injEq, List.length_cons, List.tail_cons]
    split
    · next hfirst =>
      split
      · next hcount => exact iff_of_false nofun fun h => by omega
      · next hcount =>
        rw [Except.ok.injEq]
        exact ⟨fun h => ⟨hfirst, by omega, h.symm⟩, fun h => h.2.2.symm⟩
    · next hfirst => exact iff_of_false nofun fun h => hfirst h.1

theorem mapError_eq_ok {α ε ε' : Type} {x : Except ε α} {f : ε → ε'} {a : α} :
    x.mapError f = .ok a ↔ x = .ok a := by
  cases x <;> simp [Except.mapError]

theorem ofCallee_eq_ok_iff {m : Method} {type callee : Ty} {types : List Ty} {p : Parts} :
    ofCallee visible m type callee types = .ok p ↔
      ∃ titled nodes clause, nameParts visible m.name callee = .ok titled ∧
        m.slotNames.head? = some Method.receiverSlot ∧ types.length < m.slotNames.length ∧
        parameters visible ((m.slotNames.tail.take types.length).zip types) = .ok nodes ∧
        type.whereParameters visible = .ok clause ∧
        p = { titled with
          kwargs := absentIfEmpty ((m.keywordNames.getD []).map keyword)
          args := absentIfEmpty nodes
          whereParams := clause } := by
  constructor
  · intro h
    unfold ofCallee at h
    split at h
    · cases h
    · next titled htitled =>
      split at h
      · cases h
      · next names hnames =>
        obtain ⟨hhead, hlength, rfl⟩ := parameterNames_eq_ok_iff.mp hnames
        obtain ⟨nodes, hnodes, h⟩ := bind_eq_ok.mp (mapError_eq_ok.mp h)
        obtain ⟨clause, hclause, ⟨⟩⟩ := bind_eq_ok.mp h
        exact ⟨titled, nodes, clause, htitled, hhead, hlength, hnodes, hclause, rfl⟩
  · rintro ⟨titled, nodes, clause, htitled, hhead, hlength, hnodes, hclause, rfl⟩
    have hnames := parameterNames_eq_ok_iff.mpr ⟨hhead, hlength, rfl⟩
    rw [ofCallee, htitled]
    simp only
    rw [hnames]
    simp only
    rw [mapError_eq_ok, complete, hnodes, hclause]
    rfl

theorem split_eq_ok_iff {type callee : Ty} {types : List Ty} :
    split type = .ok (callee, types) ↔ type.parameters = .ok (callee :: types) := by
  rw [split]
  split <;> simp_all

end Signature

namespace Extractor

open Signature

theorem signature_eq_ok_iff {x : Extractor} {m : Method} {p : Parts} :
    (x.signature m).1 = .ok p ↔
      ∃ callee types, (x.prepare m.signatureType).1.parameters = .ok (callee :: types) ∧
        ofCallee x.settings.visible m (x.prepare m.signatureType).1 callee types = .ok p := by
  rw [signature_eq, bind_eq_ok]
  constructor
  · rintro ⟨⟨callee, types⟩, hsplit, h⟩
    exact ⟨callee, types, split_eq_ok_iff.mp hsplit, h⟩
  · rintro ⟨callee, types, hparams, h⟩
    exact ⟨(callee, types), split_eq_ok_iff.mpr hparams, h⟩

theorem prepare_of_not_hygiene {x : Extractor} (hx : x.settings.hygiene = false) (type : Ty) :
    x.prepare type = (type, x) := by
  rw [prepare, hx]
  rfl

end Extractor

/-- What a method with a callee and parameters of some types needs for a signature: a receiver, a
slot for each parameter, and no flaw in what has to be written. The callee is written only as far as
it is the type of a nominal type, whose parameters stand behind the name. -/
structure Method.Extractable (m : Method) (callee : Ty) (types : List Ty) : Prop where
  receiver : m.slotNames.head? = some Method.receiverSlot
  slots : (callee :: types).length ≤ m.slotNames.length
  types : ∀ t ∈ types, ¬t.Flawed
  bounds : ∀ v ∈ m.signatureType.front, ¬v.lower.Flawed ∧ ¬v.upper.Flawed
  params : ∀ made params rest, callee = .nominal .type (.nominal made params :: rest) →
    ∀ p ∈ params, ¬p.Flawed

namespace Signature

variable {visible : List String}

theorem forall_mem_zip_take_iff {names : List String} {types : List Ty}
    (h : types.length ≤ names.length) {P : Ty → Prop} :
    (∀ entry ∈ (names.take types.length).zip types, P entry.2) ↔ ∀ t ∈ types, P t := by
  have hsnd : ((names.take types.length).zip types).map Prod.snd = types :=
    List.map_snd_zip (by simp [h])
  conv_rhs => rw [← hsnd]
  rw [List.forall_mem_map]

theorem exists_ofCallee_iff (visible : List String) {m : Method} {callee : Ty}
    {types : List Ty} :
    (∃ p, ofCallee visible m m.signatureType callee types = .ok p) ↔
      m.Extractable callee types := by
  simp only [ofCallee_eq_ok_iff]
  constructor
  · rintro ⟨p, titled, nodes, clause, htitled, hhead, hlength, hnodes, hclause, -⟩
    have hnames : types.length ≤ m.slotNames.tail.length := by
      rw [List.length_tail]
      omega
    refine ⟨hhead, hlength, ?_, Ty.exists_whereParameters_iff.mp ⟨clause, hclause⟩,
      exists_nameParts_iff.mp ⟨titled, htitled⟩⟩
    exact (forall_mem_zip_take_iff hnames).mp (exists_parameters_iff.mp ⟨nodes, hnodes⟩)
  · rintro ⟨hhead, hlength, htypes, hbounds, hparams⟩
    have hnames : types.length ≤ m.slotNames.tail.length := by
      rw [List.length_cons] at hlength
      rw [List.length_tail]
      omega
    obtain ⟨titled, htitled⟩ := exists_nameParts_iff.mpr hparams
    obtain ⟨nodes, hnodes⟩ :=
      exists_parameters_iff.mpr ((forall_mem_zip_take_iff hnames).mpr htypes)
    obtain ⟨clause, hclause⟩ := Ty.exists_whereParameters_iff.mpr hbounds
    exact ⟨_, titled, nodes, clause, htitled, hhead, hlength, hnodes, hclause, rfl⟩

theorem declares_of_lt {m : Method} {types : List Ty} {nodes : List Node}
    (hlength : types.length < m.slotNames.length)
    (h : parameters visible ((m.slotNames.tail.take types.length).zip types) = .ok nodes) :
    nodes.length = types.length ∧ ∀ i < types.length, ∃ name type node,
      m.slotNames[i + 1]? = some name ∧ types[i]? = some type ∧ nodes[i]? = some node ∧
        Declares visible name type node := by
  obtain ⟨hnodes, hdeclares⟩ := List.forall₂_iff_get.mp (forall₂_declares h)
  have hzip : ((m.slotNames.tail.take types.length).zip types).length = types.length := by
    simp only [List.length_zip, List.length_take, List.length_tail]
    omega
  refine ⟨hnodes.symm.trans hzip, fun i hi => ?_⟩
  have hslot : i + 1 < m.slotNames.length := by omega
  have hnode : i < nodes.length := by omega
  refine ⟨_, _, _, List.getElem?_eq_getElem hslot, List.getElem?_eq_getElem hi,
    List.getElem?_eq_getElem hnode, ?_⟩
  simpa using hdeclares i (by omega) hnode

end Signature

namespace Extractor

open Signature

/-- Without fresh names, a method has a signature if the parameters of its type begin with a callee
and nothing is missing that is needed for the others. There are no arguments if there is no other
parameter; else there is one for each, and it declares the slot with the type at its position. -/
theorem signature_iff_extractable {x : Extractor} (hx : x.settings.hygiene = false) (m : Method) :
    (∀ params, m.signatureType.unwrap = .tuple params →
      m.signatureType.parameters = .ok (params.flatMap Ty.copies)) ∧
    ((∃ p, (x.signature m).1 = .ok p) ↔
      ∃ callee types, m.signatureType.parameters = .ok (callee :: types) ∧
        m.Extractable callee types) ∧
    ∀ p callee types, (x.signature m).1 = .ok p →
      m.signatureType.parameters = .ok (callee :: types) →
      (types = [] → p.args = none) ∧
      (types ≠ [] → ∃ nodes, p.args = some nodes ∧ nodes.length = types.length ∧
        ∀ i < types.length, ∃ name type node,
          m.slotNames[i + 1]? = some name ∧ types[i]? = some type ∧ nodes[i]? = some node ∧
            Declares x.settings.visible name type node) := by
  have hid : (x.prepare m.signatureType).1 = m.signatureType := by rw [prepare_of_not_hygiene hx]
  refine ⟨fun params => Ty.parameters_of_unwrap, ?_, ?_⟩
  · simp only [signature_eq_ok_iff, hid, ← exists_ofCallee_iff x.settings.visible]
    constructor
    · rintro ⟨p, callee, types, hparams, h⟩
      exact ⟨callee, types, hparams, p, h⟩
    · rintro ⟨callee, types, hparams, p, h⟩
      exact ⟨p, callee, types, hparams, h⟩
  · intro p callee types hp hparams
    obtain ⟨callee', types', hparams', h⟩ := signature_eq_ok_iff.mp hp
    rw [hid, hparams] at hparams'
    cases hparams'
    obtain ⟨titled, nodes, clause, -, -, hlength, hnodes, -, rfl⟩ := ofCallee_eq_ok_iff.mp h
    obtain ⟨hcount, hdeclares⟩ := declares_of_lt hlength hnodes
    constructor
    · rintro rfl
      rw [List.length_eq_zero_iff.mp hcount]
      rfl
    · intro hne
      refine ⟨nodes, ?_, hcount, hdeclares⟩
      cases nodes with
      | nil => exact absurd (List.length_eq_zero_iff.mp hcount.symm) hne
      | cons node nodes => rfl

open Ty.Example in
/-- A method with a parameter that is repeated twice, and one that is not there at all, so that it
does not matter that it is of no type. The last slot belongs to no parameter. -/
def countedMethod : Method where
  name := "f"
  slotNames := ["#self#", "x", "#unused#", "y", "local"]
  signatureType := item.over (.tuple
    [.functionType "f" "Main", .vararg (.bareName ⟨"Int", "Core"⟩) (.value (.int (-1))),
      item.toTy, .vararg (.nominal ⟨"Int", "Core"⟩ []) (.value (.int 2))])

open Ty Ty.Example in
theorem extractable_countedMethod :
    countedMethod.Extractable (.functionType "f" "Main")
      [item.toTy, .nominal ⟨"Int", "Core"⟩ [], .nominal ⟨"Int", "Core"⟩ []] := by
  have hint : ¬Flawed (.nominal ⟨"Int", "Core"⟩ []) := not_flawed_of_parts_eq_nil rfl rfl
  refine ⟨rfl, by decide, ?_, ?_, fun _ _ _ h => nomatch (nominal.inj h).2⟩
  · rw [List.forall_mem_cons, List.forall_mem_cons, List.forall_mem_singleton]
    exact ⟨not_flawed_toTy item, hint, hint⟩
  · have hfront : countedMethod.signatureType.front = [item] := rfl
    rw [hfront, List.forall_mem_singleton]
    exact ⟨not_flawed_of_parts_eq_nil rfl rfl, not_flawed_of_parts_eq_nil rfl rfl⟩

theorem signature_iff_extractable_countedMethod :
    ({} : Extractor).settings.hygiene = false ∧
      ∃ p nodes, (({} : Extractor).signature countedMethod).1 = .ok p ∧ p.args = some nodes ∧
        nodes.length = 3 ∧ ∃ node, nodes[1]? = some node ∧
          Declares ["Base", "Core", "Main"] "#unused#" (.nominal ⟨"Int", "Core"⟩ []) node := by
  obtain ⟨-, hsucceeds, hargs⟩ :=
    signature_iff_extractable (x := {}) (m := countedMethod) rfl
  obtain ⟨p, hp⟩ := hsucceeds.mpr ⟨_, _, rfl, extractable_countedMethod⟩
  obtain ⟨nodes, hnodes, hlength, hdeclares⟩ := (hargs p _ _ hp rfl).2 nofun
  obtain ⟨_, _, node, ⟨⟩, ⟨⟩, hnode, h⟩ := hdeclares 1 (by decide)
  exact ⟨rfl, p, nodes, hp, hnodes, hlength, node, hnode, h⟩

end Extractor

end Anatomy
