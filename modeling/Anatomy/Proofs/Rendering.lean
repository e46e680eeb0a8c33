import Mathlib.Data.Set.Function
import Anatomy.Ty.Render
import Anatomy.Proofs.Display

namespace Anatomy

section Outcome

variable {ε α β : Type} {x : Except ε α} {b : β}

theorem bind_eq_ok {f : α → Except ε β} :
    x >>= f = .ok b ↔ ∃ a, x = .ok a ∧ f a = .ok b := by
  cases x with
  | error e => simp [bind, Except.bind]
  | ok a => simp [bind, Except.bind]

theorem map_eq_ok {f : α → β} : x.map f = .ok b ↔ ∃ a, x = .ok a ∧ f a = b := by
  cases x with
  | error e => simp [Except.map]
  | ok a => simp [Except.map]

end Outcome

namespace Node

mutual

def shown : Node → Node
  | .symbol name => .symbol name
  | .literal value => .literal value.shown
  | .quoted value => .quoted (shown value)
  | .marker line file => .marker line file
  | .expr head children => .expr head (shownAll children)
  | .foreign tag children => .foreign tag (shownAll children)

def shownAll : List Node → List Node
  | [] => []
  | node :: nodes => shown node :: shownAll nodes

end

theorem shown_of_isName {node : Node} (h : node.isName = true) : node.shown = node := by
  induction node using isName.induct with
  | case1 name => rfl
  | case2 base name ih =>
    rw [isName] at h
    rw [shown, shownAll, ih h]
    rfl
  | case3 node hsymbol hmember =>
    rw [isName] at h
    · cases h
    · exact hsymbol
    · exact hmember

theorem shown_constrain (constraint node : Node) :
    (Ty.constrain constraint node).shown = Ty.constrain constraint.shown node.shown := by
  cases node with
  | expr head children => cases head <;> cases children <;> rfl
  | _ => rfl

end Node

def TypeVar.shown (v : TypeVar) : TypeVar :=
  ⟨v.name, v.lower.shown, v.upper.shown⟩

namespace Ty

theorem isAny_iff {t : Ty} : t.isAny = true ↔ t = .any := by
  constructor
  · intro h
    unfold isAny at h
    split at h
    · rw [of_decide_eq_true h, any]
    · cases h
  · rintro rfl
    rfl

theorem isBottom_iff {t : Ty} : t.isBottom = true ↔ t = .bottom := by
  constructor
  · intro h
    unfold isBottom at h
    split at h
    · rfl
    · cases h
  · rintro rfl
    rfl

theorem boundUnless_eq_ok {trivial : Bool} {bound : Except Unrenderable Node}
    {node? : Option Node} (h : boundUnless trivial bound = .ok node?) :
    trivial = true ∧ node? = none ∨ ∃ node, bound = .ok node ∧ node? = some node := by
  rw [boundUnless] at h
  split at h
  · next ht =>
    cases h
    exact .inl ⟨ht, rfl⟩
  · obtain ⟨node, hnode, rfl⟩ := map_eq_ok.mp h
    exact .inr ⟨node, hnode, rfl⟩

/-- The names that are written for types without a name of their own. -/
def reserved : Set TypeName :=
  {.tuple, .union, .vararg}

/-- The name that is written for a type, or in front of its parameters. -/
def callee? : Ty → Option TypeName
  | .nominal name _ => some name
  | .tuple _ => some .tuple
  | .union _ => some .union
  | .vararg _ _ => some .vararg
  | _ => none

/-- What is written in braces behind the name of a type, if there are braces. -/
def arguments : Ty → Option (List Ty)
  | .nominal _ (param :: params) => some (param :: params)
  | .tuple params => some params
  | .union members => some members
  | .vararg element (.value .null) => if element.isAny then none else some [element]
  | .vararg element count => some [element, count]
  | _ => none

theorem arguments_vararg {element count : Ty} (h : count ≠ .value .null) :
    (Ty.vararg element count).arguments = some [element, count] := by
  rw [arguments]
  exact h

def renderApplied (visible : List String) (n : TypeName) :
    Option (List Ty) → Except Unrenderable Node
  | none => .ok (n.render visible)
  | some ts => (renderAll visible ts).map fun nodes => .expr .curly (n.render visible :: nodes)

theorem render_of_callee? {visible : List String} {t : Ty} {n : TypeName}
    (h : t.callee? = some n) : t.render visible = renderApplied visible n t.arguments := by
  cases t with
  | nominal name params =>
    cases h
    cases params with
    | nil => rfl
    | cons p ps =>
      simp only [render, arguments, renderApplied, renderAll]
      cases p.render visible <;> cases renderAll visible ps <;> rfl
  | tuple params =>
    cases h
    simp only [render, arguments, renderApplied]
    cases renderAll visible params <;> rfl
  | union members =>
    cases h
    simp only [render, arguments, renderApplied]
    cases renderAll visible members <;> rfl
  | vararg element count =>
    cases h
    by_cases hc : count = .value .null
    · subst hc
      rw [render, arguments]
      split
      · rfl
      · simp only [renderApplied, renderAll]
        cases element.render visible <;> rfl
    · rw [arguments_vararg hc, render]
      · simp only [renderApplied, renderAll]
        cases element.render visible <;> cases count.render visible <;> rfl
      · exact hc
  | _ => cases h

theorem mem_parts_of_mem_arguments {t p : Ty} {ts : List Ty} (h : t.arguments = some ts)
    (hp : p ∈ ts) : p ∈ t.parts := by
  unfold arguments at h
  split at h
  · cases h
    exact mem_parts_of_mem_children hp
  · cases h
    exact mem_parts_of_mem_children hp
  · cases h
    exact mem_parts_of_mem_children hp
  · split at h
    · cases h
    · cases h
      obtain rfl := List.mem_singleton.mp hp
      exact mem_parts_of_mem_children List.mem_cons_self
  · cases h
    exact mem_parts_of_mem_children hp
  · cases h

def names (t : Ty) : Set TypeName :=
  {n | ∃ params, Within (.nominal n params) t}

def vars (t : Ty) : Set TypeVar :=
  {v | Mentions v t}

theorem mem_of_callee? {t : Ty} {n : TypeName} {ns : Set TypeName} (h : t.callee? = some n)
    (hns : t.names ⊆ ns) : n ∈ ns ∪ reserved := by
  cases t with
  | nominal name params =>
    cases h
    exact .inl (hns ⟨params, .refl⟩)
  | tuple params =>
    cases h
    exact .inr (by simp [reserved])
  | union members =>
    cases h
    exact .inr (by simp [reserved])
  | vararg element count =>
    cases h
    exact .inr (by simp [reserved])
  | _ => cases h

section Shown

variable {visible : List String}

theorem isAny_shown (t : Ty) : t.shown.isAny = t.isAny := by
  cases t with
  | nominal name params => cases params <;> rfl
  | _ => rfl

theorem isBottom_shown (t : Ty) : t.shown.isBottom = t.isBottom := by
  cases t with
  | union members => cases members <;> rfl
  | _ => rfl

theorem callee?_shown (t : Ty) : t.shown.callee? = t.callee? := by
  cases t <;> rfl

theorem parts_shown (t : Ty) : t.shown.parts = t.parts.map shown := by
  cases t with
  | nominal name params => rw [shown, parts_nominal, parts_nominal, shownAll_eq_map]
  | tuple params => rw [shown, parts_tuple, parts_tuple, shownAll_eq_map]
  | union members => rw [shown, parts_union, parts_union, shownAll_eq_map]
  | _ => rfl

theorem typeVar?_shown (t : Ty) : t.shown.typeVar? = t.typeVar?.map TypeVar.shown := by
  cases t <;> rfl

theorem exists_of_within_shown {s t : Ty} (h : Within s t.shown) :
    ∃ r, Within r t ∧ r.shown = s := by
  generalize ht : t.shown = t' at h
  induction h generalizing t with
  | refl => exact ⟨t, .refl, ht⟩
  | part hp _ ih =>
    rw [← ht, parts_shown] at hp
    obtain ⟨p, hp, hshown⟩ := List.mem_map.mp hp
    obtain ⟨r, hr, hs⟩ := ih hshown
    exact ⟨r, .part hp hr, hs⟩

theorem names_shown_subset (t : Ty) : t.shown.names ⊆ t.names := by
  rintro n ⟨params, hn⟩
  obtain ⟨r, hr, hs⟩ := exists_of_within_shown hn
  cases r with
  | nominal name params' =>
    obtain ⟨rfl, -⟩ := nominal.inj hs
    exact ⟨params', hr⟩
  | _ => cases hs

theorem vars_shown_subset (t : Ty) : t.shown.vars ⊆ TypeVar.shown '' t.vars := by
  rintro v ⟨s, hs, hv⟩
  obtain ⟨r, hr, rfl⟩ := exists_of_within_shown hs
  rw [typeVar?_shown, Option.map_eq_some_iff] at hv
  obtain ⟨w, hw, rfl⟩ := hv
  exact ⟨w, ⟨r, hr, hw⟩, rfl⟩

theorem arguments_shown (t : Ty) : t.shown.arguments = t.arguments.map shownAll := by
  cases t with
  | nominal name params => cases params <;> rfl
  | vararg element count =>
    by_cases hc : count = .value .null
    · subst hc
      have hnull : (Ty.vararg element (.value .null)).shown =
          .vararg element.shown (.value .null) := rfl
      rw [hnull, arguments, arguments, isAny_shown]
      split <;> rfl
    · have hc' : count.shown ≠ .value .null := by
        intro he
        cases count with
        | value scalar =>
          cases scalar with
          | null => exact hc rfl
          | _ => cases he
        | _ => cases he
      rw [shown, arguments_vararg hc, arguments_vararg hc']
      rfl
  | _ => rfl

theorem renderAll_shown {ts : List Ty} {nodes : List Node}
    (hts : ∀ t ∈ ts, ∀ node, t.render visible = .ok node →
      t.shown.render visible = .ok node.shown)
    (h : renderAll visible ts = .ok nodes) :
    renderAll visible (shownAll ts) = .ok (Node.shownAll nodes) := by
  induction ts generalizing nodes with
  | nil =>
    cases h
    rfl
  | cons t ts ih =>
    obtain ⟨ht, hts⟩ := List.forall_mem_cons.mp hts
    obtain ⟨node, hnode, h⟩ := bind_eq_ok.mp h
    obtain ⟨nodes, hnodes, ⟨⟩⟩ := bind_eq_ok.mp h
    rw [shownAll, renderAll, ht node hnode, ih hts hnodes]
    rfl

theorem boundUnless_shown {trivial : Bool} {bound bound' : Except Unrenderable Node}
    {node? : Option Node} (hbound : ∀ node, bound = .ok node → bound' = .ok node.shown)
    (h : boundUnless trivial bound = .ok node?) :
    boundUnless trivial bound' = .ok (node?.map Node.shown) := by
  cases trivial with
  | true =>
    cases h
    rfl
  | false =>
    obtain ⟨node, hnode, rfl⟩ := map_eq_ok.mp h
    rw [hbound node hnode]
    rfl

theorem constraint_shown {v : TypeVar} {node : Node}
    (hl : ∀ node, v.lower.render visible = .ok node →
      v.lower.shown.render visible = .ok node.shown)
    (hu : ∀ node, v.upper.render visible = .ok node →
      v.upper.shown.render visible = .ok node.shown)
    (h : v.constraint visible = .ok node) : v.shown.constraint visible = .ok node.shown := by
  obtain ⟨lower, hlower, h⟩ := bind_eq_ok.mp h
  obtain ⟨upper, hupper, ⟨⟩⟩ := bind_eq_ok.mp h
  rw [TypeVar.constraint, TypeVar.shown, isBottom_shown, isAny_shown, declaration,
    boundUnless_shown hl hlower, boundUnless_shown hu hupper]
  cases lower <;> cases upper <;> rfl

theorem render_shown {t : Ty} {node : Node} (h : t.render visible = .ok node) :
    t.shown.render visible = .ok node.shown := by
  induction t using induct_parts generalizing node with
  | h t ih =>
    have hpart : ∀ p ∈ t.parts, ∀ node, p.render visible = .ok node →
        p.shown.render visible = .ok node.shown := fun p hp node => ih p hp
    cases hn : t.callee? with
    | some n =>
      rw [render_of_callee? hn] at h
      rw [render_of_callee? (t.callee?_shown.trans hn), arguments_shown]
      cases hts : t.arguments with
      | none =>
        rw [hts] at h
        cases h
        rw [Node.shown_of_isName (n.isName_render visible)]
        rfl
      | some ts =>
        rw [hts] at h
        obtain ⟨nodes, hnodes, rfl⟩ := map_eq_ok.mp h
        have hall := renderAll_shown
          (fun p hp => hpart p (mem_parts_of_mem_arguments hts hp)) hnodes
        rw [Option.map_some, renderApplied, hall, Node.shown, Node.shownAll,
          Node.shown_of_isName (n.isName_render visible)]
        rfl
    | none =>
      cases t with
      | var v =>
        cases h
        rfl
      | layer v body =>
        obtain ⟨constraint, hc, h⟩ := bind_eq_ok.mp h
        obtain ⟨inner, hb, ⟨⟩⟩ := bind_eq_ok.mp h
        have hc := constraint_shown (hpart _ (by simp)) (hpart _ (by simp)) hc
        have hb := hpart body (by simp) inner hb
        rw [Node.shown_constrain]
        exact bind_eq_ok.mpr ⟨_, hc, bind_eq_ok.mpr ⟨_, hb, rfl⟩⟩
      | symbol name =>
        cases h
        rfl
      | bareName name => cases h
      | value scalar => cases scalar <;> cases h <;> rfl
      | _ => cases hn

end Shown

end Ty

/-- What the reader of a tree knows: which variable a symbol stands for, if it stands for one, and
which name it was that was written as a tree. -/
structure Lexicon where
  var? : String → Option TypeVar
  name : Node → TypeName

namespace Lexicon

open Ty

def applied (name : TypeName) (params : Option (List Ty)) : Ty :=
  if name = .tuple then .tuple (params.getD [])
  else if name = .union then .union (params.getD [])
  else if name = .vararg then
    match params with
    | some [element] => .vararg element (.value .null)
    | some [element, count] => .vararg element count
    | _ => .vararg .any (.value .null)
  else .nominal name (params.getD [])

mutual

def read (x : Lexicon) : Node → Ty
  | .symbol s =>
    match x.var? s with
    | some v => v.toTy
    | none => applied (x.name (.symbol s)) none
  | .quoted (.symbol s) => .symbol s
  | .literal scalar => .value scalar
  | .expr .curly (name :: params) => applied (x.name name) (some (readAll x params))
  | .expr .whereClause (core :: constraints) => (read x core).bind (readVars x constraints)
  | node => applied (x.name node) none

def readAll (x : Lexicon) : List Node → List Ty
  | [] => []
  | node :: nodes => read x node :: readAll x nodes

def readVar (x : Lexicon) : Node → TypeVar
  | .expr .subtype [.symbol name, upper] => ⟨name, .bottom, read x upper⟩
  | .expr .supertype [.symbol name, lower] => ⟨name, read x lower, .any⟩
  | .expr .comparison [lower, _, .symbol name, _, upper] => ⟨name, read x lower, read x upper⟩
  | .symbol name => ⟨name, .bottom, .any⟩
  | _ => ⟨"", .bottom, .any⟩

def readVars (x : Lexicon) : List Node → List TypeVar
  | [] => []
  | node :: nodes => readVar x node :: readVars x nodes

end

theorem read_constrain (x : Lexicon) (constraint node : Node) :
    x.read (constrain constraint node) = (x.readVar constraint).over (x.read node) := by
  unfold constrain
  split
  · rfl
  · rfl

theorem applied_nominal {n : TypeName} (hn : n ∉ reserved) (params : Option (List Ty)) :
    applied n params = .nominal n (params.getD []) := by
  simp only [reserved, Set.mem_insert_iff, Set.mem_singleton_iff, not_or] at hn
  unfold applied
  rw [if_neg hn.1, if_neg hn.2.1, if_neg hn.2.2]

theorem applied_arguments {t : Ty} {n : TypeName} (h : t.callee? = some n)
    (hn : ∀ n params, t = .nominal n params → n ∉ reserved) : applied n t.arguments = t := by
  cases t with
  | nominal name params =>
    cases h
    rw [applied_nominal (hn n params rfl)]
    cases params <;> rfl
  | tuple params =>
    cases h
    rfl
  | union members =>
    cases h
    rfl
  | vararg element count =>
    cases h
    by_cases hc : count = .value .null
    · subst hc
      rw [arguments]
      split
      · next hany =>
        rw [isAny_iff.mp hany]
        rfl
      · rfl
    · rw [arguments_vararg hc]
      rfl
  | _ => cases h

/-- The reader knows some names and variables as they are written, and takes none of the names for
a variable. -/
structure Knows (x : Lexicon) (visible : List String) (names : Set TypeName)
    (vars : Set TypeVar) : Prop where
  var? : ∀ v ∈ vars, x.var? v.name = some v
  name : ∀ n ∈ names ∪ reserved, x.name (n.render visible) = n
  apart : ∀ n ∈ names ∪ reserved, ∀ s, n.render visible = .symbol s → x.var? s = none
  unreserved : ∀ n ∈ names, n ∉ reserved

section Knows

variable {x : Lexicon} {visible : List String} {names : Set TypeName} {vars : Set TypeVar}
  (hx : x.Knows visible names vars)

include hx

theorem Knows.read_name {n : TypeName} (hn : n ∈ names ∪ reserved) :
    x.read (n.render visible) = applied n none := by
  have hname := hx.name n hn
  have hapart := hx.apart n hn
  have hisName := n.isName_render visible
  generalize n.render visible = node at hname hapart hisName
  unfold Node.isName at hisName
  split at hisName
  · rw [read, hapart _ rfl, hname]
  · rw [read, hname]
    all_goals nofun
  · cases hisName

omit hx in
theorem readAll_of_renderAll {ts : List Ty} {nodes : List Node}
    (hts : ∀ t ∈ ts, ∀ node, t.render visible = .ok node → x.read node = t)
    (h : renderAll visible ts = .ok nodes) : x.readAll nodes = ts := by
  induction ts generalizing nodes with
  | nil =>
    cases h
    rfl
  | cons t ts ih =>
    obtain ⟨ht, hts⟩ := List.forall_mem_cons.mp hts
    rw [renderAll, bind_eq_ok] at h
    obtain ⟨node, hnode, h⟩ := h
    obtain ⟨nodes, hnodes, ⟨⟩⟩ := bind_eq_ok.mp h
    rw [readAll, ht node hnode, ih hts hnodes]

theorem Knows.read_curly {n : TypeName} (hn : n ∈ names ∪ reserved) {ts : List Ty}
    {nodes : List Node} (hts : ∀ t ∈ ts, ∀ node, t.render visible = .ok node → x.read node = t)
    (h : renderAll visible ts = .ok nodes) :
    x.read (.expr .curly (n.render visible :: nodes)) = applied n (some ts) := by
  rw [read, hx.name n hn, readAll_of_renderAll hts h]

omit hx in
/-- The declaration of a variable tells its bounds, of which those that say nothing are left
out. -/
theorem readVar_of_constraint {v : TypeVar} {node : Node}
    (hl : ∀ node, v.lower.render visible = .ok node → x.read node = v.lower)
    (hu : ∀ node, v.upper.render visible = .ok node → x.read node = v.upper)
    (h : v.constraint visible = .ok node) : x.readVar node = v := by
  rw [TypeVar.constraint, declaration, bind_eq_ok] at h
  obtain ⟨lower, hlower, h⟩ := h
  obtain ⟨upper, hupper, ⟨⟩⟩ := bind_eq_ok.mp h
  obtain ⟨hbottom, rfl⟩ | ⟨l, hl', rfl⟩ := boundUnless_eq_ok hlower <;>
    obtain ⟨hany, rfl⟩ | ⟨u, hu', rfl⟩ := boundUnless_eq_ok hupper
  · rw [declarationNode, readVar, ← isBottom_iff.mp hbottom, ← isAny_iff.mp hany]
  · rw [declarationNode, readVar, ← isBottom_iff.mp hbottom, hu u hu']
  · rw [declarationNode, readVar, hl l hl', ← isAny_iff.mp hany]
  · rw [declarationNode, readVar, hl l hl', hu u hu']

theorem Knows.read_render {t : Ty} (hnames : t.names ⊆ names) (hvars : t.vars ⊆ vars)
    {node : Node} (h : t.render visible = .ok node) : x.read node = t := by
  induction t using induct_parts generalizing node with
  | h t ih =>
    have hpart : ∀ p ∈ t.parts, ∀ node, p.render visible = .ok node → x.read node = p := by
      intro p hp node hnode
      apply ih p hp _ _ hnode
      · rintro n ⟨params, hn⟩
        exact hnames ⟨params, .part hp hn⟩
      · intro v hv
        exact hvars (Mentions.within hv (.part hp .refl))
    cases hn : t.callee? with
    | some n =>
      have hmem : n ∈ names ∪ reserved := mem_of_callee? hn hnames
      rw [← applied_arguments hn fun n params he => hx.unreserved n (hnames ⟨params, he ▸ .refl⟩)]
      rw [render_of_callee? hn] at h
      cases hts : t.arguments with
      | none =>
        rw [hts] at h
        cases h
        exact hx.read_name hmem
      | some ts =>
        rw [hts] at h
        obtain ⟨nodes, hnodes, rfl⟩ := map_eq_ok.mp h
        exact hx.read_curly hmem (fun t ht => hpart t (mem_parts_of_mem_arguments hts ht)) hnodes
    | none =>
      cases t with
      | var v =>
        cases h
        rw [read, hx.var? v (hvars (mentions_toTy.mpr (.inl rfl)))]
      | layer v body =>
        obtain ⟨constraint, hc, h⟩ := bind_eq_ok.mp h
        obtain ⟨inner, hb, ⟨⟩⟩ := bind_eq_ok.mp h
        rw [read_constrain, readVar_of_constraint (hpart _ (by simp)) (hpart _ (by simp)) hc,
          hpart body (by simp) inner hb]
      | symbol name =>
        cases h
        rfl
      | bareName name => cases h
      | value scalar => cases scalar <;> cases h <;> rfl
      | _ => cases hn

end Knows

/-- A reader that knows what variables show tells what a type shows. -/
theorem Knows.read_shown {x : Lexicon} {visible : List String} {names : Set TypeName}
    {vars : Set TypeVar} (hx : x.Knows visible names (TypeVar.shown '' vars)) {t : Ty}
    (hnames : t.names ⊆ names) (hvars : t.vars ⊆ vars) {node : Node}
    (h : t.render visible = .ok node) : x.read node.shown = t.shown := by
  apply hx.read_render
  · exact t.names_shown_subset.trans hnames
  · exact t.vars_shown_subset.trans (Set.image_mono hvars)
  · exact render_shown h

end Lexicon

namespace Ty

/-- Names and variables that are written apart: no two names alike, none like a name that is
written for other types, none like a variable, and no two variables that look different alike. -/
structure WrittenApart (visible : List String) (names : Set TypeName) (vars : Set TypeVar) :
    Prop where
  render_injOn : Set.InjOn (TypeName.render visible) (names ∪ reserved)
  unreserved : ∀ n ∈ names, n ∉ reserved
  apart : ∀ n ∈ names ∪ reserved, ∀ v ∈ vars, n.render visible ≠ .symbol v.name
  shown_eq : ∀ v ∈ vars, ∀ w ∈ vars, v.name = w.name → v.shown = w.shown

theorem WrittenApart.exists_knows {visible : List String} {names : Set TypeName}
    {vars : Set TypeVar} (h : WrittenApart visible names vars) :
    ∃ x : Lexicon, x.Knows visible names (TypeVar.shown '' vars) := by
  classical
  have hname : ∀ node, ∃ n, ∀ m ∈ names ∪ reserved, m.render visible = node → m = n := by
    intro node
    by_cases hn : ∃ n ∈ names ∪ reserved, n.render visible = node
    · obtain ⟨n, hn, rfl⟩ := hn
      exact ⟨n, fun m hm he => h.render_injOn hm hn he⟩
    · exact ⟨.any, fun m hm he => absurd ⟨m, hm, he⟩ hn⟩
  have hvar : ∀ s, ∃ v? : Option TypeVar, (∀ v ∈ vars, v.name = s → v? = some v.shown) ∧
      ((∀ v ∈ vars, v.name ≠ s) → v? = none) := by
    intro s
    by_cases hv : ∃ v ∈ vars, v.name = s
    · obtain ⟨v, hv, rfl⟩ := hv
      exact ⟨some v.shown, fun w hw he => congrArg some (h.shown_eq v hv w hw he.symm),
        fun hno => absurd rfl (hno v hv)⟩
    · exact ⟨none, fun w hw he => absurd ⟨w, hw, he⟩ hv, fun _ => rfl⟩
  choose name hname using hname
  choose var? hvar using hvar
  refine ⟨⟨var?, name⟩, ?_, ?_, ?_, h.unreserved⟩
  · rintro _ ⟨v, hv, rfl⟩
    exact (hvar v.name).1 v hv rfl
  · exact fun n hn => (hname _ n hn rfl).symm
  · intro n hn s hs
    exact (hvar s).2 fun v hv he => h.apart n hn v hv (he ▸ hs)

/-- Types whose names and variables are written apart are the same if they are written alike. -/
theorem render_inj {visible : List String} {a b : Ty} {m n : Node}
    (h : WrittenApart visible (a.names ∪ b.names) (a.vars ∪ b.vars))
    (ha : a.render visible = .ok m) (hb : b.render visible = .ok n) (hmn : m.shown = n.shown) :
    a.shown = b.shown ∧ (AllDefined a → AllDefined b → a = b) := by
  obtain ⟨x, hx⟩ := h.exists_knows
  have hshown : a.shown = b.shown := by
    calc a.shown = x.read m.shown :=
          (hx.read_shown Set.subset_union_left Set.subset_union_left ha).symm
      _ = x.read n.shown := by rw [hmn]
      _ = b.shown := hx.read_shown Set.subset_union_right Set.subset_union_right hb
  refine ⟨hshown, fun hda hdb => ?_⟩
  rw [← shown_of_allDefined hda, ← shown_of_allDefined hdb, hshown]

namespace Example

def item : TypeVar :=
  ⟨"T", .bottom, .any⟩

def boxes (payload : Nat) : Ty :=
  item.over (.tuple [.nominal ⟨"Box", "Main"⟩ [item.toTy], .value (.float (.nan payload)),
    .vararg item.toTy (.value .null)])

theorem names_boxes (payload : Nat) :
    ∀ n ∈ (boxes payload).names, n = .any ∨ n = ⟨"Box", "Main"⟩ := by
  let P : Ty → Prop := fun s => ∀ n params, s = .nominal n params → n = .any ∨ n = ⟨"Box", "Main"⟩
  have hbottom : Everywhere P .bottom := everywhere_union.mpr ⟨nofun, nofun⟩
  have hany : Everywhere P .any :=
    everywhere_nominal.mpr ⟨by rintro _ _ ⟨⟩; exact .inl rfl, nofun⟩
  have hitem : Everywhere P item.toTy := everywhere_toTy.mpr ⟨nofun, hbottom, hany⟩
  have hbox : Everywhere P (.nominal ⟨"Box", "Main"⟩ [item.toTy]) :=
    everywhere_nominal.mpr ⟨by rintro _ _ ⟨⟩; exact .inr rfl, List.forall_mem_singleton.mpr hitem⟩
  have hvalue : ∀ scalar, Everywhere P (.value scalar) :=
    fun scalar => everywhere_of_parts_eq_nil rfl nofun
  have h : Everywhere P (boxes payload) := by
    refine everywhere_over.mpr ⟨nofun, hbottom, hany, everywhere_tuple.mpr ⟨nofun, ?_⟩⟩
    rw [List.forall_mem_cons, List.forall_mem_cons, List.forall_mem_singleton]
    exact ⟨hbox, hvalue _, everywhere_vararg.mpr ⟨nofun, hitem, hvalue _⟩⟩
  rintro n ⟨params, hn⟩
  exact h _ hn n params rfl

theorem vars_boxes (payload : Nat) : ∀ v ∈ (boxes payload).vars, item = v := by
  intro v hv
  have h : Mentions v (boxes payload) := hv
  simpa [boxes, item, bottom, any] using h

theorem writtenApart_boxes :
    WrittenApart ["Core", "Main"] ((boxes 1).names ∪ (boxes 2).names)
      ((boxes 1).vars ∪ (boxes 2).vars) := by
  have hnames : ∀ n ∈ (boxes 1).names ∪ (boxes 2).names, n = .any ∨ n = ⟨"Box", "Main"⟩ := by
    rintro n (hn | hn)
    · exact names_boxes 1 n hn
    · exact names_boxes 2 n hn
  have hvars : ∀ v ∈ (boxes 1).vars ∪ (boxes 2).vars, item = v := by
    rintro v (hv | hv)
    · exact vars_boxes 1 v hv
    · exact vars_boxes 2 v hv
  have hmem : ∀ n ∈ (boxes 1).names ∪ (boxes 2).names ∪ reserved,
      n ∈ [.any, ⟨"Box", "Main"⟩, .tuple, .union, .vararg] := by
    rintro n (hn | hn)
    · obtain rfl | rfl := hnames n hn <;> simp
    · obtain rfl | rfl | rfl := hn <;> simp
  have hinj : ∀ n ∈ [.any, ⟨"Box", "Main"⟩, .tuple, .union, .vararg],
      ∀ m ∈ [.any, ⟨"Box", "Main"⟩, .tuple, .union, .vararg],
        TypeName.render ["Core", "Main"] n = TypeName.render ["Core", "Main"] m → n = m := by
    decide
  have hsymbol : ∀ n ∈ [.any, ⟨"Box", "Main"⟩, .tuple, .union, .vararg],
      TypeName.render ["Core", "Main"] n ≠ .symbol item.name := by
    decide
  constructor
  · exact fun n hn m hm => hinj n (hmem n hn) m (hmem m hm)
  · intro n hn
    obtain rfl | rfl := hnames n hn <;>
      simp [reserved, TypeName.any, TypeName.tuple, TypeName.union, TypeName.vararg]
  · intro n hn v hv
    rw [← hvars v hv]
    exact hsymbol n (hmem n hn)
  · intro v hv w hw _
    rw [← hvars v hv, ← hvars w hw]

end Example

open Example

theorem render_inj_boxes :
    WrittenApart ["Core", "Main"] ((boxes 1).names ∪ (boxes 2).names)
        ((boxes 1).vars ∪ (boxes 2).vars) ∧
      ∃ m n, (boxes 1).render ["Core", "Main"] = .ok m ∧
        (boxes 2).render ["Core", "Main"] = .ok n ∧ m.shown = n.shown ∧
          (boxes 1).shown = (boxes 2).shown :=
  ⟨writtenApart_boxes, _, _, rfl, rfl, rfl, (render_inj writtenApart_boxes rfl rfl rfl).1⟩

end Ty

end Anatomy
