import Mathlib.Data.List.Basic
import Anatomy.Ty.Refresh

namespace Anatomy

/-- The layer that binds a variable in a body. -/
def TypeVar.over (v : TypeVar) (body : Ty) : Ty :=
  .unionAll v.name v.lower v.upper body

namespace Ty

@[elab_as_elim, induction_eliminator]
theorem induct {motive : Ty → Prop}
    (nominal : ∀ name params, (∀ p ∈ params, motive p) → motive (.nominal name params))
    (tuple : ∀ params, (∀ p ∈ params, motive p) → motive (.tuple params))
    (union : ∀ members, (∀ m ∈ members, motive m) → motive (.union members))
    (var : ∀ v : TypeVar, motive v.lower → motive v.upper → motive v.toTy)
    (layer : ∀ (v : TypeVar) (body : Ty), motive v.lower → motive v.upper → motive body →
      motive (v.over body))
    (vararg : ∀ element count, motive element → motive count → motive (.vararg element count))
    (symbol : ∀ name, motive (.symbol name))
    (bareName : ∀ name, motive (.bareName name))
    (value : ∀ scalar, motive (.value scalar))
    (t : Ty) : motive t :=
  @Ty.rec motive (fun ts => ∀ t ∈ ts, motive t) nominal tuple union
    (fun name lower upper => var ⟨name, lower, upper⟩)
    (fun name lower upper body => layer ⟨name, lower, upper⟩ body) vararg symbol bareName value
    (fun _ h => absurd h List.not_mem_nil)
    (fun _ _ hu hs t h => (List.mem_cons.mp h).elim (fun e => e ▸ hu) (hs t)) t

@[elab_as_elim, cases_eliminator]
theorem casesOfKind {motive : Ty → Prop}
    (nominal : ∀ name params, motive (.nominal name params))
    (tuple : ∀ params, motive (.tuple params))
    (union : ∀ members, motive (.union members))
    (var : ∀ v : TypeVar, motive v.toTy)
    (layer : ∀ (v : TypeVar) (body : Ty), motive (v.over body))
    (vararg : ∀ element count, motive (.vararg element count))
    (symbol : ∀ name, motive (.symbol name))
    (bareName : ∀ name, motive (.bareName name))
    (value : ∀ scalar, motive (.value scalar))
    (t : Ty) : motive t := by
  induction t with
  | nominal name params => exact nominal name params
  | tuple params => exact tuple params
  | union members => exact union members
  | var v => exact var v
  | layer v body => exact layer v body
  | vararg element count => exact vararg element count
  | symbol name => exact symbol name
  | bareName name => exact bareName name
  | value scalar => exact value scalar

/-- What a type is made of, apart from the body of a layer. -/
def children : Ty → List Ty
  | .nominal _ params => params
  | .tuple params => params
  | .union members => members
  | .var _ lower upper => [lower, upper]
  | .unionAll _ lower upper _ => [lower, upper]
  | .vararg element count => [element, count]
  | _ => []

def body? : Ty → Option Ty
  | .unionAll _ _ _ body => some body
  | _ => none

def typeVar? : Ty → Option TypeVar
  | .var name lower upper => some ⟨name, lower, upper⟩
  | .unionAll name lower upper _ => some ⟨name, lower, upper⟩
  | _ => none

def parts (t : Ty) : List Ty :=
  t.children ++ t.body?.toList

section Parts

variable {v : TypeVar} {b : Ty}

@[simp]
theorem children_toTy : v.toTy.children = [v.lower, v.upper] := rfl

@[simp]
theorem children_over : (v.over b).children = [v.lower, v.upper] := rfl

@[simp]
theorem children_vararg {element count : Ty} :
    (vararg element count).children = [element, count] := rfl

@[simp]
theorem typeVar?_toTy : v.toTy.typeVar? = some v := rfl

@[simp]
theorem typeVar?_over : (v.over b).typeVar? = some v := rfl

@[simp]
theorem parts_nominal {name : TypeName} {params : List Ty} :
    (nominal name params).parts = params := List.append_nil _

@[simp]
theorem parts_tuple {params : List Ty} : (tuple params).parts = params := List.append_nil _

@[simp]
theorem parts_union {members : List Ty} : (union members).parts = members := List.append_nil _

@[simp]
theorem parts_toTy : v.toTy.parts = [v.lower, v.upper] := rfl

@[simp]
theorem parts_over : (v.over b).parts = [v.lower, v.upper, b] := rfl

@[simp]
theorem parts_vararg {element count : Ty} : (vararg element count).parts = [element, count] := rfl

theorem mem_parts_of_mem_children {t c : Ty} (hc : c ∈ t.children) : c ∈ t.parts :=
  List.mem_append_left _ hc

theorem mem_parts_over (v : TypeVar) (b : Ty) : b ∈ (v.over b).parts := by
  simp

end Parts

/-- The types that `t` is built of, itself among them. -/
inductive Within (s : Ty) : Ty → Prop
  | refl : Within s s
  | part {t p : Ty} (hp : p ∈ t.parts) (h : Within s p) : Within s t

def Everywhere (P : Ty → Prop) (t : Ty) : Prop :=
  ∀ s, Within s t → P s

/-- A variable occurs in a type or is bound there, at any depth. -/
def Mentions (v : TypeVar) (t : Ty) : Prop :=
  ∃ s, Within s t ∧ s.typeVar? = some v

theorem Within.trans {r s t : Ty} (hr : Within r s) (hs : Within s t) : Within r t := by
  induction hs with
  | refl => exact hr
  | part hp _ ih => exact .part hp ih

theorem Within.child {c t : Ty} (hc : c ∈ t.children) : Within c t :=
  .part (mem_parts_of_mem_children hc) .refl

theorem within_body (v : TypeVar) (b : Ty) : Within b (v.over b) :=
  .part (mem_parts_over v b) .refl

section Everywhere

variable {P : Ty → Prop} {t : Ty}

theorem everywhere_iff : Everywhere P t ↔ P t ∧ ∀ p ∈ t.parts, Everywhere P p := by
  constructor
  · intro h
    exact ⟨h t .refl, fun p hp s hs => h s (.part hp hs)⟩
  · rintro ⟨ht, hp⟩ s hs
    cases hs with
    | refl => exact ht
    | part hq hs => exact hp _ hq s hs

theorem everywhere_of_parts_eq_nil (hparts : t.parts = []) (ht : P t) : Everywhere P t := by
  rw [everywhere_iff, hparts]
  exact ⟨ht, nofun⟩

theorem Everywhere.node (h : Everywhere P t) : P t :=
  h t .refl

theorem Everywhere.within {s : Ty} (h : Everywhere P t) (hs : Within s t) : Everywhere P s :=
  fun r hr => h r (hr.trans hs)

theorem everywhere_nominal {name : TypeName} {params : List Ty} :
    Everywhere P (.nominal name params) ↔
      P (.nominal name params) ∧ ∀ p ∈ params, Everywhere P p := by
  rw [everywhere_iff, parts_nominal]

theorem everywhere_tuple {params : List Ty} :
    Everywhere P (.tuple params) ↔ P (.tuple params) ∧ ∀ p ∈ params, Everywhere P p := by
  rw [everywhere_iff, parts_tuple]

theorem everywhere_union {members : List Ty} :
    Everywhere P (.union members) ↔ P (.union members) ∧ ∀ m ∈ members, Everywhere P m := by
  rw [everywhere_iff, parts_union]

theorem everywhere_toTy {v : TypeVar} :
    Everywhere P v.toTy ↔ P v.toTy ∧ Everywhere P v.lower ∧ Everywhere P v.upper := by
  rw [everywhere_iff]
  simp

theorem everywhere_over {v : TypeVar} {body : Ty} :
    Everywhere P (v.over body) ↔
      P (v.over body) ∧ Everywhere P v.lower ∧ Everywhere P v.upper ∧ Everywhere P body := by
  rw [everywhere_iff]
  simp

theorem everywhere_vararg {element count : Ty} :
    Everywhere P (.vararg element count) ↔
      P (.vararg element count) ∧ Everywhere P element ∧ Everywhere P count := by
  rw [everywhere_iff]
  simp

end Everywhere

section Mentions

variable {x : TypeVar} {t : Ty}

theorem mentions_iff : Mentions x t ↔ t.typeVar? = some x ∨ ∃ p ∈ t.parts, Mentions x p := by
  constructor
  · rintro ⟨s, hs, hx⟩
    cases hs with
    | refl => exact .inl hx
    | part hp hs => exact .inr ⟨_, hp, s, hs, hx⟩
  · rintro (hx | ⟨p, hp, s, hs, hx⟩)
    · exact ⟨t, .refl, hx⟩
    · exact ⟨s, .part hp hs, hx⟩

theorem mentions_iff_of_typeVar?_eq_none (h : t.typeVar? = none) :
    Mentions x t ↔ ∃ p ∈ t.parts, Mentions x p := by
  rw [mentions_iff, h]
  simp

theorem Mentions.within {s : Ty} (h : Mentions x s) (hs : Within s t) : Mentions x t := by
  obtain ⟨r, hr, hx⟩ := h
  exact ⟨r, hr.trans hs, hx⟩

@[simp]
theorem mentions_nominal {name : TypeName} {params : List Ty} :
    Mentions x (.nominal name params) ↔ ∃ p ∈ params, Mentions x p := by
  rw [mentions_iff_of_typeVar?_eq_none rfl, parts_nominal]

@[simp]
theorem mentions_tuple {params : List Ty} :
    Mentions x (.tuple params) ↔ ∃ p ∈ params, Mentions x p := by
  rw [mentions_iff_of_typeVar?_eq_none rfl, parts_tuple]

@[simp]
theorem mentions_union {members : List Ty} :
    Mentions x (.union members) ↔ ∃ m ∈ members, Mentions x m := by
  rw [mentions_iff_of_typeVar?_eq_none rfl, parts_union]

@[simp]
theorem mentions_toTy {v : TypeVar} :
    Mentions x v.toTy ↔ v = x ∨ Mentions x v.lower ∨ Mentions x v.upper := by
  rw [mentions_iff]
  simp

@[simp]
theorem mentions_over {v : TypeVar} {body : Ty} :
    Mentions x (v.over body) ↔
      v = x ∨ Mentions x v.lower ∨ Mentions x v.upper ∨ Mentions x body := by
  rw [mentions_iff]
  simp

@[simp]
theorem mentions_vararg {element count : Ty} :
    Mentions x (.vararg element count) ↔ Mentions x element ∨ Mentions x count := by
  rw [mentions_iff_of_typeVar?_eq_none rfl]
  simp

@[simp]
theorem not_mentions_symbol {name : String} : ¬Mentions x (.symbol name) :=
  fun h => nomatch (mentions_iff_of_typeVar?_eq_none rfl).mp h

@[simp]
theorem not_mentions_bareName {name : TypeName} : ¬Mentions x (.bareName name) :=
  fun h => nomatch (mentions_iff_of_typeVar?_eq_none rfl).mp h

@[simp]
theorem not_mentions_value {scalar : Scalar} : ¬Mentions x (.value scalar) :=
  fun h => nomatch (mentions_iff_of_typeVar?_eq_none rfl).mp h

theorem children_of_typeVar? {s : Ty} {w : TypeVar} (h : s.typeVar? = some w) :
    s.children = [w.lower, w.upper] := by
  cases s with
  | var y =>
    obtain rfl : y = w := by simpa using h
    rfl
  | layer y b =>
    obtain rfl : y = w := by simpa using h
    rfl
  | _ => cases h

theorem bounds_mem_parts {s : Ty} {w : TypeVar} (h : s.typeVar? = some w) :
    w.lower ∈ s.parts ∧ w.upper ∈ s.parts := by
  constructor <;>
    exact mem_parts_of_mem_children (by simp [children_of_typeVar? h])

theorem Mentions.trans {w : TypeVar} (hx : Mentions x w.toTy) (hw : Mentions w t) :
    Mentions x t := by
  obtain ⟨s, hs, hv⟩ := hw
  obtain ⟨hl, hu⟩ := bounds_mem_parts hv
  obtain rfl | hx | hx := mentions_toTy.mp hx
  · exact ⟨s, hs, hv⟩
  · exact hx.within (.trans (.part hl .refl) hs)
  · exact hx.within (.trans (.part hu .refl) hs)

end Mentions

/-- What holds everywhere in a type holds in the bounds of its variables. -/
theorem Everywhere.toTy {P : Ty → Prop} {t : Ty} {v : TypeVar} (h : Everywhere P t)
    (hv : Mentions v t) (hnode : P v.toTy) : Everywhere P v.toTy := by
  obtain ⟨s, hs, hvar⟩ := hv
  obtain ⟨hl, hu⟩ := bounds_mem_parts hvar
  exact everywhere_toTy.mpr ⟨hnode, h.within (.trans (.part hl .refl) hs),
    h.within (.trans (.part hu .refl) hs)⟩

theorem sizeOf_lt_of_mem_parts {t p : Ty} (hp : p ∈ t.parts) : sizeOf p < sizeOf t := by
  cases t with
  | nominal name params =>
    have h := List.sizeOf_lt_of_mem (by simpa using hp : p ∈ params)
    simp only [nominal.sizeOf_spec]
    omega
  | tuple params =>
    have h := List.sizeOf_lt_of_mem (by simpa using hp : p ∈ params)
    simp only [tuple.sizeOf_spec]
    omega
  | union members =>
    have h := List.sizeOf_lt_of_mem (by simpa using hp : p ∈ members)
    simp only [union.sizeOf_spec]
    omega
  | var v =>
    obtain rfl | rfl : p = v.lower ∨ p = v.upper := by
      simpa using hp
    all_goals
      simp only [TypeVar.toTy, var.sizeOf_spec]
      omega
  | layer v b =>
    obtain rfl | rfl | rfl : p = v.lower ∨ p = v.upper ∨ p = b := by
      simpa using hp
    all_goals
      simp only [TypeVar.over, unionAll.sizeOf_spec]
      omega
  | vararg element count =>
    obtain rfl | rfl : p = element ∨ p = count := by
      simpa using hp
    all_goals
      simp only [vararg.sizeOf_spec]
      omega
  | _ => cases hp

@[elab_as_elim]
theorem induct_parts {motive : Ty → Prop} (h : ∀ t, (∀ p ∈ t.parts, motive p) → motive t)
    (t : Ty) : motive t := by
  induction hn : sizeOf t using Nat.strongRecOn generalizing t with
  | _ n ih => exact h t fun p hp => ih _ (hn ▸ sizeOf_lt_of_mem_parts hp) p rfl

theorem Within.sizeOf_le {s t : Ty} (h : Within s t) : sizeOf s ≤ sizeOf t := by
  induction h with
  | refl => exact Nat.le_refl _
  | part hp _ ih => exact Nat.le_of_lt (Nat.lt_of_le_of_lt ih (sizeOf_lt_of_mem_parts hp))

theorem not_mentions_bounds (v : TypeVar) : ¬Mentions v v.lower ∧ ¬Mentions v v.upper := by
  constructor
  · rintro ⟨s, hs, hv⟩
    exact Nat.lt_irrefl _
      (Nat.lt_of_le_of_lt hs.sizeOf_le (sizeOf_lt_of_mem_parts (bounds_mem_parts hv).1))
  · rintro ⟨s, hs, hv⟩
    exact Nat.lt_irrefl _
      (Nat.lt_of_le_of_lt hs.sizeOf_le (sizeOf_lt_of_mem_parts (bounds_mem_parts hv).2))

theorem not_mentions_of_typeVar? {v : TypeVar} {t c : Ty} (hv : t.typeVar? = some v)
    (hc : c ∈ t.children) : ¬Mentions v c := by
  rw [children_of_typeVar? hv, List.mem_pair] at hc
  obtain rfl | rfl := hc
  · exact (not_mentions_bounds v).1
  · exact (not_mentions_bounds v).2

end Ty

end Anatomy
