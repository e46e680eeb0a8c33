import Anatomy.Proofs.Identity

namespace Anatomy.Ty

/-- A variable occurs in a type below the layers that bind `scope`, the innermost first. What a
layer binds stands in front of it and is no occurrence; the occurrences in its bounds are. -/
inductive Occurs (x : TypeVar) : List TypeVar → Ty → Prop
  | here : Occurs x [] x.toTy
  | child {scope : List TypeVar} {t c : Ty} (hc : c ∈ t.children) (h : Occurs x scope c) :
      Occurs x scope t
  | body {scope : List TypeVar} {v : TypeVar} {b : Ty} (h : Occurs x scope b) :
      Occurs x (scope ++ [v]) (v.over b)

/-- Every occurrence of a variable is equal to a variable bound around it. -/
def Closed (t : Ty) : Prop :=
  ∀ x scope, Occurs x scope t → ∃ v ∈ scope, x.same v = true

/-- A variable occurs in a type outside of the layers that bind it. -/
inductive Free (x : TypeVar) : Ty → Prop
  | here : Free x x.toTy
  | child {t c : Ty} (hc : c ∈ t.children) (h : Free x c) : Free x t
  | body {v : TypeVar} {b : Ty} (hv : x ≠ v) (h : Free x b) : Free x (v.over b)

variable {x : TypeVar} {t : Ty}

theorem Free.within (h : Free x t) : Within x.toTy t := by
  induction h with
  | here => exact .refl
  | child hc _ ih => exact .part (mem_parts_of_mem_children hc) ih
  | body _ _ ih => exact .part (mem_parts_over _ _) ih

theorem Free.mentions (h : Free x t) : Mentions x t :=
  ⟨_, h.within, rfl⟩

section Free

theorem free_iff : Free x t ↔ t = x.toTy ∨ (∃ c ∈ t.children, Free x c) ∨
    ∃ v b, t = v.over b ∧ x ≠ v ∧ Free x b := by
  constructor
  · intro h
    cases h with
    | here => exact .inl rfl
    | child hc h => exact .inr (.inl ⟨_, hc, h⟩)
    | body hv h => exact .inr (.inr ⟨_, _, rfl, hv, h⟩)
  · rintro (rfl | ⟨c, hc, h⟩ | ⟨v, b, rfl, hv, h⟩)
    · exact .here
    · exact .child hc h
    · exact .body hv h

theorem free_iff_of_typeVar?_eq_none (h : t.typeVar? = none) :
    Free x t ↔ ∃ c ∈ t.children, Free x c := by
  rw [free_iff]
  refine ⟨?_, fun hc => .inr (.inl hc)⟩
  rintro (rfl | hc | ⟨v, b, rfl, -⟩)
  · cases h
  · exact hc
  · cases h

@[simp]
theorem free_nominal {name : TypeName} {params : List Ty} :
    Free x (.nominal name params) ↔ ∃ p ∈ params, Free x p :=
  free_iff_of_typeVar?_eq_none rfl

@[simp]
theorem free_tuple {params : List Ty} : Free x (.tuple params) ↔ ∃ p ∈ params, Free x p :=
  free_iff_of_typeVar?_eq_none rfl

@[simp]
theorem free_union {members : List Ty} : Free x (.union members) ↔ ∃ m ∈ members, Free x m :=
  free_iff_of_typeVar?_eq_none rfl

@[simp]
theorem free_toTy {v : TypeVar} :
    Free x v.toTy ↔ v = x ∨ Free x v.lower ∨ Free x v.upper := by
  have hlayer : ∀ w b, v.toTy ≠ TypeVar.over w b := nofun
  rw [free_iff, TypeVar.toTy_inj]
  simp [hlayer]

@[simp]
theorem free_over {v : TypeVar} {b : Ty} :
    Free x (v.over b) ↔ Free x v.lower ∨ Free x v.upper ∨ x ≠ v ∧ Free x b := by
  rw [free_iff]
  constructor
  · rintro (h | ⟨c, hc, h⟩ | ⟨w, c, he, hne, h⟩)
    · cases h
    · have hc : c = v.lower ∨ c = v.upper := by simpa using hc
      obtain rfl | rfl := hc
      · exact .inl h
      · exact .inr (.inl h)
    · obtain ⟨rfl, rfl⟩ := TypeVar.over_inj.mp he
      exact .inr (.inr ⟨hne, h⟩)
  · rintro (h | h | ⟨hne, h⟩)
    · exact .inr (.inl ⟨_, by simp, h⟩)
    · exact .inr (.inl ⟨_, by simp, h⟩)
    · exact .inr (.inr ⟨v, b, rfl, hne, h⟩)

@[simp]
theorem free_vararg {element count : Ty} :
    Free x (.vararg element count) ↔ Free x element ∨ Free x count := by
  rw [free_iff_of_typeVar?_eq_none rfl]
  simp

@[simp]
theorem not_free_symbol {name : String} : ¬Free x (.symbol name) :=
  fun h => nomatch (free_iff_of_typeVar?_eq_none rfl).mp h

@[simp]
theorem not_free_bareName {name : TypeName} : ¬Free x (.bareName name) :=
  fun h => nomatch (free_iff_of_typeVar?_eq_none rfl).mp h

@[simp]
theorem not_free_value {scalar : Scalar} : ¬Free x (.value scalar) :=
  fun h => nomatch (free_iff_of_typeVar?_eq_none rfl).mp h

end Free

theorem Occurs.mentions {scope : List TypeVar} (h : Occurs x scope t) :
    Mentions x t ∧ ∀ v ∈ scope, Mentions v t := by
  induction h with
  | here => exact ⟨⟨_, .refl, rfl⟩, fun v hv => nomatch hv⟩
  | child hc _ ih =>
    have hs : ∀ {y c t}, c ∈ children t → Mentions y c → Mentions y t := fun hc h =>
      h.within (.child hc)
    exact ⟨hs hc ih.1, fun v hv => hs hc (ih.2 v hv)⟩
  | body _ ih =>
    refine ⟨mentions_over.mpr (.inr (.inr (.inr ih.1))), fun v hv => ?_⟩
    obtain hv | hv := List.mem_append.mp hv
    · exact mentions_over.mpr (.inr (.inr (.inr (ih.2 v hv))))
    · exact mentions_over.mpr (.inl (List.mem_singleton.mp hv).symm)

theorem free_of_occurs {scope : List TypeVar} (h : Occurs x scope t) (hx : x ∉ scope) :
    Free x t := by
  induction h with
  | here => exact .here
  | child hc _ ih => exact .child hc (ih hx)
  | body _ ih =>
    rw [List.mem_append, not_or, List.mem_singleton] at hx
    exact .body hx.2 (ih hx.1)

theorem exists_occurs_of_free (h : Free x t) : ∃ scope, Occurs x scope t ∧ x ∉ scope := by
  induction h with
  | here => exact ⟨[], .here, List.not_mem_nil⟩
  | child hc _ ih =>
    obtain ⟨scope, ho, hx⟩ := ih
    exact ⟨scope, .child hc ho, hx⟩
  | body hv _ ih =>
    obtain ⟨scope, ho, hx⟩ := ih
    refine ⟨_, .body ho, ?_⟩
    rw [List.mem_append, not_or, List.mem_singleton]
    exact ⟨hx, hv⟩

theorem closed_iff (ht : ∀ v, Mentions v t → Exact v.toTy) : Closed t ↔ ∀ x, ¬Free x t := by
  constructor
  · intro h x hx
    obtain ⟨scope, ho, hns⟩ := exists_occurs_of_free hx
    obtain ⟨v, hv, hs⟩ := h x scope ho
    rw [TypeVar.same_iff (ht x ho.mentions.1) (ht v (ho.mentions.2 v hv))] at hs
    exact hns (hs ▸ hv)
  · intro h x scope ho
    by_cases hx : x ∈ scope
    · exact ⟨x, hx, (TypeVar.same_iff (ht x ho.mentions.1) (ht x ho.mentions.1)).mpr rfl⟩
    · exact absurd (free_of_occurs ho hx) (h x)

end Anatomy.Ty
