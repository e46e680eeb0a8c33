import Anatomy.Proofs.Renaming

namespace Anatomy.Ty

/-- A layer binds `v` again, and a variable free in it has `v` in its bounds. -/
inductive Snag (v : TypeVar) : Ty → Prop
  | here {w : TypeVar} {b : Ty} (hw : Free w (v.over b)) (hv : Free v w.toTy) : Snag v (v.over b)
  | child {t c : Ty} (hc : c ∈ t.children) (h : Snag v c) : Snag v t
  | body {w : TypeVar} {b : Ty} (hw : w ≠ v) (h : Snag v b) : Snag v (w.over b)

/-- The types that are renamed along with `t`, which the bounds of an occurrence are not. -/
def entered : Ty → List Ty
  | .var _ _ _ => []
  | t => t.children

inductive AtLayer (P : TypeVar → Ty → Prop) : Ty → Prop
  | here {v : TypeVar} {b : Ty} (h : P v b) : AtLayer P (v.over b)
  | child {t c : Ty} (hc : c ∈ t.entered) (h : AtLayer P c) : AtLayer P t
  | body {v : TypeVar} {b : Ty} (h : AtLayer P b) : AtLayer P (v.over b)

/-- Some variable is snagged below its layer. -/
def Tangled (t : Ty) : Prop :=
  AtLayer Snag t

def Layer (x : TypeVar) (t : Ty) : Prop :=
  AtLayer (fun v _ => v = x) t

/-- A repetition is counted by a variable or a plain value. -/
def IsCounted : Ty → Prop
  | .vararg _ (.var _ _ _) => True
  | .vararg _ (.value _) => True
  | .vararg _ _ => False
  | _ => True

def Counted (t : Ty) : Prop :=
  Everywhere IsCounted t

def IsMarked (name : String) : Prop :=
  ['#', '#'] <+: name.toList

instance (name : String) : Decidable (IsMarked name) :=
  inferInstanceAs (Decidable (['#', '#'] <+: name.toList))

def AllMarked (t : Ty) : Prop :=
  ∀ w, Mentions w t → IsMarked w.name

inductive Replaces (old new : TypeVar) : Ty → Ty → Prop
  | occurrence : Replaces old new old.toTy new.toTy
  | shadow {b : Ty} : Replaces old new (old.over b) (old.over b)
  | layer {w : TypeVar} {b : Ty} (hw : w ≠ old) :
      Replaces old new (w.over b) ((w.replace old new).over (b.substitute old new))
  | other {t t' : Ty} (hbody : t.body? = none) (hbody' : t'.body? = none)
      (hvar : ∀ x : TypeVar, t' = x.toTy → ∃ w : TypeVar,
        t = w.toTy ∧ w ≠ old ∧ x = w.replace old new)
      (hvar' : ∀ w : TypeVar, t = w.toTy → ∃ x : TypeVar, t' = x.toTy)
      (hchild : ∀ c ∈ t'.children, ∃ p ∈ t.children, c = p.substitute old new ∨
        (p.substitute old new).isUnion = true ∧ c ∈ (p.substitute old new).children) :
      Replaces old new t t'

variable {old new : TypeVar}

theorem substitute_vararg_of_counted {element count : Ty} (hc : IsCounted (.vararg element count)) :
    (Ty.vararg element count).substitute old new =
      .vararg (element.substitute old new) (count.substitute old new) := by
  obtain ⟨-, hsub⟩ | ⟨hne, hsub⟩ := substitute_vararg old new element count
  · exact hsub
  · cases count with
    | var w => exact absurd rfl (hne w)
    | value scalar => exact hsub
    | _ => cases hc

theorem replaces_substitute (hold : Sound old.toTy) {t : Ty} (ht : VarsSound t)
    (hc : IsCounted t) : Replaces old new t (t.substitute old new) := by
  cases t with
  | nominal name params =>
    rw [substitute_nominal]
    refine .other rfl rfl nofun nofun fun c hc => ?_
    obtain ⟨p, hp, rfl⟩ := List.mem_map.mp hc
    exact ⟨p, hp, .inl rfl⟩
  | tuple params =>
    rw [substitute_tuple]
    refine .other rfl rfl nofun nofun fun c hc => ?_
    obtain ⟨p, hp, rfl⟩ := List.mem_map.mp hc
    exact ⟨p, hp, .inl rfl⟩
  | union members =>
    rw [substitute_union]
    refine .other rfl rfl nofun nofun fun c hc => ?_
    obtain ⟨u, hu, h⟩ := exists_of_mem_canonicalMembers hc
    obtain ⟨m, hm, rfl⟩ := List.mem_map.mp hu
    exact ⟨m, hm, h⟩
  | var w =>
    by_cases hw : w = old
    · rw [hw, substitute_toTy_self hold.exact]
      exact .occurrence
    · have hs := ht w (mentions_toTy.mpr (.inl rfl))
      rw [substitute_toTy_of_ne hold.exact hs.exact hw]
      refine .other rfl rfl (fun x hx => ?_) (fun _ _ => ⟨_, rfl⟩) fun c hc => ?_
      · exact ⟨w, rfl, hw, (TypeVar.toTy_inj.mp hx).symm⟩
      · rw [children_toTy, List.mem_pair] at hc
        obtain rfl | rfl := hc
        · exact ⟨w.lower, by simp, .inl rfl⟩
        · exact ⟨w.upper, by simp, .inl rfl⟩
  | layer w b =>
    by_cases hw : w = old
    · rw [hw, substitute_over_self hold.exact]
      exact .shadow
    · have hs := ht w (mentions_over.mpr (.inl rfl))
      rw [substitute_over_of_ne hold.exact hs.exact hw]
      exact .layer hw
  | vararg element count =>
    rw [substitute_vararg_of_counted hc]
    refine .other rfl rfl nofun nofun fun c hc => ?_
    obtain rfl | rfl := List.mem_pair.mp hc
    · exact ⟨element, List.mem_cons_self, .inl rfl⟩
    · exact ⟨count, List.mem_cons_of_mem _ List.mem_cons_self, .inl rfl⟩
  | symbol name => exact .other rfl rfl nofun nofun nofun
  | bareName name => exact .other rfl rfl nofun nofun nofun
  | value scalar => exact .other rfl rfl nofun nofun nofun

section Inversion

variable {v x : TypeVar} {t : Ty}

theorem ne_over_of_body? (h : t.body? = none) (w : TypeVar) (b : Ty) : t ≠ w.over b := by
  rintro rfl
  cases h

theorem free_cases (h : Free x t) (hbody : t.body? = none) :
    t = x.toTy ∨ ∃ c ∈ t.children, Free x c := by
  obtain h | h | ⟨w, b, rfl, -⟩ := free_iff.mp h
  · exact .inl h
  · exact .inr h
  · exact absurd rfl (ne_over_of_body? hbody w b)

theorem free_unionOf {ts : List Ty} (h : Free x (unionOf ts)) : ∃ u ∈ ts, Free x u := by
  obtain ⟨m, hm, hx⟩ := free_union.mp h
  obtain ⟨u, hu, rfl | ⟨-, hmu⟩⟩ := exists_of_mem_canonicalMembers hm
  · exact ⟨m, hu, hx⟩
  · exact ⟨u, hu, .child hmu hx⟩

theorem snag_iff : Snag v t ↔ (∃ c ∈ t.children, Snag v c) ∨
    (∃ b w, t = v.over b ∧ Free w (v.over b) ∧ Free v w.toTy) ∨
    ∃ w b, t = w.over b ∧ w ≠ v ∧ Snag v b := by
  constructor
  · intro h
    cases h with
    | here hw hv => exact .inr (.inl ⟨_, _, rfl, hw, hv⟩)
    | child hc h => exact .inl ⟨_, hc, h⟩
    | body hw h => exact .inr (.inr ⟨_, _, rfl, hw, h⟩)
  · rintro (⟨c, hc, h⟩ | ⟨b, w, rfl, hw, hv⟩ | ⟨w, b, rfl, hw, h⟩)
    · exact .child hc h
    · exact .here hw hv
    · exact .body hw h

theorem snag_cases (h : Snag v t) (hbody : t.body? = none) : ∃ c ∈ t.children, Snag v c := by
  obtain h | ⟨b, w, rfl, -⟩ | ⟨w, b, rfl, -⟩ := snag_iff.mp h
  · exact h
  · exact absurd rfl (ne_over_of_body? hbody v b)
  · exact absurd rfl (ne_over_of_body? hbody w b)

theorem snag_over {w : TypeVar} {b : Ty} (h : Snag v (w.over b)) :
    (∃ c ∈ [w.lower, w.upper], Snag v c) ∨
      w = v ∧ (∃ y, Free y (v.over b) ∧ Free v y.toTy) ∨ w ≠ v ∧ Snag v b := by
  obtain h | ⟨b', y, he, hy, hv⟩ | ⟨w', b', he, hw, h⟩ := snag_iff.mp h
  · exact .inl h
  · obtain ⟨rfl, rfl⟩ := TypeVar.over_inj.mp he
    exact .inr (.inl ⟨rfl, y, hy, hv⟩)
  · obtain ⟨rfl, rfl⟩ := TypeVar.over_inj.mp he
    exact .inr (.inr ⟨hw, h⟩)

theorem Snag.mentions (h : Snag v t) : Mentions v t := by
  induction h with
  | here _ _ => exact mentions_over.mpr (.inl rfl)
  | child hc _ ih => exact ih.within (.child hc)
  | body _ _ ih => exact mentions_over.mpr (.inr (.inr (.inr ih)))

theorem atLayer_iff {P : TypeVar → Ty → Prop} : AtLayer P t ↔ (∃ c ∈ t.entered, AtLayer P c) ∨
    ∃ w b, t = w.over b ∧ (P w b ∨ AtLayer P b) := by
  constructor
  · intro h
    cases h with
    | here h => exact .inr ⟨_, _, rfl, .inl h⟩
    | child hc h => exact .inl ⟨_, hc, h⟩
    | body h => exact .inr ⟨_, _, rfl, .inr h⟩
  · rintro (⟨c, hc, h⟩ | ⟨w, b, rfl, h | h⟩)
    · exact .child hc h
    · exact .here h
    · exact .body h

theorem atLayer_over {P : TypeVar → Ty → Prop} {w : TypeVar} {b : Ty} : AtLayer P (w.over b) ↔
    (∃ c ∈ [w.lower, w.upper], AtLayer P c) ∨ P w b ∨ AtLayer P b := by
  rw [atLayer_iff]
  constructor
  · rintro (h | ⟨w', b', he, h⟩)
    · exact .inl h
    · obtain ⟨rfl, rfl⟩ := TypeVar.over_inj.mp he
      exact .inr h
  · rintro (h | h)
    · exact .inl h
    · exact .inr ⟨w, b, rfl, h⟩

theorem not_atLayer_toTy {P : TypeVar → Ty → Prop} : ¬AtLayer P v.toTy := by
  intro h
  obtain ⟨c, hc, -⟩ | ⟨w, b, he, -⟩ := atLayer_iff.mp h
  · cases hc
  · cases he

theorem mem_children_of_mem_entered {c : Ty} (hc : c ∈ t.entered) : c ∈ t.children := by
  cases t with
  | var w => cases hc
  | _ => exact hc

theorem entered_of_ne (h : ∀ w : TypeVar, t ≠ w.toTy) : t.entered = t.children := by
  cases t with
  | var w => exact absurd rfl (h w)
  | _ => rfl

theorem Layer.mentions (h : Layer x t) : Mentions x t := by
  induction h with
  | here h => exact mentions_over.mpr (.inl h)
  | child hc _ ih => exact ih.within (.child (mem_children_of_mem_entered hc))
  | body _ ih => exact mentions_over.mpr (.inr (.inr (.inr ih)))

theorem AtLayer.mono {P Q : TypeVar → Ty → Prop} (hPQ : ∀ w b, P w b → Q w b)
    (h : AtLayer P t) : AtLayer Q t := by
  induction h with
  | here h => exact .here (hPQ _ _ h)
  | child hc _ ih => exact .child hc ih
  | body _ ih => exact .body ih

theorem AtLayer.exists_layer {P : TypeVar → Prop} (h : AtLayer (fun w _ => P w) t) :
    ∃ w, Layer w t ∧ P w := by
  induction h with
  | here h => exact ⟨_, .here rfl, h⟩
  | child hc _ ih =>
    obtain ⟨w, hw, h⟩ := ih
    exact ⟨w, .child hc hw, h⟩
  | body _ ih =>
    obtain ⟨w, hw, h⟩ := ih
    exact ⟨w, .body hw, h⟩

end Inversion

/-- If nothing is snagged, what is free after a replacement was free before, as a variable with the
same replacement in its bounds. -/
theorem free_substitute (hold : Sound old.toTy) {t : Ty} (ht : VarsSound t) (hc : Counted t)
    (hs : ¬Snag old t) {x : TypeVar} (hx : Free x (t.substitute old new)) :
    Free x new.toTy ∨ ∃ w, Free w t ∧ w ≠ old ∧ x = w.replace old new ∧
      (Snag old w.toTy → ¬Free old w.toTy) := by
  induction t using induct_parts with
  | _ t ih =>
    have hchild : ∀ p ∈ t.children, Free x (p.substitute old new) →
        Free x new.toTy ∨ ∃ w, Free w t ∧ w ≠ old ∧ x = w.replace old new ∧
          (Snag old w.toTy → ¬Free old w.toTy) := by
      intro p hp hx
      have hw : Within p t := .child hp
      obtain h | ⟨w, hfree, h⟩ := ih p (mem_parts_of_mem_children hp) (ht.within hw)
        (hc.within hw) (fun h => hs (.child hp h)) hx
      · exact .inl h
      · exact .inr ⟨w, .child hp hfree, h⟩
    have hview : Replaces old new t (t.substitute old new) := replaces_substitute hold ht hc.node
    generalize hsub : t.substitute old new = t' at hx hview
    cases hview with
    | occurrence => exact .inl hx
    | shadow =>
      have hnot : ¬Free old x.toTy := fun h => hs (.here hx h)
      have hne : x ≠ old := fun he => hnot (he ▸ .here)
      exact .inr ⟨x, hx, hne, (replace_of_not_free hold (ht x hx.mentions) hnot).symm,
        fun _ => hnot⟩
    | layer hw =>
      rename_i w b
      obtain hx | hx | ⟨hne, hx⟩ := free_over.mp hx
      · exact hchild w.lower (by simp) hx
      · exact hchild w.upper (by simp) hx
      · have hin : Within b (w.over b) := within_body w b
        obtain h | ⟨y, hy, hyo, rfl, h⟩ := ih b (mem_parts_over w b) (ht.within hin)
          (hc.within hin) (fun h => hs (.body hw h)) hx
        · exact .inl h
        · have hyw : y ≠ w := fun he => hne (he ▸ rfl)
          exact .inr ⟨y, .body hyw hy, hyo, rfl, h⟩
    | other hbody hbody' hvar hvar' hchildren =>
      obtain he | ⟨c, hcc, hx⟩ := free_cases hx hbody'
      · obtain ⟨w, rfl, hw, hxw⟩ := hvar x he
        exact .inr ⟨w, .here, hw, hxw, fun h => absurd h hs⟩
      · obtain ⟨p, hp, rfl | ⟨-, hcp⟩⟩ := hchildren c hcc
        · exact hchild p hp hx
        · exact hchild p hp (.child hcp hx)

theorem replace_inj (hold : Sound old.toTy) (hnew : Sound new.toTy) {w y : TypeVar}
    (hw : Sound w.toTy) (hy : Sound y.toTy) (hfw : NameFree new.name w.toTy)
    (hfy : NameFree new.name y.toTy) (hwo : w ≠ old) (hyo : y ≠ old)
    (h : w.replace old new = y.replace old new) : w = y := by
  rw [← TypeVar.toTy_inj]
  refine substitute_inj hold hnew hw hy hfw hfy ?_
  rw [substitute_toTy_of_ne hold.exact hw.exact hwo, substitute_toTy_of_ne hold.exact hy.exact hyo,
    h]

theorem replace_eq_of_mentions (hold : Sound old.toTy) (hnew : Sound new.toTy) {t : Ty}
    (hfresh : NameFree new.name t) {w : TypeVar} (hw : Sound w.toTy)
    (hfw : NameFree new.name w.toTy) (hwo : w ≠ old) (h : Mentions (w.replace old new) t) :
    w.replace old new = w := by
  have hback := substitute_substitute hold hnew hw hfw
  have hfw' : NameFree new.name (w.replace old new).toTy := fun y hy =>
    hfresh y (hy.trans h)
  rw [substitute_toTy_of_ne hold.exact hw.exact hwo,
    substitute_of_not_free hnew (hw.replace hnew) hfw'.not_free] at hback
  exact TypeVar.toTy_inj.mp hback

/-- What a renaming knows when it replaces a variable: the new one is fresh and all marked. -/
structure Setting (old new : TypeVar) (t : Ty) : Prop where
  oldSound : Sound old.toTy
  newSound : Sound new.toTy
  marked : AllMarked new.toTy
  vars : VarsSound t
  counted : Counted t
  fresh : NameFree new.name t

theorem Setting.within {s t : Ty} (h : Setting old new t) (hs : Within s t) :
    Setting old new s where
  oldSound := h.oldSound
  newSound := h.newSound
  marked := h.marked
  vars := h.vars.within hs
  counted := h.counted.within hs
  fresh := h.fresh.within hs

theorem Setting.toTy {w : TypeVar} {t : Ty} (h : Setting old new t) (hw : Mentions w t) :
    Setting old new w.toTy where
  oldSound := h.oldSound
  newSound := h.newSound
  marked := h.marked
  vars := fun y hy => h.vars y (hy.trans hw)
  counted := Everywhere.toTy h.counted hw trivial
  fresh := fun y hy => h.fresh y (hy.trans hw)

theorem free_of_free_replace {t : Ty} (ht : Setting old new t) {u w : TypeVar} (hu : Mentions u t)
    (huo : u ≠ old) (hsu : Snag old u.toTy → ¬Free old u.toTy) (hw : Sound w.toTy)
    (hfw : NameFree new.name w.toTy) (hwo : w ≠ old)
    (hnew : ¬Mentions (w.replace old new) new.toTy)
    (h : Free (w.replace old new) (u.replace old new).toTy) : Free w u.toTy := by
  have htu := ht.toTy hu
  have hus := ht.vars u hu
  by_cases hso : Snag old u.toTy
  · rw [replace_of_not_free ht.oldSound hus (hsu hso)] at h
    rwa [replace_eq_of_mentions ht.oldSound ht.newSound htu.fresh hw hfw hwo h.mentions] at h
  · rw [← substitute_toTy_of_ne ht.oldSound.exact hus.exact huo] at h
    obtain h | ⟨x, hx, hxo, he, -⟩ := free_substitute ht.oldSound htu.vars htu.counted hso h
    · exact absurd h.mentions hnew
    · have hwx : w = x := replace_inj ht.oldSound ht.newSound hw (htu.vars x hx.mentions) hfw
        (htu.toTy hx.mentions).fresh hwo hxo he
      exact hwx ▸ hx

theorem snag_substitute {t : Ty} (ht : Setting old new t) (hs : ¬Snag old t) {w : TypeVar}
    (hw : Sound w.toTy) (hfw : NameFree new.name w.toTy) (hwo : w ≠ old)
    (hwm : ¬IsMarked w.name) (h : Snag (w.replace old new) (t.substitute old new)) :
    Snag w t := by
  have hnew : ¬Mentions (w.replace old new) new.toTy := fun h => hwm (ht.marked (w.replace _ _) h)
  induction t using induct_parts with
  | _ t ih =>
    have hchild : ∀ p ∈ t.children, Snag (w.replace old new) (p.substitute old new) →
        Snag w t := by
      intro p hp h
      have hin : Within p t := .child hp
      exact .child hp (ih p (mem_parts_of_mem_children hp) (ht.within hin)
        (fun h => hs (.child hp h)) h)
    have hview : Replaces old new t (t.substitute old new) :=
      replaces_substitute ht.oldSound ht.vars ht.counted.node
    generalize hsub : t.substitute old new = t' at h hview
    cases hview with
    | occurrence => exact absurd h.mentions hnew
    | shadow =>
      rwa [replace_eq_of_mentions ht.oldSound ht.newSound ht.fresh hw hfw hwo h.mentions] at h
    | layer hy =>
      rename_i y b
      have hyt : Mentions y (y.over b) := mentions_over.mpr (.inl rfl)
      obtain ⟨c, hc, h⟩ | ⟨he, z, hz, hwz⟩ | ⟨hne, h⟩ := snag_over h
      · obtain rfl | rfl := List.mem_pair.mp hc
        · exact hchild y.lower (by simp) h
        · exact hchild y.upper (by simp) h
      · obtain rfl : y = w := replace_inj ht.oldSound ht.newSound (ht.vars y hyt) hw
          (ht.toTy hyt).fresh hfw hy hwo he
        rw [← hsub] at hz
        obtain hz | ⟨u, hu, huo, rfl, hsu⟩ := free_substitute ht.oldSound ht.vars ht.counted hs hz
        · exact absurd (hwz.mentions.trans hz.mentions) hnew
        · exact .here hu (free_of_free_replace ht hu.mentions huo hsu hw hfw hwo hnew hwz)
      · have hyw : y ≠ w := fun he => hne (he ▸ rfl)
        have hin : Within b (y.over b) := within_body y b
        exact .body hyw (ih b (mem_parts_over y b) (ht.within hin) (fun h => hs (.body hy h)) h)
    | other hbody hbody' hvar hvar' hchildren =>
      obtain ⟨c, hcc, h⟩ := snag_cases h hbody'
      obtain ⟨p, hp, rfl | ⟨-, hcp⟩⟩ := hchildren c hcc
      · exact hchild p hp h
      · exact hchild p hp (.child hcp h)

theorem exists_mem_entered {t t' : Ty}
    (hvar : ∀ w : TypeVar, t = w.toTy → ∃ x : TypeVar, t' = x.toTy)
    (hchild : ∀ c ∈ t'.children, ∃ p ∈ t.children, c = p.substitute old new ∨
      (p.substitute old new).isUnion = true ∧ c ∈ (p.substitute old new).children)
    {c : Ty} (hc : c ∈ t'.entered) :
    ∃ p ∈ t.entered, c = p.substitute old new ∨ c ∈ (p.substitute old new).entered := by
  obtain ⟨p, hp, h⟩ := hchild c (mem_children_of_mem_entered hc)
  have ht : t.entered = t.children := by
    refine entered_of_ne fun w hw => ?_
    obtain ⟨x, rfl⟩ := hvar w hw
    cases hc
  refine ⟨p, ht ▸ hp, h.imp_right fun ⟨hu, hc⟩ => ?_⟩
  rwa [entered_of_ne]
  intro w hw
  rw [hw] at hu
  cases hu

/-- What is at a layer after a replacement comes from a layer of the type. The property `C` says
what is known on the way there. -/
theorem atLayer_substitute {P Q : TypeVar → Ty → Prop} {C : Ty → Prop}
    (hsetting : ∀ t, C t → Setting old new t) (hentered : ∀ t, C t → ∀ c ∈ t.entered, C c)
    (hbody : ∀ (w : TypeVar) b, C (w.over b) → w ≠ old → C b)
    (hshadow : ∀ b, C (old.over b) → AtLayer P (old.over b) → AtLayer Q (old.over b))
    (hlayer : ∀ (w : TypeVar) b, C (w.over b) → w ≠ old →
      P (w.replace old new) (b.substitute old new) → Q w b)
    {t : Ty} (ht : C t) (h : AtLayer P (t.substitute old new)) : AtLayer Q t := by
  induction t using induct_parts with
  | _ t ih =>
    have hchild : ∀ p ∈ t.entered, AtLayer P (p.substitute old new) → AtLayer Q t := by
      intro p hp h
      have hpart := mem_parts_of_mem_children (mem_children_of_mem_entered hp)
      exact .child hp (ih p hpart (hentered t ht p hp) h)
    have hset := hsetting t ht
    have hview : Replaces old new t (t.substitute old new) :=
      replaces_substitute hset.oldSound hset.vars hset.counted.node
    generalize hsub : t.substitute old new = t' at h hview
    cases hview with
    | occurrence => exact absurd h not_atLayer_toTy
    | shadow => exact hshadow _ ht h
    | layer hw =>
      rename_i w b
      obtain ⟨c, hc, h⟩ | h | h := atLayer_over.mp h
      · obtain rfl | rfl := List.mem_pair.mp hc
        · exact hchild w.lower (List.mem_pair.mpr (.inl rfl)) h
        · exact hchild w.upper (List.mem_pair.mpr (.inr rfl)) h
      · exact .here (hlayer w b ht hw h)
      · exact .body (ih b (mem_parts_over w b) (hbody w b ht hw) h)
    | other hbody hbody' hvar hvar' hchildren =>
      obtain ⟨c, hc, h⟩ | ⟨w, b, rfl, -⟩ := atLayer_iff.mp h
      · obtain ⟨p, hp, rfl | hcp⟩ := exists_mem_entered hvar' hchildren hc
        · exact hchild p hp h
        · exact hchild p hp (.child hcp h)
      · exact absurd rfl (ne_over_of_body? hbody' w b)

theorem Setting.entered {t c : Ty} (h : Setting old new t) (hc : c ∈ t.entered) :
    Setting old new c :=
  h.within (.child (mem_children_of_mem_entered hc))

theorem exists_layer_name {t : Ty} (ht : Setting old new t) {x : TypeVar}
    (h : Layer x (t.substitute old new)) : ∃ w, Layer w t ∧ w.name = x.name := by
  refine AtLayer.exists_layer (P := fun w => w.name = x.name)
    (atLayer_substitute (C := Setting old new) ?_ ?_ ?_ ?_ ?_ ht h)
  · exact fun t ht => ht
  · exact fun t ht c hc => ht.entered hc
  · exact fun w b ht _ => ht.within (within_body w b)
  · intro b _ h
    exact AtLayer.mono (fun w b hw => congrArg TypeVar.name hw) h
  · rintro w b _ _ rfl
    rfl

theorem exists_layer_replace {t : Ty} (ht : Setting old new t) (hold : ¬Layer old t) {x : TypeVar}
    (h : Layer x (t.substitute old new)) :
    ∃ w, Layer w t ∧ w ≠ old ∧ x = w.replace old new := by
  refine AtLayer.exists_layer (P := fun w => w ≠ old ∧ x = w.replace old new)
    (atLayer_substitute (C := fun t => Setting old new t ∧ ¬Layer old t) ?_ ?_ ?_ ?_ ?_
      ⟨ht, hold⟩ h)
  · exact fun t ht => ht.1
  · exact fun t ht c hc => ⟨ht.1.entered hc, fun h => ht.2 (.child hc h)⟩
  · exact fun w b ht _ => ⟨ht.1.within (within_body w b), fun h => ht.2 (.body h)⟩
  · exact fun b ht _ => absurd (.here rfl) ht.2
  · exact fun w b _ hw hx => ⟨hw, hx.symm⟩

/-- A replacement that meets no snag does not tangle a type. -/
theorem tangled_substitute {t : Ty} (ht : Setting old new t) (hs : ¬Snag old t)
    (hm : ∀ x, Layer x t → ¬IsMarked x.name) (h : Tangled (t.substitute old new)) :
    Tangled t := by
  refine atLayer_substitute (C := fun t => Setting old new t ∧ ¬Snag old t ∧
    ∀ x, Layer x t → ¬IsMarked x.name) ?_ ?_ ?_ ?_ ?_ ⟨ht, hs, hm⟩ h
  · exact fun t ht => ht.1
  · rintro t ⟨ht, hs, hm⟩ c hc
    exact ⟨ht.entered hc, fun h => hs (.child (mem_children_of_mem_entered hc) h),
      fun x hx => hm x (.child hc hx)⟩
  · rintro w b ⟨ht, hs, hm⟩ hw
    exact ⟨ht.within (within_body w b), fun h => hs (.body hw h), fun x hx => hm x (.body hx)⟩
  · exact fun b _ h => h
  · rintro w b ⟨ht, hs, hm⟩ hw h
    have hwt : Mentions w (w.over b) := mentions_over.mpr (.inl rfl)
    exact snag_substitute (ht.within (within_body w b)) (fun h => hs (.body hw h)) (ht.vars w hwt)
      (ht.toTy hwt).fresh hw (hm w (.here rfl)) h

theorem Counted.substitute {t : Ty} (ht : Counted t) (hnew : Counted new.toTy) :
    Counted (t.substitute old new) := by
  refine everywhere_substitute (P := IsCounted) (fun t ht => ?_) hnew ht
  have hc := ht.node
  cases t with
  | vararg element count =>
    cases count with
    | var w =>
      obtain ⟨w', hw'⟩ := exists_substitute_toTy old new w
      rw [substitute_vararg_toTy, hw']
      trivial
    | value scalar => trivial
    | _ => cases hc
  | var w =>
    rw [substitute_toTy]
    split <;> trivial
  | layer w b =>
    rw [substitute_over]
    split <;> trivial
  | _ => trivial

theorem Renames.isCounted {t t' : Ty} {k k' : Nat} (h : Renames t k t' k') (ht : IsCounted t) :
    IsCounted t' := by
  revert ht
  refine h.induct (P := fun t _ t' _ => IsCounted t → IsCounted t') ?leaf ?_ ?_ ?_ ?vararg ?_
  case leaf =>
    intro t k _ ht
    exact ht
  case vararg =>
    intro e c k e' k' _ _ ht
    cases c with
    | var w => trivial
    | value scalar => trivial
    | _ => cases ht
  all_goals
    intros
    trivial

theorem Renames.counted {t t' : Ty} {k k' : Nat} (h : Renames t k t' k') (ht : Counted t) :
    Counted t' :=
  h.everywhere (P := IsCounted) (fun hr ht => hr.isCounted ht.node) (fun _ _ _ _ => trivial)
    (fun hv' _ hb => Counted.substitute hb hv') ht

theorem Renames.sound_toTy {v v' : TypeVar} {k k₁ k₂ : Nat} (hl : Renames v.lower k v'.lower k₁)
    (hu : Renames v.upper k₁ v'.upper k₂) (hv : Sound v.toTy) : Sound v'.toTy := by
  obtain ⟨hn, hsl, hsu⟩ := Ty.sound_toTy.mp hv
  exact Ty.sound_toTy.mpr ⟨hl.isExact_toTy hu hn, hl.sound hsl, hu.sound hsu⟩

theorem Renames.varsSound {t t' : Ty} {k k' : Nat} (h : Renames t k t' k') (ht : VarsSound t) :
    VarsSound t' := by
  revert ht
  refine h.induct (P := fun t _ t' _ => VarsSound t → VarsSound t') ?leaf ?nominal ?tuple ?union
    ?vararg ?layer
  case leaf =>
    intro t k _ ht
    exact ht
  case nominal =>
    intro name ps k ps' k' h ht x hx
    obtain ⟨p', hp', hx⟩ := mentions_nominal.mp hx
    obtain ⟨p, hp, _, _, _, _, -, hs⟩ := h.exists_of_mem hp'
    exact hs (ht.within (.child hp)) x hx
  case tuple =>
    intro ps k ps' k' h ht x hx
    obtain ⟨p', hp', hx⟩ := mentions_tuple.mp hx
    obtain ⟨p, hp, _, _, _, _, -, hs⟩ := h.exists_of_mem hp'
    exact hs (ht.within (.child hp)) x hx
  case union =>
    intro ms k ms' k' h ht x hx
    obtain ⟨m', hm', hx⟩ := mentions_unionOf hx
    obtain ⟨m, hm, _, _, _, _, -, hs⟩ := h.exists_of_mem hm'
    exact hs (ht.within (.child hm)) x hx
  case vararg =>
    intro e c k e' k' _ hs ht x hx
    obtain hx | hx := mentions_vararg.mp hx
    · exact hs (ht.within (.part (by simp) .refl)) x hx
    · exact ht x (mentions_vararg.mpr (.inr hx))
  case layer =>
    intro v v' b k k₁ k₂ b' k' _ hrl hru _ hl hu hb ht x hx
    have hv' : Sound v'.toTy := hrl.sound_toTy hru (ht v (mentions_over.mpr (.inl rfl)))
    have hb' := hb ((ht.within (within_body v b)).substitute hv')
    obtain rfl | hx | hx | hx := mentions_over.mp hx
    · exact hv'
    · exact hv'.varsSound x (mentions_toTy.mpr (.inr (.inl hx)))
    · exact hv'.varsSound x (mentions_toTy.mpr (.inr (.inr hx)))
    · exact hb' x hx

/-- A type that a renaming can start from or comes to on its way: its layers have no marks yet,
and what is free in it comes from layers renamed before. -/
structure Ready (k : Nat) (t : Ty) : Prop where
  vars : VarsSound t
  counted : Counted t
  unissued : Unissued k t
  untangled : ¬Tangled t
  unmarked : ∀ x, Layer x t → ¬IsMarked x.name
  settled : ∀ x, Free x t → AllMarked x.toTy

theorem Ready.mono {j k : Nat} {t : Ty} (h : Ready j t) (hjk : j ≤ k) : Ready k t :=
  { h with unissued := h.unissued.mono hjk }

theorem Ready.child {k : Nat} {t c : Ty} (h : Ready k t) (hc : c ∈ t.entered) : Ready k c := by
  have hmem := mem_children_of_mem_entered hc
  have hin : Within c t := .child hmem
  exact ⟨h.vars.within hin, h.counted.within hin, h.unissued.within hin,
    fun ht => h.untangled (.child hc ht), fun x hx => h.unmarked x (.child hc hx),
    fun x hx => h.settled x (.child hmem hx)⟩

theorem isMarked_mark (name : String) (k : Nat) : IsMarked (mark name k) := by
  have h : "##".toList = ['#', '#'] := by decide
  simp only [IsMarked, mark, String.toList_append, h, List.append_assoc]
  exact List.prefix_append _ _

section Layers

variable {k k₁ k₂ : Nat} {v v' : TypeVar} {b : Ty}

theorem unissued_toTy (h : Unissued k (v.over b)) (hname : v'.name = mark v.name k)
    (hl : Renames v.lower (k + 1) v'.lower k₁) (hu : Renames v.upper k₁ v'.upper k₂) :
    Unissued k₂ v'.toTy := by
  have hkl := hl.named.le
  have hku := hu.named.le
  have hlower : Unissued k v.lower := h.within (.part (by simp) .refl)
  have hupper : Unissued k v.upper := h.within (.part (by simp) .refl)
  intro w hw k' hd
  obtain rfl | hw | hw := mentions_toTy.mp hw
  · have hd' : Drawn k k₂ v'.name := ⟨v.name, k, Nat.le_refl k, by omega, hname⟩
    exact hd'.disjoint hd (Nat.le_refl k₂)
  · exact (hl.named.unissued (hlower.mono (by omega))).mono hku w hw k' hd
  · exact hu.named.unissued (hupper.mono (by omega)) w hw k' hd

theorem unissued_substitute (h : Unissued k (v.over b)) (hname : v'.name = mark v.name k)
    (hl : Renames v.lower (k + 1) v'.lower k₁) (hu : Renames v.upper k₁ v'.upper k₂) :
    Unissued k₂ (b.substitute v v') := by
  have hkl := hl.named.le
  have hku := hu.named.le
  intro x hx k' hd
  obtain ⟨w, hw, he⟩ | ⟨w, hw, he⟩ := exists_name_of_mentions_substitute hx
  · exact h w (mentions_over.mpr (.inr (.inr (.inr hw)))) k'
      (he ▸ hd.mono (by omega) (Nat.le_refl k'))
  · exact unissued_toTy h hname hl hu w hw k' (he ▸ hd)

theorem allMarked_toTy (hname : v'.name = mark v.name k) (hml : AllMarked v'.lower)
    (hmu : AllMarked v'.upper) : AllMarked v'.toTy := by
  intro x hx
  obtain rfl | hx | hx := mentions_toTy.mp hx
  · rw [hname]
    exact isMarked_mark v.name k
  · exact hml x hx
  · exact hmu x hx

theorem setting_of_renames (hvars : VarsSound (v.over b)) (hcount : Counted (v.over b))
    (hk : Unissued k (v.over b)) (hname : v'.name = mark v.name k)
    (hl : Renames v.lower (k + 1) v'.lower k₁) (hu : Renames v.upper k₁ v'.upper k₂)
    (hml : AllMarked v'.lower) (hmu : AllMarked v'.upper) : Setting v v' b := by
  have hin : Within b (v.over b) := within_body v b
  have hv := hvars v (mentions_over.mpr (.inl rfl))
  refine ⟨hv, hl.sound_toTy hu hv, allMarked_toTy hname hml hmu, hvars.within hin,
    hcount.within hin, fun w hw he => ?_⟩
  exact hk.within hin w hw (k + 1) ⟨v.name, k, Nat.le_refl k, by omega, he.trans hname⟩

theorem counted_substitute (hcount : Counted (v.over b))
    (hl : Renames v.lower (k + 1) v'.lower k₁) (hu : Renames v.upper k₁ v'.upper k₂) :
    Counted (b.substitute v v') := by
  obtain ⟨-, hcl, hcu, hcb⟩ := everywhere_over.mp hcount
  have hcv : Counted v'.toTy := everywhere_toTy.mpr ⟨trivial, hl.counted hcl, hu.counted hcu⟩
  exact Counted.substitute hcb hcv

variable (h : Ready k (v.over b)) (hset : Setting v v' b)
  (hfl : ∀ x, Free x v'.lower → Free x v.lower) (hfu : ∀ x, Free x v'.upper → Free x v.upper)

include h hset hfl hfu

theorem Ready.free_body {x : TypeVar} (hx : Free x (b.substitute v v')) :
    x = v' ∨ Free x (v.over b) := by
  have hsnag : ¬Snag v b := fun hs => h.untangled (.here hs)
  obtain hx | ⟨w, hw, hwv, rfl, -⟩ := free_substitute hset.oldSound hset.vars hset.counted hsnag hx
  · obtain he | hx | hx := free_toTy.mp hx
    · exact .inl he.symm
    · exact .inr (free_over.mpr (.inl (hfl x hx)))
    · exact .inr (free_over.mpr (.inr (.inl (hfu x hx))))
  · have hfree : Free w (v.over b) := .body hwv hw
    have hnot : ¬Free v w.toTy := fun hf =>
      h.unmarked v (.here rfl) (h.settled w hfree v hf.mentions)
    rw [replace_of_not_free hset.oldSound (h.vars w hfree.mentions) hnot]
    exact .inr hfree

theorem Ready.body (hname : v'.name = mark v.name k)
    (hl : Renames v.lower (k + 1) v'.lower k₁) (hu : Renames v.upper k₁ v'.upper k₂) :
    Ready k₂ (b.substitute v v') := by
  have hsnag : ¬Snag v b := fun hs => h.untangled (.here hs)
  have hlayers : ∀ x, Layer x b → ¬IsMarked x.name := fun x hx => h.unmarked x (.body hx)
  refine ⟨hset.vars.substitute hset.newSound, counted_substitute h.counted hl hu,
    unissued_substitute h.unissued hname hl hu, ?_, ?_, ?_⟩
  · intro ht
    exact h.untangled (.body (tangled_substitute hset hsnag hlayers ht))
  · intro x hx
    obtain ⟨w, hw, he⟩ := exists_layer_name hset hx
    exact he ▸ hlayers w hw
  · intro x hx
    obtain rfl | hx := h.free_body hset hfl hfu hx
    · exact hset.marked
    · exact h.settled x hx

end Layers

/-- All names are new after the renaming of a type that is ready for it, and nothing is free that
was not free before. -/
def Settles (t : Ty) (k : Nat) (t' : Ty) (_ : Nat) : Prop :=
  Ready k t → AllMarked t' ∧ ∀ x, Free x t' → Free x t

theorem RenamesAll.settles {t t' : Ty} {ts ts' : List Ty} {k k' : Nat}
    (h : RenamesAll Settles ts k ts' k') (ht : Ready k t) (hts : t.entered = ts)
    (hmentions : ∀ x, Mentions x t' → ∃ p ∈ ts', Mentions x p)
    (hfree : ∀ x, Free x t' → ∃ p ∈ ts', Free x p) :
    AllMarked t' ∧ ∀ x, Free x t' → Free x t := by
  subst hts
  constructor
  · intro x hx
    obtain ⟨p', hp', hx⟩ := hmentions x hx
    obtain ⟨p, hp, j, j', hj, _, _, hP⟩ := h.exists_of_mem hp'
    exact (hP ((ht.child hp).mono hj)).1 x hx
  · intro x hx
    obtain ⟨p', hp', hx⟩ := hfree x hx
    obtain ⟨p, hp, j, j', hj, _, _, hP⟩ := h.exists_of_mem hp'
    exact .child (mem_children_of_mem_entered hp) ((hP ((ht.child hp).mono hj)).2 x hx)

theorem Renames.settles {t t' : Ty} {k k' : Nat} (h : Renames t k t' k') (ht : Ready k t) :
    AllMarked t' ∧ ∀ x, Free x t' → Free x t := by
  revert ht
  refine h.induct (P := Settles) ?leaf ?nominal ?tuple ?union ?vararg ?layer
  case leaf =>
    intro t k hleaf ht
    refine ⟨fun x hx => ?_, fun x hx => hx⟩
    cases t with
    | var w => exact ht.settled w .here x hx
    | symbol name => exact absurd hx not_mentions_symbol
    | bareName name => exact absurd hx not_mentions_bareName
    | value scalar => exact absurd hx not_mentions_value
    | _ => cases hleaf
  case nominal =>
    intro name ps k ps' k' h ht
    exact h.settles ht rfl (fun _ => mentions_nominal.mp) fun _ => free_nominal.mp
  case tuple =>
    intro ps k ps' k' h ht
    exact h.settles ht rfl (fun _ => mentions_tuple.mp) fun _ => free_tuple.mp
  case union =>
    intro ms k ms' k' h ht
    exact h.settles ht rfl (fun _ => mentions_unionOf) fun _ => free_unionOf
  case vararg =>
    intro e c k e' k' _ hP ht
    obtain ⟨hm, hf⟩ := hP (ht.child List.mem_cons_self)
    constructor
    · intro x hx
      obtain hx | hx := mentions_vararg.mp hx
      · exact hm x hx
      · cases c with
        | var w => exact ht.settled w (free_vararg.mpr (.inr .here)) x hx
        | value scalar => exact absurd hx not_mentions_value
        | _ => cases ht.counted.node
    · intro x hx
      exact free_vararg.mpr ((free_vararg.mp hx).imp_left (hf x))
  case layer =>
    intro v v' b k k₁ k₂ b' k' hname hl hu hb hPl hPu hPb ht
    have hkl := hl.named.le
    have hku := hu.named.le
    obtain ⟨hml, hfl⟩ := hPl ((ht.child (List.mem_pair.mpr (.inl rfl))).mono (by omega))
    obtain ⟨hmu, hfu⟩ := hPu ((ht.child (List.mem_pair.mpr (.inr rfl))).mono (by omega))
    have hset := setting_of_renames ht.vars ht.counted ht.unissued hname hl hu hml hmu
    obtain ⟨hmb, hfb⟩ := hPb (ht.body hset hfl hfu hname hl hu)
    constructor
    · intro x hx
      obtain hx | hx | hx | hx := mentions_over.mp hx
      · exact hset.marked x (mentions_toTy.mpr (.inl hx))
      · exact hml x hx
      · exact hmu x hx
      · exact hmb x hx
    · intro x hx
      obtain hx | hx | ⟨hne, hx⟩ := free_over.mp hx
      · exact free_over.mpr (.inl (hfl x hx))
      · exact free_over.mpr (.inr (.inl (hfu x hx)))
      · exact (ht.free_body hset hfl hfu (hfb x hx)).resolve_left hne

end Anatomy.Ty
