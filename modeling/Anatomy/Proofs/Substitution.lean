import Mathlib.Data.List.Nodup
import Anatomy.Ty.Refresh
import Anatomy.Proofs.Members
import Anatomy.Proofs.Scope

namespace Anatomy

def TypeVar.replace (w old new : TypeVar) : TypeVar :=
  ⟨w.name, w.lower.substitute old new, w.upper.substitute old new⟩

namespace Ty

theorem Sound.within {s t : Ty} (h : Sound t) (hs : Within s t) : Sound s :=
  ⟨h.exact.within hs, h.canonical.within hs⟩

theorem Sound.part {t p : Ty} (h : Sound t) (hp : p ∈ t.parts) : Sound p :=
  h.within (.part hp .refl)

theorem sound_toTy {v : TypeVar} :
    Sound v.toTy ↔ IsExact v.toTy ∧ Sound v.lower ∧ Sound v.upper := by
  constructor
  · intro h
    exact ⟨h.exact.node, h.part (by simp), h.part (by simp)⟩
  · rintro ⟨hv, hl, hu⟩
    exact ⟨everywhere_toTy.mpr ⟨hv, hl.exact, hu.exact⟩,
      everywhere_toTy.mpr ⟨trivial, hl.canonical, hu.canonical⟩⟩

theorem sound_over {v : TypeVar} {b : Ty} :
    Sound (v.over b) ↔ Sound v.toTy ∧ b.isNumber = false ∧ Sound b := by
  constructor
  · intro h
    obtain ⟨hv, hb⟩ := isExact_over.mp h.exact.node
    refine ⟨sound_toTy.mpr ⟨hv, ?_, ?_⟩, hb, h.part (mem_parts_over v b)⟩
    · exact h.part (by simp)
    · exact h.part (by simp)
  · rintro ⟨hv, hn, hb⟩
    obtain ⟨hv, hl, hu⟩ := sound_toTy.mp hv
    exact ⟨everywhere_over.mpr ⟨isExact_over.mpr ⟨hv, hn⟩, hl.exact, hu.exact, hb.exact⟩,
      everywhere_over.mpr ⟨trivial, hl.canonical, hu.canonical, hb.canonical⟩⟩

/-- The variables of a type are such that equality among them is identity. -/
def VarsSound (t : Ty) : Prop :=
  ∀ v, Mentions v t → Sound v.toTy

theorem Sound.varsSound {t : Ty} (h : Sound t) : VarsSound t := by
  rintro v ⟨s, hs, hv⟩
  have hsound := h.within hs
  cases s with
  | var w =>
    obtain rfl : w = v := by simpa using hv
    exact hsound
  | layer w b =>
    obtain rfl : w = v := by simpa using hv
    exact (sound_over.mp hsound).1
  | _ => cases hv

theorem VarsSound.within {s t : Ty} (h : VarsSound t) (hs : Within s t) : VarsSound s :=
  fun v hv => h v (hv.within hs)

section Equations

variable {old new w : TypeVar}

theorem substituteAll_eq_map (ts : List Ty) :
    substituteAll old new ts = ts.map (substitute old new) := by
  induction ts with
  | nil => rfl
  | cons t ts ih => exact congrArg (t.substitute old new :: ·) ih

theorem substitute_nominal (name : TypeName) (params : List Ty) :
    substitute old new (.nominal name params) =
      .nominal name (params.map (substitute old new)) :=
  congrArg (Ty.nominal name) (substituteAll_eq_map params)

theorem substitute_tuple (params : List Ty) :
    substitute old new (.tuple params) = .tuple (params.map (substitute old new)) :=
  congrArg Ty.tuple (substituteAll_eq_map params)

theorem substitute_union (members : List Ty) :
    substitute old new (.union members) = unionOf (members.map (substitute old new)) :=
  congrArg unionOf (substituteAll_eq_map members)

theorem substitute_toTy (old new w : TypeVar) :
    substitute old new w.toTy =
      if same w.toTy old.toTy then new.toTy else (w.replace old new).toTy := rfl

theorem substitute_over (old new w : TypeVar) (b : Ty) :
    substitute old new (w.over b) =
      if same w.toTy old.toTy then w.over b
      else (w.replace old new).over (substitute old new b) := rfl

theorem substitute_toTy_self (ho : Exact old.toTy) : substitute old new old.toTy = new.toTy := by
  rw [substitute_toTy, if_pos ((same_iff ho ho).mpr rfl)]

theorem substitute_toTy_of_ne (ho : Exact old.toTy) (hw : Exact w.toTy) (h : w ≠ old) :
    substitute old new w.toTy = (w.replace old new).toTy := by
  have h : ¬same w.toTy old.toTy = true := by rwa [same_iff hw ho, TypeVar.toTy_inj]
  rw [substitute_toTy, if_neg h]

theorem substitute_over_self (ho : Exact old.toTy) (b : Ty) :
    substitute old new (old.over b) = old.over b := by
  rw [substitute_over, if_pos ((same_iff ho ho).mpr rfl)]

theorem substitute_over_of_ne (ho : Exact old.toTy) (hw : Exact w.toTy) (h : w ≠ old) (b : Ty) :
    substitute old new (w.over b) = (w.replace old new).over (substitute old new b) := by
  have h : ¬same w.toTy old.toTy = true := by rwa [same_iff hw ho, TypeVar.toTy_inj]
  rw [substitute_over, if_neg h]

theorem exists_substitute_toTy (old new w : TypeVar) :
    ∃ w' : TypeVar, w.toTy.substitute old new = w'.toTy := by
  rw [substitute_toTy]
  split
  · exact ⟨new, rfl⟩
  · exact ⟨w.replace old new, rfl⟩

theorem substitute_vararg_toTy (element : Ty) (w : TypeVar) :
    substitute old new (.vararg element w.toTy) =
      .vararg (element.substitute old new) (w.toTy.substitute old new) := rfl

theorem substitute_vararg_of_ne (element : Ty) {count : Ty} (h : ∀ w : TypeVar, count ≠ w.toTy) :
    substitute old new (.vararg element count) = .vararg (element.substitute old new) count := by
  cases count with
  | var w => exact absurd rfl (h w)
  | _ => rfl

/-- Only a variable is replaced in a count. -/
theorem substitute_vararg (old new : TypeVar) (element count : Ty) :
    (∃ w : TypeVar, count = w.toTy) ∧ substitute old new (.vararg element count) =
        .vararg (element.substitute old new) (count.substitute old new) ∨
      (∀ w : TypeVar, count ≠ w.toTy) ∧ substitute old new (.vararg element count) =
        .vararg (element.substitute old new) count := by
  by_cases hc : ∃ w : TypeVar, count = w.toTy
  · obtain ⟨w, rfl⟩ := hc
    exact .inl ⟨⟨w, rfl⟩, substitute_vararg_toTy element w⟩
  · have hc := not_exists.mp hc
    exact .inr ⟨hc, substitute_vararg_of_ne element hc⟩

end Equations

/-- A member of a rebuilt union is one of the types that it is built of or a member of one. -/
theorem exists_of_mem_canonicalMembers {t : Ty} {ts : List Ty} (h : t ∈ canonicalMembers ts) :
    ∃ u ∈ ts, t = u ∨ u.isUnion = true ∧ t ∈ u.children := by
  obtain ⟨h, -⟩ | ⟨members, hm, h⟩ := mem_of_mem_flatten (mem_flatten_of_mem_canonicalMembers h)
  · exact ⟨t, h, .inl rfl⟩
  · exact ⟨_, hm, .inr ⟨rfl, h⟩⟩

theorem within_of_mem_canonicalMembers {t : Ty} {ts : List Ty} (h : t ∈ canonicalMembers ts) :
    ∃ u ∈ ts, Within t u := by
  obtain ⟨u, hu, rfl | ⟨-, h⟩⟩ := exists_of_mem_canonicalMembers h
  · exact ⟨t, hu, .refl⟩
  · exact ⟨u, hu, .child h⟩

theorem Everywhere.unionOf {P : Ty → Prop} {ts : List Ty} (hnode : P (unionOf ts))
    (h : ∀ t ∈ ts, Everywhere P t) : Everywhere P (unionOf ts) := by
  refine everywhere_union.mpr ⟨hnode, fun m hm => ?_⟩
  obtain ⟨u, hu, hw⟩ := within_of_mem_canonicalMembers hm
  exact (h u hu).within hw

variable {old new : TypeVar}

theorem everywhere_substitute {P : Ty → Prop}
    (hP : ∀ t, Everywhere P t → P (t.substitute old new))
    (hnew : Everywhere P new.toTy) {t : Ty} (ht : Everywhere P t) :
    Everywhere P (t.substitute old new) := by
  have hnode := hP t ht
  induction t with
  | nominal name params ih =>
    rw [substitute_nominal] at hnode ⊢
    refine everywhere_nominal.mpr ⟨hnode, List.forall_mem_map.mpr fun p hp => ?_⟩
    have hp' := (everywhere_nominal.mp ht).2 p hp
    exact ih p hp hp' (hP p hp')
  | tuple params ih =>
    rw [substitute_tuple] at hnode ⊢
    refine everywhere_tuple.mpr ⟨hnode, List.forall_mem_map.mpr fun p hp => ?_⟩
    have hp' := (everywhere_tuple.mp ht).2 p hp
    exact ih p hp hp' (hP p hp')
  | union members ih =>
    rw [substitute_union] at hnode ⊢
    refine .unionOf hnode (List.forall_mem_map.mpr fun m hm => ?_)
    have hm' := (everywhere_union.mp ht).2 m hm
    exact ih m hm hm' (hP m hm')
  | var w ihl ihu =>
    obtain ⟨-, hl, hu⟩ := everywhere_toTy.mp ht
    rw [substitute_toTy] at hnode ⊢
    split at hnode
    · next hs =>
      rw [if_pos hs]
      exact hnew
    · next hs =>
      rw [if_neg hs]
      exact everywhere_toTy.mpr
        ⟨hnode, ihl hl (hP _ hl), ihu hu (hP _ hu)⟩
  | layer w b ihl ihu ihb =>
    obtain ⟨-, hl, hu, hb⟩ := everywhere_over.mp ht
    rw [substitute_over] at hnode ⊢
    split at hnode
    · next hs =>
      rw [if_pos hs]
      exact ht
    · next hs =>
      rw [if_neg hs]
      exact everywhere_over.mpr
        ⟨hnode, ihl hl (hP _ hl), ihu hu (hP _ hu), ihb hb (hP _ hb)⟩
  | vararg element count ihe ihc =>
    obtain ⟨-, he, hc⟩ := everywhere_vararg.mp ht
    obtain ⟨-, hsub⟩ | ⟨-, hsub⟩ := substitute_vararg old new element count
    · rw [hsub] at hnode ⊢
      exact everywhere_vararg.mpr ⟨hnode, ihe he (hP _ he), ihc hc (hP _ hc)⟩
    · rw [hsub] at hnode ⊢
      exact everywhere_vararg.mpr ⟨hnode, ihe he (hP _ he), hc⟩
  | symbol name => exact ht
  | bareName name => exact ht
  | value scalar => exact ht

theorem isUnion_substitute (t : Ty) : (t.substitute old new).isUnion = t.isUnion := by
  cases t with
  | var w =>
    rw [substitute_toTy]
    split <;> rfl
  | layer w b =>
    rw [substitute_over]
    split <;> rfl
  | _ => rfl

theorem isNumber_substitute (t : Ty) : (t.substitute old new).isNumber = t.isNumber := by
  cases t with
  | var w =>
    rw [substitute_toTy]
    split <;> rfl
  | layer w b =>
    rw [substitute_over]
    split <;> rfl
  | _ => rfl

theorem isExact_substitute (hnew : IsExact new.toTy) {t : Ty} (ht : IsExact t) :
    IsExact (t.substitute old new) := by
  cases t with
  | var w =>
    have hw := isExact_toTy.mp ht
    rw [substitute_toTy]
    split
    · exact hnew
    · refine isExact_toTy.mpr ?_
      exact ⟨(isNumber_substitute _).trans hw.1, (isNumber_substitute _).trans hw.2⟩
  | layer w b =>
    obtain ⟨hw, hb⟩ := isExact_over.mp ht
    have hw := isExact_toTy.mp hw
    rw [substitute_over]
    split
    · exact ht
    · refine isExact_over.mpr
        ⟨isExact_toTy.mpr ?_, (isNumber_substitute _).trans hb⟩
      exact ⟨(isNumber_substitute _).trans hw.1, (isNumber_substitute _).trans hw.2⟩
  | _ => exact ⟨ht.defined, ht.unsigned, fun h => nomatch h⟩

theorem Exact.substitute {t : Ty} (ht : Exact t) (hnew : Exact new.toTy) :
    Exact (t.substitute old new) :=
  everywhere_substitute (P := IsExact) (fun _ h => isExact_substitute hnew.node h.node) hnew ht

theorem sound_iff {t : Ty} : Sound t ↔ Everywhere (fun s => IsExact s ∧ IsCanonical s) t := by
  constructor
  · intro h s hs
    exact ⟨h.exact s hs, h.canonical s hs⟩
  · intro h
    exact ⟨fun s hs => (h s hs).1, fun s hs => (h s hs).2⟩

theorem Sound.substitute {t : Ty} (ht : Sound t) (hnew : Sound new.toTy) :
    Sound (t.substitute old new) := by
  refine sound_iff.mpr (everywhere_substitute ?_ (sound_iff.mp hnew) (sound_iff.mp ht))
  intro t ht
  have ht := sound_iff.mpr ht
  refine ⟨isExact_substitute hnew.exact.node ht.exact.node, ?_⟩
  cases t with
  | union members =>
    rw [substitute_union]
    refine isCanonical_unionOf (List.forall_mem_map.mpr fun m hm => ?_)
    rw [isUnion_substitute]
    exact ht.canonical.flat m hm
  | var w =>
    rw [substitute_toTy]
    split <;> trivial
  | layer w b =>
    rw [substitute_over]
    split <;> trivial
  | _ => trivial

theorem Sound.replace {w : TypeVar} (hw : Sound w.toTy) (hnew : Sound new.toTy) :
    Sound (w.replace old new).toTy := by
  obtain ⟨hb, hl, hu⟩ := sound_toTy.mp hw
  have hb := isExact_toTy.mp hb
  refine sound_toTy.mpr ⟨isExact_toTy.mpr ?_, hl.substitute hnew, hu.substitute hnew⟩
  exact ⟨(isNumber_substitute _).trans hb.1, (isNumber_substitute _).trans hb.2⟩

theorem substitute_of_not_free (hold : Sound old.toTy) {t : Ty} (ht : Sound t)
    (h : ¬Free old t) : t.substitute old new = t := by
  induction t with
  | nominal name params ih =>
    have hp : ∀ p ∈ params, p.substitute old new = p := fun p hp =>
      ih p hp (ht.part (mem_parts_of_mem_children hp)) fun hf => h (.child hp hf)
    rw [substitute_nominal, List.map_congr_left hp, List.map_id']
  | tuple params ih =>
    have hp : ∀ p ∈ params, p.substitute old new = p := fun p hp =>
      ih p hp (ht.part (mem_parts_of_mem_children hp)) fun hf => h (.child hp hf)
    rw [substitute_tuple, List.map_congr_left hp, List.map_id']
  | union members ih =>
    have hm : ∀ m ∈ members, m.substitute old new = m := fun m hm =>
      ih m hm (ht.member hm) fun hf => h (.child hm hf)
    have hcanon : canonicalMembers members = members := ht.canonical.node
    rw [substitute_union, List.map_congr_left hm, List.map_id', unionOf, hcanon]
  | var w ihl ihu =>
    obtain ⟨-, hl, hu⟩ := sound_toTy.mp ht
    rw [free_toTy, not_or, not_or] at h
    rw [substitute_toTy_of_ne hold.exact ht.exact h.1, TypeVar.replace, ihl hl h.2.1, ihu hu h.2.2]
  | layer w b ihl ihu ihb =>
    obtain ⟨hw, -, hb⟩ := sound_over.mp ht
    obtain ⟨-, hl, hu⟩ := sound_toTy.mp hw
    rw [free_over, not_or, not_or, not_and] at h
    by_cases hwo : w = old
    · rw [hwo, substitute_over_self hold.exact]
    · rw [substitute_over_of_ne hold.exact hw.exact hwo, TypeVar.replace, ihl hl h.1,
        ihu hu h.2.1, ihb hb (h.2.2 (Ne.symm hwo))]
  | vararg element count ihe ihc =>
    rw [free_vararg, not_or] at h
    have he : Sound element := ht.part (by simp)
    have hc : Sound count := ht.part (by simp)
    obtain ⟨-, hsub⟩ | ⟨-, hsub⟩ := substitute_vararg old new element count
    · rw [hsub, ihe he h.1, ihc hc h.2]
    · rw [hsub, ihe he h.1]
  | symbol name => rfl
  | bareName name => rfl
  | value scalar => rfl

theorem replace_of_not_free (hold : Sound old.toTy) {w : TypeVar} (hw : Sound w.toTy)
    (h : ¬Free old w.toTy) : w.replace old new = w := by
  have hne : w ≠ old := fun he => h (he ▸ .here)
  have hsub : w.toTy.substitute old new = w.toTy := substitute_of_not_free hold hw h
  rwa [substitute_toTy_of_ne hold.exact hw.exact hne, TypeVar.toTy_inj] at hsub

/-- No variable of the type has the name of the new one. -/
def NameFree (name : String) (t : Ty) : Prop :=
  ∀ w, Mentions w t → w.name ≠ name

theorem NameFree.within {name : String} {s t : Ty} (h : NameFree name t) (hs : Within s t) :
    NameFree name s :=
  fun w hw => h w (hw.within hs)

theorem NameFree.not_free {v : TypeVar} {t : Ty} (h : NameFree v.name t) : ¬Free v t :=
  fun hv => h v hv.mentions rfl

/-- If the members can be told from what they become they are only put in order. -/
theorem perm_of_inverse {members : List Ty} (ht : Sound (.union members)) (hnew : Sound new.toTy)
    {f : Ty → Ty} (hf : ∀ m ∈ members, f (m.substitute old new) = m) :
    (canonicalMembers (members.map (substitute old new))).Perm
      (members.map (substitute old new)) := by
  refine canonicalMembers_perm (List.forall_mem_map.mpr fun m hm => ?_)
    (List.forall_mem_map.mpr fun m hm => ?_) (ht.nodup.map_on fun a ha b hb hab => ?_)
  · rw [isUnion_substitute]
    exact ht.canonical.flat m hm
  · exact (ht.member hm).exact.substitute hnew.exact
  · rw [← hf a ha, ← hf b hb, hab]

theorem map_map_of_inverse {f g : Ty → Ty} {ts : List Ty} (h : ∀ t ∈ ts, g (f t) = t) :
    (ts.map f).map g = ts := by
  rw [List.map_map]
  exact List.map_congr_left h |>.trans (List.map_id ts)

theorem substitute_substitute (hold : Sound old.toTy) (hnew : Sound new.toTy) {t : Ty}
    (ht : Sound t) (hfresh : NameFree new.name t) :
    (t.substitute old new).substitute new old = t := by
  induction t with
  | nominal name params ih =>
    have hp : ∀ p ∈ params, (p.substitute old new).substitute new old = p := fun p hp =>
      have hw : Within p (.nominal name params) := .child hp
      ih p hp (ht.within hw) (hfresh.within hw)
    rw [substitute_nominal, substitute_nominal, map_map_of_inverse hp]
  | tuple params ih =>
    have hp : ∀ p ∈ params, (p.substitute old new).substitute new old = p := fun p hp =>
      have hw : Within p (.tuple params) := .child hp
      ih p hp (ht.within hw) (hfresh.within hw)
    rw [substitute_tuple, substitute_tuple, map_map_of_inverse hp]
  | union members ih =>
    have hm : ∀ m ∈ members, (m.substitute old new).substitute new old = m := fun m hm =>
      have hw : Within m (.union members) := .child hm
      ih m hm (ht.within hw) (hfresh.within hw)
    rw [substitute_union, unionOf, substitute_union, unionOf]
    -- The members are replaced, put in order, replaced back and put in order again.
    have hperm := (perm_of_inverse ht hnew hm).map (substitute new old)
    rw [map_map_of_inverse hm] at hperm
    refine congrArg Ty.union (canonicalMembers_eq_of_perm ?_ ?_ ?_ hperm ht.sorted)
    · intro t h
      exact ht.canonical.flat t (hperm.mem_iff.mp h)
    · intro t h
      exact (ht.member (hperm.mem_iff.mp h)).exact
    · exact hperm.nodup_iff.mpr ht.nodup
  | var w ihl ihu =>
    obtain ⟨-, hl, hu⟩ := sound_toTy.mp ht
    by_cases hwo : w = old
    · rw [hwo, substitute_toTy_self hold.exact, substitute_toTy_self hnew.exact]
    · have hwn : w.replace old new ≠ new := by
        intro he
        exact hfresh w (mentions_toTy.mpr (.inl rfl)) (he ▸ rfl)
      have hl' := ihl hl (hfresh.within (.part (by simp) .refl))
      have hu' := ihu hu (hfresh.within (.part (by simp) .refl))
      rw [substitute_toTy_of_ne hold.exact ht.exact hwo,
        substitute_toTy_of_ne hnew.exact (ht.replace hnew).exact hwn]
      simp only [TypeVar.replace, hl', hu']
  | layer w b ihl ihu ihb =>
    obtain ⟨hw, -, hb⟩ := sound_over.mp ht
    obtain ⟨-, hl, hu⟩ := sound_toTy.mp hw
    by_cases hwo : w = old
    · rw [hwo, substitute_over_self hold.exact, ← hwo]
      exact substitute_of_not_free hnew ht hfresh.not_free
    · have hwn : w.replace old new ≠ new := by
        intro he
        exact hfresh w (mentions_over.mpr (.inl rfl)) (he ▸ rfl)
      have hl' := ihl hl (hfresh.within (.part (by simp) .refl))
      have hu' := ihu hu (hfresh.within (.part (by simp) .refl))
      have hb' := ihb hb (hfresh.within (within_body w b))
      rw [substitute_over_of_ne hold.exact hw.exact hwo,
        substitute_over_of_ne hnew.exact (hw.replace hnew).exact hwn, hb']
      simp only [TypeVar.replace, hl', hu']
  | vararg element count ihe ihc =>
    have he := ihe (ht.part (by simp)) (hfresh.within (.part (by simp) .refl))
    have hc := ihc (ht.part (by simp)) (hfresh.within (.part (by simp) .refl))
    obtain ⟨⟨w, rfl⟩, hsub⟩ | ⟨hne, hsub⟩ := substitute_vararg old new element count
    · obtain ⟨w', hw'⟩ := exists_substitute_toTy old new w
      rw [hsub, hw', substitute_vararg_toTy, ← hw', he, hc]
    · rw [hsub, substitute_vararg_of_ne _ hne, he]
  | symbol name => rfl
  | bareName name => rfl
  | value scalar => rfl

theorem substitute_inj (hold : Sound old.toTy) (hnew : Sound new.toTy) {a b : Ty} (ha : Sound a)
    (hb : Sound b) (hfa : NameFree new.name a) (hfb : NameFree new.name b)
    (h : a.substitute old new = b.substitute old new) : a = b := by
  rw [← substitute_substitute hold hnew ha hfa, ← substitute_substitute hold hnew hb hfb, h]

theorem perm_substitute (hold : Sound old.toTy) (hnew : Sound new.toTy) {members : List Ty}
    (ht : Sound (.union members)) (hfresh : NameFree new.name (.union members)) :
    (canonicalMembers (members.map (substitute old new))).Perm
      (members.map (substitute old new)) := by
  refine perm_of_inverse ht hnew fun m hm => substitute_substitute hold hnew (ht.member hm) ?_
  exact hfresh.within (.child hm)

theorem mentions_unionOf {x : TypeVar} {ts : List Ty} (h : Mentions x (unionOf ts)) :
    ∃ t ∈ ts, Mentions x t := by
  obtain ⟨m, hm, hx⟩ := mentions_union.mp h
  obtain ⟨t, ht, hw⟩ := within_of_mem_canonicalMembers hm
  exact ⟨t, ht, hx.within hw⟩

/-- A variable of the result belongs to the new variable, or comes from one of the type, whose
bounds the replacement may have changed. -/
theorem mentions_substitute {x : TypeVar} {t : Ty} (h : Mentions x (t.substitute old new)) :
    Mentions x new.toTy ∨ ∃ w, Mentions w t ∧ (x = w ∨ x = w.replace old new) := by
  have hpart : ∀ {p t : Ty}, p ∈ t.parts →
      (Mentions x new.toTy ∨ ∃ w, Mentions w p ∧ (x = w ∨ x = w.replace old new)) →
      Mentions x new.toTy ∨ ∃ w, Mentions w t ∧ (x = w ∨ x = w.replace old new) := by
    rintro p t hp (h | ⟨w, hw, hx⟩)
    · exact .inl h
    · exact .inr ⟨w, hw.within (.part hp .refl), hx⟩
  induction t with
  | nominal name params ih =>
    rw [substitute_nominal, mentions_nominal] at h
    obtain ⟨_, hq, h⟩ := h
    obtain ⟨p, hp, rfl⟩ := List.mem_map.mp hq
    exact hpart (mem_parts_of_mem_children hp) (ih p hp h)
  | tuple params ih =>
    rw [substitute_tuple, mentions_tuple] at h
    obtain ⟨_, hq, h⟩ := h
    obtain ⟨p, hp, rfl⟩ := List.mem_map.mp hq
    exact hpart (mem_parts_of_mem_children hp) (ih p hp h)
  | union members ih =>
    rw [substitute_union] at h
    obtain ⟨_, hn, h⟩ := mentions_unionOf h
    obtain ⟨m, hm, rfl⟩ := List.mem_map.mp hn
    exact hpart (mem_parts_of_mem_children hm) (ih m hm h)
  | var w ihl ihu =>
    rw [substitute_toTy] at h
    split at h
    · exact .inl h
    · obtain hx | h | h := mentions_toTy.mp h
      · exact .inr ⟨w, mentions_toTy.mpr (.inl rfl), .inr hx.symm⟩
      · exact hpart (by simp) (ihl h)
      · exact hpart (by simp) (ihu h)
  | layer w b ihl ihu ihb =>
    rw [substitute_over] at h
    split at h
    · exact .inr ⟨x, h, .inl rfl⟩
    · obtain hx | h | h | h := mentions_over.mp h
      · exact .inr ⟨w, mentions_over.mpr (.inl rfl), .inr hx.symm⟩
      · exact hpart (by simp) (ihl h)
      · exact hpart (by simp) (ihu h)
      · exact hpart (mem_parts_over w b) (ihb h)
  | vararg element count ihe ihc =>
    obtain ⟨-, hsub⟩ | ⟨-, hsub⟩ := substitute_vararg old new element count
    · rw [hsub, mentions_vararg] at h
      obtain h | h := h
      · exact hpart (by simp) (ihe h)
      · exact hpart (by simp) (ihc h)
    · rw [hsub, mentions_vararg] at h
      obtain h | h := h
      · exact hpart (by simp) (ihe h)
      · exact .inr ⟨x, mentions_vararg.mpr (.inr h), .inl rfl⟩
  | symbol name => exact absurd h not_mentions_symbol
  | bareName name => exact absurd h not_mentions_bareName
  | value scalar => exact absurd h not_mentions_value

theorem exists_name_of_mentions_substitute {x : TypeVar} {t : Ty}
    (h : Mentions x (t.substitute old new)) :
    (∃ w, Mentions w t ∧ w.name = x.name) ∨ ∃ w, Mentions w new.toTy ∧ w.name = x.name := by
  obtain h | ⟨w, hw, rfl | rfl⟩ := mentions_substitute h
  · exact .inr ⟨x, h, rfl⟩
  · exact .inl ⟨x, hw, rfl⟩
  · exact .inl ⟨w, hw, rfl⟩

theorem VarsSound.substitute (hnew : Sound new.toTy) {t : Ty} (ht : VarsSound t) :
    VarsSound (t.substitute old new) := by
  intro x hx
  obtain h | ⟨w, hw, rfl | rfl⟩ := mentions_substitute hx
  · exact hnew.varsSound x h
  · exact ht x hw
  · exact (ht w hw).replace hnew

end Ty

end Anatomy
