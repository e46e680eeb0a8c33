import Anatomy.Proofs.Tangles

namespace Anatomy.Ty

variable {old new : TypeVar}

theorem child_substitute {t : Ty} (ht : Setting old new t) (hs : Sound t)
    (hold : t.typeVar? ≠ some old) {p : Ty} (hp : p ∈ t.children) :
    p.substitute old new ∈ (t.substitute old new).children := by
  cases t with
  | nominal name params =>
    rw [substitute_nominal]
    exact List.mem_map_of_mem hp
  | tuple params =>
    rw [substitute_tuple]
    exact List.mem_map_of_mem hp
  | union members =>
    rw [substitute_union]
    exact (perm_substitute ht.oldSound ht.newSound hs ht.fresh).mem_iff.mpr (List.mem_map_of_mem hp)
  | var w =>
    have hw : w ≠ old := fun h => hold (h ▸ rfl)
    rw [substitute_toTy_of_ne ht.oldSound.exact hs.exact hw]
    rw [children_toTy, List.mem_pair] at hp ⊢
    exact hp.imp (congrArg _) (congrArg _)
  | layer w b =>
    have hw : w ≠ old := fun h => hold (h ▸ rfl)
    rw [substitute_over_of_ne ht.oldSound.exact (sound_over.mp hs).1.exact hw]
    rw [children_over, List.mem_pair] at hp ⊢
    exact hp.imp (congrArg _) (congrArg _)
  | vararg element count =>
    rw [substitute_vararg_of_counted ht.counted.node]
    obtain rfl | rfl := List.mem_pair.mp hp
    · exact List.mem_cons_self
    · exact List.mem_cons_of_mem _ List.mem_cons_self
  | _ => cases hp

theorem Free.of_over {v u : TypeVar} {t : Ty} (hu : Free u t) (hv : Free v u.toTy) :
    Free v t ∨ Snag v t := by
  induction hu with
  | here => exact .inl hv
  | child hc _ ih => exact ih.imp (.child hc) (.child hc)
  | body hw hb ih =>
    rename_i w b
    by_cases hvw : w = v
    · subst hvw
      exact .inr (.here (.body hw hb) hv)
    · exact ih.imp (.body (Ne.symm hvw)) (.body hvw)

theorem Snag.exists_free {u : TypeVar} {t : Ty} (h : Snag u t) :
    ∃ w, Free w t ∧ Free u w.toTy := by
  induction h with
  | here hw hv => exact ⟨_, hw, hv⟩
  | child hc _ ih =>
    obtain ⟨w, hw, hu⟩ := ih
    exact ⟨w, .child hc hw, hu⟩
  | body hne _ ih =>
    rename_i w b _
    obtain ⟨y, hy, hu⟩ := ih
    by_cases hyw : y = w
    · -- The variable is bound here, but the bounds in front of the layer have `u` as well.
      subst hyw
      have hu := (free_toTy.mp hu).resolve_left hne
      exact ⟨u, free_over.mpr (hu.imp_right .inl), .here⟩
    · exact ⟨y, .body hyw hy, hu⟩

theorem mentions_new {t : Ty} (ht : Setting old new t) (hs : Sound t) (h : Free old t) :
    Mentions new (t.substitute old new) := by
  induction h with
  | here =>
    rw [substitute_toTy_self ht.oldSound.exact]
    exact mentions_toTy.mpr (.inl rfl)
  | child hc h ih =>
    rename_i t c
    have hin : Within c t := .child hc
    have hc' : c.substitute old new ∈ (t.substitute old new).children := by
      refine child_substitute ht hs (fun hv => ?_) hc
      exact not_mentions_of_typeVar? hv hc h.mentions
    exact (ih (ht.within hin) (hs.within hin)).within (.child hc')
  | body hv h ih =>
    rename_i v b
    have hin : Within b (v.over b) := within_body v b
    rw [substitute_over_of_ne ht.oldSound.exact (sound_over.mp hs).1.exact (Ne.symm hv)]
    exact mentions_over.mpr (.inr (.inr (.inr (ih (ht.within hin) (hs.within hin)))))

theorem replace_ne_self {w : TypeVar} (ht : Setting old new w.toTy) (hw : Sound w.toTy)
    (hwo : w ≠ old) (h : Free old w.toTy) : w.replace old new ≠ w := by
  intro he
  have hm := mentions_new ht hw h
  rw [substitute_toTy_of_ne ht.oldSound.exact hw.exact hwo, he] at hm
  exact ht.fresh new hm rfl

/-- If nothing is snagged every other free variable stays free, with the replacement made in its
bounds, unless it stands in the bounds of the old variable only. -/
theorem free_replace {t : Ty} (ht : Setting old new t) (hs : Sound t) (hsnag : ¬Snag old t)
    {x : TypeVar} (hx : Free x t) (hxo : ¬Free x old.toTy) :
    Free (x.replace old new) (t.substitute old new) := by
  have hne : x ≠ old := fun he => hxo (he ▸ .here)
  induction t using induct_parts with
  | _ t ih =>
    have hchild : ∀ c ∈ t.children, Free x c → t.typeVar? ≠ some old →
        Free (x.replace old new) (t.substitute old new) := by
      intro c hc hx hold
      have hin : Within c t := .child hc
      exact .child (child_substitute ht hs hold hc) (ih c (mem_parts_of_mem_children hc)
        (ht.within hin) (hs.within hin) (fun h => hsnag (.child hc h)) hx)
    cases t with
    | var w =>
      by_cases hwo : w = old
      · exact absurd (hwo ▸ hx) hxo
      · by_cases hxw : w = x
        · rw [substitute_toTy_of_ne ht.oldSound.exact hs.exact hwo, hxw]
          exact .here
        · obtain h | h := (free_toTy.mp hx).resolve_left hxw
          · exact hchild _ (by simp) h fun h => hwo (Option.some.inj h)
          · exact hchild _ (by simp) h fun h => hwo (Option.some.inj h)
    | layer w b =>
      have hin : Within b (w.over b) := within_body w b
      have hws := (sound_over.mp hs).1
      by_cases hwo : w = old
      · subst hwo
        have hnot : ¬Free w x.toTy := fun h => hsnag (.here hx h)
        rw [substitute_over_self ht.oldSound.exact,
          replace_of_not_free ht.oldSound (ht.vars x hx.mentions) hnot]
        exact hx
      · obtain h | h | ⟨hxw, h⟩ := free_over.mp hx
        · exact hchild _ (by simp) h fun h => hwo (Option.some.inj h)
        · exact hchild _ (by simp) h fun h => hwo (Option.some.inj h)
        · have hb := ih b (mem_parts_over w b) (ht.within hin) (hs.within hin)
            (fun h => hsnag (.body hwo h)) h
          have hxw' : x.replace old new ≠ w.replace old new := fun he =>
            hxw (replace_inj ht.oldSound ht.newSound (ht.vars x hx.mentions) hws
              (ht.toTy hx.mentions).fresh (ht.toTy (mentions_over.mpr (.inl rfl))).fresh hne hwo he)
          rw [substitute_over_of_ne ht.oldSound.exact hws.exact hwo]
          exact .body hxw' hb
    | _ =>
      obtain ⟨c, hc, h⟩ := (free_iff_of_typeVar?_eq_none rfl).mp hx
      exact hchild c hc h nofun

theorem exists_free_of_snag {t : Ty} (ht : Setting old new t) (hs : Sound t) (h : Snag old t) :
    ∃ w, Mentions w t ∧ Free w (t.substitute old new) ∧ Free old w.toTy ∧ w ≠ old := by
  induction h with
  | here hw hv =>
    rename_i w b
    have hne : w ≠ old := by
      rintro rfl
      obtain h | h | h := free_over.mp hw
      · exact (not_mentions_bounds w).1 h.mentions
      · exact (not_mentions_bounds w).2 h.mentions
      · exact h.1 rfl
    rw [substitute_over_self ht.oldSound.exact]
    exact ⟨w, hw.mentions, hw, hv, hne⟩
  | child hc h ih =>
    rename_i t c
    have hin : Within c t := .child hc
    obtain ⟨w, hw, hf, hv, hne⟩ := ih (ht.within hin) (hs.within hin)
    have hold : t.typeVar? ≠ some old := fun hv => not_mentions_of_typeVar? hv hc h.mentions
    exact ⟨w, hw.within hin, .child (child_substitute ht hs hold hc) hf, hv, hne⟩
  | body hyo h ih =>
    rename_i y b
    have hin : Within b (y.over b) := within_body y b
    have hyt : Mentions y (y.over b) := mentions_over.mpr (.inl rfl)
    have hys := (sound_over.mp hs).1
    obtain ⟨w, hw, hf, hv, hne⟩ := ih (ht.within hin) (hs.within hin)
    have hwt : Mentions w (y.over b) := hw.within hin
    have hwy : w ≠ y.replace old new := by
      intro he
      have hy := replace_eq_of_mentions ht.oldSound ht.newSound ht.fresh hys (ht.toTy hyt).fresh hyo
        (he ▸ hwt)
      have hold : Free old y.toTy := hy ▸ he ▸ hv
      exact replace_ne_self (ht.toTy hyt) hys hyo hold hy
    rw [substitute_over_of_ne ht.oldSound.exact hys.exact hyo]
    exact ⟨w, hwt, .body hwy hf, hv, hne⟩

theorem not_snag_of_free_body {w : TypeVar} {b : Ty} (hsnag : ¬Snag old (w.over b))
    (hfree : ∀ y, Free y (w.over b) → ¬Snag old y.toTy) (y : TypeVar) (hy : Free y b) :
    ¬Snag old y.toTy := by
  intro hsy
  by_cases hyw : y = w
  · obtain ⟨c, hc, hsc⟩ := snag_cases (hyw ▸ hsy) rfl
    exact hsnag (.child hc hsc)
  · exact hfree y (.body hyw hy) hsy

theorem snag_replace {t : Ty} (ht : Setting old new t) (hs : Sound t) (hsnag : ¬Snag old t)
    (hfree : ∀ y, Free y t → ¬Snag old y.toTy) {u : TypeVar} (hu : Sound u.toTy)
    (hfu : NameFree new.name u.toTy) (huo : u ≠ old)
    (hbounds : ∀ y, Free y old.toTy → ¬Free u y.toTy) (h : Snag u t) :
    Snag (u.replace old new) (t.substitute old new) := by
  induction t using induct_parts with
  | _ t ih =>
    have hchild : ∀ c ∈ t.children, Snag u c → t.typeVar? ≠ some old →
        Snag (u.replace old new) (t.substitute old new) := by
      intro c hc h hold
      have hin : Within c t := .child hc
      exact .child (child_substitute ht hs hold hc) (ih c (mem_parts_of_mem_children hc)
        (ht.within hin) (hs.within hin) (fun h => hsnag (.child hc h))
        (fun y hy => hfree y (.child hc hy)) h)
    by_cases hold : t.typeVar? = some old
    · -- What has `u` in its bounds is free here, so `u` does not have the old variable in its own.
      obtain ⟨w, hw, huw⟩ := h.exists_free
      cases t with
      | var z =>
        obtain rfl : z = old := Option.some.inj hold
        exact absurd huw (hbounds w hw)
      | layer z b =>
        obtain rfl : z = old := Option.some.inj hold
        have hnot : ¬Free z u.toTy := by
          intro hzu
          obtain hzw | hzw := huw.of_over hzu
          · exact hsnag (.here hw hzw)
          · exact hfree w hw hzw
        rwa [substitute_over_self ht.oldSound.exact, replace_of_not_free ht.oldSound hu hnot]
      | _ => cases hold
    · obtain ⟨c, hc, h⟩ | ⟨b, y, rfl, hy, huy⟩ | ⟨w, b, rfl, hwu, h⟩ := snag_iff.mp h
      · exact hchild c hc h hold
      · have hyo : ¬Free y old.toTy := fun hf => hbounds y hf huy
        have hne : y ≠ old := fun he => hyo (he ▸ .here)
        have hys := ht.vars y hy.mentions
        have hy' := free_replace ht hs hsnag hy hyo
        have huy' := free_replace (ht.toTy hy.mentions) hys (hfree y hy) huy
          (hbounds old .here)
        rw [substitute_toTy_of_ne ht.oldSound.exact hys.exact hne] at huy'
        rw [substitute_over_of_ne ht.oldSound.exact hu.exact huo] at hy' ⊢
        exact .here hy' huy'
      · have hin : Within b (w.over b) := within_body w b
        have hwt : Mentions w (w.over b) := mentions_over.mpr (.inl rfl)
        have hws := ht.vars w hwt
        have hwo : w ≠ old := fun he => hold (he ▸ rfl)
        have hfree' := not_snag_of_free_body hsnag hfree
        have hb := ih b (mem_parts_over w b) (ht.within hin) (hs.within hin)
          (fun h => hsnag (.body hwo h)) hfree' h
        have hne : w.replace old new ≠ u.replace old new := fun he =>
          hwu (replace_inj ht.oldSound ht.newSound hws hu (ht.toTy hwt).fresh hfu hwo huo he)
        rw [substitute_over_of_ne ht.oldSound.exact hws.exact hwo]
        exact .body hne hb

theorem entered_substitute {t : Ty} (ht : Setting old new t) (hs : Sound t)
    (hold : t.typeVar? ≠ some old) {p : Ty} (hp : p ∈ t.entered) :
    p.substitute old new ∈ (t.substitute old new).entered := by
  have h := child_substitute ht hs hold (mem_children_of_mem_entered hp)
  rwa [entered_of_ne]
  intro w hw
  have hview : Replaces old new t (t.substitute old new) :=
    replaces_substitute ht.oldSound ht.vars ht.counted.node
  rw [hw] at hview
  generalize he : w.toTy = t' at hview
  cases hview with
  | occurrence => cases hp
  | shadow => cases he
  | layer _ => cases he
  | other _ _ hvar _ _ =>
    obtain ⟨y, rfl, -⟩ := hvar w he.symm
    cases hp

/-- Tangles stay, if no free variable has a snag of the old one in its bounds. -/
theorem tangled_replace {t : Ty} (ht : Setting old new t) (hs : Sound t) (hsnag : ¬Snag old t)
    (hfree : ∀ y, Free y t → ¬Snag old y.toTy)
    (hbounds : ∀ u, Layer u t → u ≠ old → ∀ y, Free y old.toTy → ¬Free u y.toTy)
    (h : Tangled t) :
    Tangled (t.substitute old new) := by
  induction t using induct_parts with
  | _ t ih =>
    by_cases hold : t.typeVar? = some old
    · cases t with
      | var z => exact absurd h not_atLayer_toTy
      | layer z b =>
        obtain rfl : z = old := Option.some.inj hold
        rwa [substitute_over_self ht.oldSound.exact]
      | _ => cases hold
    · have hchild : ∀ c ∈ t.entered, Tangled c → Tangled (t.substitute old new) := by
        intro c hc h
        have hmem := mem_children_of_mem_entered hc
        have hin : Within c t := .child hmem
        exact .child (entered_substitute ht hs hold hc) (ih c (mem_parts_of_mem_children hmem)
          (ht.within hin) (hs.within hin) (fun h => hsnag (.child hmem h))
          (fun y hy => hfree y (.child hmem hy)) (fun u hu => hbounds u (.child hc hu)) h)
      obtain ⟨c, hc, h⟩ | ⟨w, b, rfl, hor⟩ := atLayer_iff.mp h
      · exact hchild c hc h
      · have hin : Within b (w.over b) := within_body w b
        have hwt : Mentions w (w.over b) := mentions_over.mpr (.inl rfl)
        have hws := ht.vars w hwt
        have hwo : w ≠ old := fun he => hold (he ▸ rfl)
        have hfree' := not_snag_of_free_body hsnag hfree
        have hsb : ¬Snag old b := fun h => hsnag (.body hwo h)
        rw [substitute_over_of_ne ht.oldSound.exact hws.exact hwo]
        obtain h | h := hor
        · exact .here (snag_replace (ht.within hin) (hs.within hin) hsb hfree' hws
            (ht.toTy hwt).fresh hwo (hbounds w (.here rfl) hwo) h)
        · exact .body (ih b (mem_parts_over w b) (ht.within hin) (hs.within hin) hsb hfree'
            (fun u hu => hbounds u (.body hu)) h)

/-- A variable is free that no renaming has named. -/
def Stray (t : Ty) : Prop :=
  ∃ x, Free x t ∧ ¬IsMarked x.name

/-- A type that the renaming of a tangled type comes to on its way: the marked variables are those
of layers renamed before. -/
structure Staged (k : Nat) (t : Ty) : Prop where
  sound : Sound t
  counted : Counted t
  unissued : Unissued k t
  unmarked : ∀ x, Layer x t → ¬IsMarked x.name
  settled : ∀ x, Mentions x t → IsMarked x.name → AllMarked x.toTy

theorem Staged.mono {j k : Nat} {t : Ty} (h : Staged j t) (hjk : j ≤ k) : Staged k t :=
  { h with unissued := h.unissued.mono hjk }

theorem Staged.child {k : Nat} {t c : Ty} (h : Staged k t) (hc : c ∈ t.entered) : Staged k c := by
  have hin : Within c t := .child (mem_children_of_mem_entered hc)
  exact ⟨h.sound.within hin, h.counted.within hin, h.unissued.within hin,
    fun x hx => h.unmarked x (.child hc hx), fun x hx => h.settled x (hx.within hin)⟩

theorem Staged.ready {k : Nat} {t : Ty} (h : Staged k t) (ht : ¬(Tangled t ∨ Stray t)) :
    Ready k t := by
  refine ⟨h.sound.varsSound, h.counted, h.unissued, fun h => ht (.inl h), h.unmarked,
    fun x hx => ?_⟩
  have hm : IsMarked x.name := by
    by_contra hm
    exact ht (.inr ⟨x, hx, hm⟩)
  exact h.settled x hx.mentions hm

theorem RenamesAll.exists_renames {P : Ty → Nat → Ty → Nat → Prop} {ts ts' : List Ty} {k k' : Nat}
    (h : RenamesAll P ts k ts' k') {t : Ty} (ht : t ∈ ts) :
    ∃ t' ∈ ts', ∃ j j', k ≤ j ∧ P t j t' j' := by
  induction h with
  | nil => cases ht
  | cons hr h _ ih =>
    obtain rfl | ht := List.mem_cons.mp ht
    · exact ⟨_, List.mem_cons_self, _, _, Nat.le_refl _, h⟩
    · obtain ⟨t', ht', j, j', hj, h'⟩ := ih ht
      exact ⟨t', List.mem_cons_of_mem _ ht', j, j', Nat.le_trans hr.named.le hj, h'⟩

theorem exists_child_of_tangled_or_stray {t : Ty} (h : Tangled t ∨ Stray t)
    (hvar : t.typeVar? = none) : ∃ c ∈ t.entered, Tangled c ∨ Stray c := by
  have hne : ∀ w : TypeVar, t ≠ w.toTy := by
    rintro w rfl
    cases hvar
  obtain h | ⟨x, hx, hm⟩ := h
  · obtain ⟨c, hc, h⟩ | ⟨w, b, rfl, -⟩ := atLayer_iff.mp h
    · exact ⟨c, hc, .inl h⟩
    · cases hvar
  · obtain h | ⟨c, hc, h⟩ | ⟨w, b, rfl, -⟩ := free_iff.mp hx
    · exact absurd h (hne x)
    · rw [entered_of_ne hne]
      exact ⟨c, hc, .inr ⟨x, h, hm⟩⟩
    · cases hvar

theorem not_tangled_count {element count : Ty} (hc : IsCounted (.vararg element count)) :
    ¬Tangled count := by
  intro h
  obtain ⟨d, hd, -⟩ | ⟨w, b, rfl, -⟩ := atLayer_iff.mp h
  · cases count with
    | var w => cases hd
    | value scalar => cases hd
    | _ => cases hc
  · cases hc

theorem Stray.child {t c : Ty} (hc : c ∈ t.children) (h : Stray c) : Stray t := by
  obtain ⟨x, hx, hm⟩ := h
  exact ⟨x, .child hc hx, hm⟩

section Layers

variable {k k₁ k₂ : Nat} {v v' : TypeVar} {b : Ty} (h : Staged k (v.over b))
  (hset : Setting v v' b)

include h hset

theorem Staged.body (hname : v'.name = mark v.name k)
    (hl : Renames v.lower (k + 1) v'.lower k₁) (hu : Renames v.upper k₁ v'.upper k₂) :
    Staged k₂ (b.substitute v v') := by
  have hin : Within b (v.over b) := within_body v b
  refine ⟨(h.sound.within hin).substitute hset.newSound, counted_substitute h.counted hl hu,
    unissued_substitute h.unissued hname hl hu, ?_, ?_⟩
  · intro x hx
    obtain ⟨w, hw, he⟩ := exists_layer_name hset hx
    exact he ▸ h.unmarked w (.body hw)
  · intro x hx hm
    obtain hx | ⟨w, hw, rfl | rfl⟩ := mentions_substitute hx
    · exact fun y hy => hset.marked y (hy.trans hx)
    · exact h.settled x (hw.within hin) hm
    · have hwm := h.settled w (hw.within hin) hm
      have hnot : ¬Free v w.toTy := fun hf => h.unmarked v (.here rfl) (hwm v hf.mentions)
      rw [replace_of_not_free hset.oldSound (hset.vars w hw) hnot]
      exact hwm

/-- What is wrong with a layer, but not with its bounds, is wrong with its body after the new
variable has been put in. -/
theorem Staged.tangled_or_stray (hlower : ¬(Tangled v.lower ∨ Stray v.lower))
    (hupper : ¬(Tangled v.upper ∨ Stray v.upper)) (ht : Tangled (v.over b) ∨ Stray (v.over b)) :
    Tangled (b.substitute v v') ∨ Stray (b.substitute v v') := by
  have hin : Within b (v.over b) := within_body v b
  have hs : Sound b := h.sound.within hin
  have hvm : ¬IsMarked v.name := h.unmarked v (.here rfl)
  have hbounds : ∀ y, Free y v.toTy → y ≠ v → IsMarked y.name := by
    intro y hy hyv
    by_contra hm
    obtain hy | hy := (free_toTy.mp hy).resolve_left (Ne.symm hyv)
    · exact hlower (.inr ⟨y, hy, hm⟩)
    · exact hupper (.inr ⟨y, hy, hm⟩)
  -- A snag leaves a variable without its layer, and an unmarked free variable is one already. If
  -- there is neither, the layer that makes the type tangled is kept.
  by_cases hsnag : Snag v b
  · obtain ⟨w, hw, hf, hv, -⟩ := exists_free_of_snag hset hs hsnag
    refine .inr ⟨w, hf, fun hm => hvm ?_⟩
    exact h.settled w (hw.within hin) hm v hv.mentions
  by_cases hstray : ∃ y, Free y b ∧ y ≠ v ∧ ¬IsMarked y.name
  · obtain ⟨y, hy, hyv, hm⟩ := hstray
    exact .inr ⟨y.replace v v', free_replace hset hs hsnag hy fun hf => hm (hbounds y hf hyv), hm⟩
  have hfree : ∀ y, Free y b → y ≠ v → AllMarked y.toTy := by
    intro y hy hyv
    have hm : IsMarked y.name := by
      by_contra hm
      exact hstray ⟨y, hy, hyv, hm⟩
    exact h.settled y (hy.mentions.within hin) hm
  obtain ht | ⟨x, hx, hm⟩ := ht
  · obtain ⟨c, hc, ht⟩ | ht | ht := atLayer_over.mp ht
    · obtain rfl | rfl := List.mem_pair.mp hc
      · exact absurd (.inl ht) hlower
      · exact absurd (.inl ht) hupper
    · exact absurd ht hsnag
    · refine .inl (tangled_replace hset hs hsnag ?_ ?_ ht)
      · intro y hy hsy
        by_cases hyv : y = v
        · obtain ⟨c, hc, hsc⟩ := snag_cases (hyv ▸ hsy) rfl
          obtain rfl | rfl := List.mem_pair.mp hc
          · exact (not_mentions_bounds v).1 hsc.mentions
          · exact (not_mentions_bounds v).2 hsc.mentions
        · exact hvm (hfree y hy hyv v hsy.mentions)
      · intro u hu huv y hy huy
        have hum := h.unmarked u (.body hu)
        by_cases hyv : y = v
        · exact hum (hbounds u (hyv ▸ huy) huv)
        · have hyt : Mentions y (v.over b) :=
            hy.mentions.trans (mentions_over.mpr (.inl rfl))
          exact hum (h.settled y hyt (hbounds y hy hyv) u huy.mentions)
  · obtain hx | hx | ⟨hxv, hx⟩ := free_over.mp hx
    · exact absurd (.inr ⟨x, hx, hm⟩) hlower
    · exact absurd (.inr ⟨x, hx, hm⟩) hupper
    · exact absurd ⟨x, hx, hxv, hm⟩ hstray

end Layers

/-- The renaming of a tangled type leaves a variable without a layer. -/
theorem Renames.stray {t t' : Ty} {k k' : Nat} (h : Renames t k t' k') (ht : Staged k t)
    (hts : Tangled t ∨ Stray t) : Stray t' := by
  revert ht hts
  refine h.induct (P := fun t k t' _ => Staged k t → Tangled t ∨ Stray t → Stray t')
    ?leaf ?nominal ?tuple ?union ?vararg ?layer
  case leaf =>
    intro t k hleaf _ hts
    obtain ht | ht := hts
    · cases t <;> cases hleaf
      all_goals
        obtain ⟨c, hc, -⟩ | ⟨w, b, he, -⟩ := atLayer_iff.mp ht
        · cases hc
        · cases he
    · exact ht
  case nominal =>
    intro name ps k ps' k' h ht hts
    obtain ⟨p, hp, hps⟩ := exists_child_of_tangled_or_stray hts rfl
    obtain ⟨p', hp', j, j', hj, hP⟩ := h.exists_renames hp
    exact .child hp' (hP ((ht.child hp).mono hj) hps)
  case tuple =>
    intro ps k ps' k' h ht hts
    obtain ⟨p, hp, hps⟩ := exists_child_of_tangled_or_stray hts rfl
    obtain ⟨p', hp', j, j', hj, hP⟩ := h.exists_renames hp
    exact .child hp' (hP ((ht.child hp).mono hj) hps)
  case union =>
    intro ms k ms' k' h ht hts
    obtain ⟨m, hm, hms⟩ := exists_child_of_tangled_or_stray hts rfl
    obtain ⟨m', hm', j, j', hj, hP⟩ := h.exists_renames hm
    have hperm := h.canonicalMembers_perm ht.sound ht.unissued
    exact .child (hperm.mem_iff.mpr hm') (hP ((ht.child hm).mono hj) hms)
  case vararg =>
    intro e c k e' k' _ hP ht hts
    obtain ⟨d, hd, hds⟩ := exists_child_of_tangled_or_stray hts rfl
    obtain rfl | rfl := List.mem_pair.mp hd
    · exact .child List.mem_cons_self (hP (ht.child hd) hds)
    · obtain hds | hds := hds
      · exact absurd hds (not_tangled_count ht.counted.node)
      · exact .child (List.mem_pair.mpr (.inr rfl)) hds
  case layer =>
    intro v v' b k k₁ k₂ b' k' hname hl hu hb hPl hPu hPb ht hts
    have hkl := hl.named.le
    have hlow : v.lower ∈ (v.over b).entered := List.mem_pair.mpr (.inl rfl)
    have hupp : v.upper ∈ (v.over b).entered := List.mem_pair.mpr (.inr rfl)
    by_cases hlower : Tangled v.lower ∨ Stray v.lower
    · exact .child (List.mem_pair.mpr (.inl rfl)) (hPl ((ht.child hlow).mono (by omega)) hlower)
    by_cases hupper : Tangled v.upper ∨ Stray v.upper
    · exact .child (List.mem_pair.mpr (.inr rfl)) (hPu ((ht.child hupp).mono (by omega)) hupper)
    obtain ⟨hml, hfl⟩ := hl.settles (((ht.child hlow).mono (by omega)).ready hlower)
    obtain ⟨hmu, hfu⟩ := hu.settles (((ht.child hupp).mono (by omega)).ready hupper)
    have hset := setting_of_renames ht.sound.varsSound ht.counted ht.unissued hname hl hu hml hmu
    obtain ⟨x, hx, hm⟩ := hPb (ht.body hset hname hl hu)
      (ht.tangled_or_stray hset hlower hupper hts)
    have hxv : x ≠ v' := fun he => hm (he ▸ hset.marked v' (mentions_toTy.mpr (.inl rfl)))
    exact ⟨x, .body hxv hx, hm⟩

theorem Snag.exists_bound {v : TypeVar} {t : Ty} (h : Snag v t) :
    ∃ w, Mentions w t ∧ w ≠ v ∧ Free v w.toTy := by
  induction h with
  | here hw hv =>
    rename_i w b
    refine ⟨w, hw.mentions, ?_, hv⟩
    rintro rfl
    obtain hw | hw | ⟨hne, -⟩ := free_over.mp hw
    · exact (not_mentions_bounds w).1 hw.mentions
    · exact (not_mentions_bounds w).2 hw.mentions
    · exact hne rfl
  | child hc _ ih =>
    obtain ⟨w, hw, h⟩ := ih
    exact ⟨w, hw.within (.child hc), h⟩
  | body _ _ ih =>
    obtain ⟨w, hw, h⟩ := ih
    exact ⟨w, hw.within (within_body _ _), h⟩

theorem Tangled.exists_bound {t : Ty} (h : Tangled t) :
    ∃ v w, Mentions v t ∧ Mentions w t ∧ w ≠ v ∧ Free v w.toTy := by
  have hlift : ∀ {p t : Ty}, p ∈ t.parts →
      (∃ v w, Mentions v p ∧ Mentions w p ∧ w ≠ v ∧ Free v w.toTy) →
      ∃ v w, Mentions v t ∧ Mentions w t ∧ w ≠ v ∧ Free v w.toTy := by
    rintro p t hp ⟨v, w, hv, hw, h⟩
    exact ⟨v, w, hv.within (.part hp .refl), hw.within (.part hp .refl), h⟩
  induction h with
  | here h =>
    obtain ⟨w, hw, h'⟩ := h.exists_bound
    exact ⟨_, w, mentions_over.mpr (.inl rfl), hw.within (within_body _ _), h'⟩
  | child hc _ ih =>
    exact hlift (mem_parts_of_mem_children (mem_children_of_mem_entered hc)) ih
  | body _ ih => exact hlift (mem_parts_over _ _) ih

/-- No number stands in the bounds of a variable, at any depth. -/
def PlainBounds (t : Ty) : Prop :=
  ∀ v, Mentions v t → Everywhere (fun s => s.isNumber = false) v.toTy

/-- No name is one that a renaming could give. -/
def Unmarked (t : Ty) : Prop :=
  ∀ v, Mentions v t → ¬IsMarked v.name

theorem isExact_of_isNumber {t : Ty} (h : Everywhere (fun s => s.isNumber = false) t) :
    IsExact t := by
  refine ⟨?_, ?_, fun _ p hp => h p (.part hp .refl)⟩
  · cases t with
    | value scalar => cases scalar <;> first | rfl | cases h.node
    | _ => rfl
  · cases t with
    | value scalar => cases scalar <;> first | rfl | cases h.node
    | _ => rfl

theorem PlainBounds.varsSound {t : Ty} (h : PlainBounds t) (ht : Canonical t) : VarsSound t :=
  fun v hv => ⟨fun _ hs => isExact_of_isNumber ((h v hv).within hs), ht.toTy hv trivial⟩

theorem Unmarked.unissued {t : Ty} (h : Unmarked t) (k : Nat) : Unissued k t := by
  rintro w hw k' ⟨n, j, -, -, he⟩
  exact h w hw (he ▸ isMarked_mark n j)

theorem closed_refresh_of_not_tangled {t : Ty} (hcanon : Canonical t) (hbounds : PlainBounds t)
    (hcount : Counted t) (hnames : Unmarked t) (hclosed : Closed t) (ht : ¬Tangled t)
    (s : Supply) : Closed (t.refresh s).1 := by
  have hvars := hbounds.varsSound hcanon
  have hfree := (closed_iff fun v hv => (hvars v hv).exact).mp hclosed
  have hr := renames_refresh t s
  have hready : Ready s.next t := ⟨hvars, hcount, hnames.unissued _, ht,
    fun x hx => hnames x hx.mentions, fun x hx => absurd hx (hfree x)⟩
  have hvars' := hr.varsSound hvars
  refine (closed_iff fun v hv => (hvars' v hv).exact).mpr fun x hx => ?_
  exact hfree x ((hr.settles hready).2 x hx)

theorem not_closed_refresh_of_tangled {t : Ty} (hsound : Sound t) (hcount : Counted t)
    (hnames : Unmarked t) (ht : Tangled t) (s : Supply) : ¬Closed (t.refresh s).1 := by
  have hr := renames_refresh t s
  have hstaged : Staged s.next t := ⟨hsound, hcount, hnames.unissued _,
    fun x hx => hnames x hx.mentions, fun x hx hm => absurd hm (hnames x hx)⟩
  have hvars' := hr.varsSound hsound.varsSound
  obtain ⟨x, hx, -⟩ := hr.stray hstaged (.inl ht)
  rw [closed_iff fun v hv => (hvars' v hv).exact]
  exact fun h => h x hx

/-- The renaming of a closed type is closed if the type is not tangled, and only then. -/
theorem closed_refresh {t : Ty} (hcanon : Canonical t) (hbounds : PlainBounds t)
    (hcount : Counted t) (hnames : Unmarked t) (hclosed : Closed t) (s : Supply) :
    (¬Tangled t → Closed (t.refresh s).1) ∧
      (Exact t → Tangled t → ¬Closed (t.refresh s).1) := by
  constructor
  · intro ht
    exact closed_refresh_of_not_tangled hcanon hbounds hcount hnames hclosed ht s
  · intro hexact ht
    exact not_closed_refresh_of_tangled ⟨hexact, hcanon⟩ hcount hnames ht s

def IsPlain (t : Ty) : Prop :=
  t.isNumber = false ∧ IsCanonical t ∧ IsCounted t

theorem plain_of_everywhere {t : Ty} (h : Everywhere IsPlain t) :
    Sound t ∧ PlainBounds t ∧ Counted t := by
  have hnum : Everywhere (fun s => s.isNumber = false) t := fun s hs => (h s hs).1
  refine ⟨⟨fun s hs => isExact_of_isNumber (hnum.within hs), fun s hs => (h s hs).2.1⟩,
    fun v hv => hnum.toTy hv rfl, fun s hs => (h s hs).2.2⟩

namespace Example

def outer : TypeVar :=
  ⟨"T", .bottom, .any⟩

def inner : TypeVar :=
  ⟨"S", .bottom, outer.toTy⟩

def box (t : Ty) : Ty :=
  .nominal ⟨"Box", "Main"⟩ [t]

/-- A layer that binds the variable of the layer around it again. -/
def rebound : Ty :=
  outer.over (.tuple [outer.toTy, outer.over (box outer.toTy)])

/-- The same with a variable below it that has the outer one as a bound. -/
def snarled : Ty :=
  outer.over (inner.over (outer.over (box inner.toTy)))

theorem plain_bottom : Everywhere IsPlain .bottom :=
  everywhere_union.mpr ⟨⟨rfl, canonicalMembers_nil, trivial⟩, nofun⟩

theorem plain_any : Everywhere IsPlain .any :=
  everywhere_nominal.mpr ⟨⟨rfl, trivial, trivial⟩, nofun⟩

theorem plain_functionType (function home : String) :
    Everywhere IsPlain (.functionType function home) :=
  everywhere_nominal.mpr ⟨⟨rfl, trivial, trivial⟩, nofun⟩

theorem plain_toTy {v : TypeVar} (hl : Everywhere IsPlain v.lower)
    (hu : Everywhere IsPlain v.upper) : Everywhere IsPlain v.toTy :=
  everywhere_toTy.mpr ⟨⟨rfl, trivial, trivial⟩, hl, hu⟩

theorem plain_over {v : TypeVar} {b : Ty} (hv : Everywhere IsPlain v.toTy)
    (hb : Everywhere IsPlain b) : Everywhere IsPlain (v.over b) :=
  everywhere_over.mpr ⟨⟨rfl, trivial, trivial⟩, (everywhere_toTy.mp hv).2.1,
    (everywhere_toTy.mp hv).2.2, hb⟩

theorem plain_box {t : Ty} (ht : Everywhere IsPlain t) : Everywhere IsPlain (box t) :=
  everywhere_nominal.mpr ⟨⟨rfl, trivial, trivial⟩, List.forall_mem_singleton.mpr ht⟩

theorem plain_outer : Everywhere IsPlain outer.toTy :=
  plain_toTy plain_bottom plain_any

theorem plain_rebound : Everywhere IsPlain rebound := by
  refine plain_over plain_outer (everywhere_tuple.mpr ⟨⟨rfl, trivial, trivial⟩, ?_⟩)
  rw [List.forall_mem_cons, List.forall_mem_singleton]
  exact ⟨plain_outer, plain_over plain_outer (plain_box plain_outer)⟩

theorem plain_snarled : Everywhere IsPlain snarled := by
  have hinner : Everywhere IsPlain inner.toTy := plain_toTy plain_bottom plain_outer
  exact plain_over plain_outer (plain_over hinner (plain_over plain_outer (plain_box hinner)))

theorem free_outer {x : TypeVar} : Free x outer.toTy ↔ outer = x := by
  simp [outer, bottom, any]

theorem free_inner {x : TypeVar} : Free x inner.toTy ↔ inner = x ∨ outer = x := by
  rw [free_toTy, ← free_outer]
  simp [inner, bottom]

theorem free_outer_over {x : TypeVar} {b : Ty} :
    Free x (outer.over b) ↔ x ≠ outer ∧ Free x b := by
  simp [outer, bottom, any]

theorem free_inner_over {x : TypeVar} {b : Ty} :
    Free x (inner.over b) ↔ outer = x ∨ x ≠ inner ∧ Free x b := by
  rw [free_over, ← free_outer]
  simp [inner, bottom]

theorem free_box {x : TypeVar} {t : Ty} : Free x (box t) ↔ Free x t := by
  simp [box]

theorem mentions_outer {x : TypeVar} : Mentions x outer.toTy ↔ outer = x := by
  simp [outer, bottom, any]

theorem mentions_inner {x : TypeVar} : Mentions x inner.toTy ↔ inner = x ∨ outer = x := by
  rw [mentions_toTy, ← mentions_outer]
  simp [inner, bottom]

theorem mentions_layer {x v : TypeVar} {b : Ty} :
    Mentions x (v.over b) ↔ Mentions x v.toTy ∨ Mentions x b := by
  simp only [mentions_over, mentions_toTy, or_assoc]

theorem unmarked_of_mentions {t : Ty} (h : ∀ x, Mentions x t → inner = x ∨ outer = x) :
    Unmarked t := by
  intro x hx
  obtain rfl | rfl := h x hx
  · exact (by decide : ¬IsMarked "S")
  · exact (by decide : ¬IsMarked "T")

theorem outer_of_mentions_rebound {x : TypeVar} (hx : Mentions x rebound) : outer = x := by
  simp only [rebound, box, mentions_layer, mentions_outer, mentions_tuple, mentions_nominal,
    List.mem_cons, List.not_mem_nil, or_false, exists_eq_or_imp, exists_eq_left] at hx
  tauto

theorem unmarked_rebound : Unmarked rebound :=
  unmarked_of_mentions fun _ hx => .inr (outer_of_mentions_rebound hx)

theorem unmarked_snarled : Unmarked snarled := by
  refine unmarked_of_mentions fun x hx => ?_
  simp only [snarled, box, mentions_layer, mentions_outer, mentions_inner, mentions_nominal,
    List.mem_singleton, exists_eq_left] at hx
  tauto

theorem closed_rebound : Closed rebound := by
  have hsound := (plain_of_everywhere plain_rebound).1
  refine (closed_iff fun v hv => (hsound.varsSound v hv).exact).mpr fun x => ?_
  simp only [rebound, free_outer_over, free_tuple, free_box, free_outer, List.mem_cons,
    List.not_mem_nil, or_false, exists_eq_or_imp, exists_eq_left]
  tauto

theorem closed_snarled : Closed snarled := by
  have hsound := (plain_of_everywhere plain_snarled).1
  refine (closed_iff fun v hv => (hsound.varsSound v hv).exact).mpr fun x => ?_
  simp only [snarled, free_outer_over, free_inner_over, free_box, free_inner]
  tauto

theorem not_tangled_rebound : ¬Tangled rebound := by
  intro h
  obtain ⟨v, w, hv, hw, hne, -⟩ := h.exists_bound
  exact hne ((outer_of_mentions_rebound hw).symm.trans (outer_of_mentions_rebound hv))

theorem tangled_snarled : Tangled snarled := by
  refine .here (.body (by simp [inner, outer]) (.here (w := inner) ?_ ?_))
  · simp only [free_outer_over, free_box, free_inner]
    simp [inner, outer]
  · rw [free_inner]
    exact .inr rfl

end Example

open Example

theorem closed_refresh_rebound :
    (¬Tangled rebound ∧ Closed rebound) ∧ Closed (rebound.refresh {}).1 := by
  obtain ⟨hsound, hbounds, hcount⟩ := plain_of_everywhere plain_rebound
  refine ⟨⟨not_tangled_rebound, closed_rebound⟩, ?_⟩
  exact (closed_refresh hsound.canonical hbounds hcount unmarked_rebound closed_rebound {}).1
    not_tangled_rebound

/-- The layer of `S` gets a new bound while the occurrence below the second layer of `T` keeps the
old one. -/
theorem exists_closed_not_closed_refresh :
    (Canonical snarled ∧ PlainBounds snarled ∧ Counted snarled ∧ Unmarked snarled ∧
      Closed snarled) ∧ ¬Closed (snarled.refresh {}).1 := by
  obtain ⟨hsound, hbounds, hcount⟩ := plain_of_everywhere plain_snarled
  refine ⟨⟨hsound.canonical, hbounds, hcount, unmarked_snarled, closed_snarled⟩, ?_⟩
  exact not_closed_refresh_of_tangled hsound hcount unmarked_snarled tangled_snarled {}

end Anatomy.Ty
