import Mathlib.Data.List.Perm.Basic
import Anatomy.Proofs.Strays

namespace Anatomy.Ty

/-- The name itself or one that is derived from it. -/
def Echo (name name' : String) : Prop :=
  name' = name ∨ ∃ k, name' = mark name k

/-- Types of one shape, where the names of occurrences are echoes of one another and the names of
layers are in the relation `N`. The bounds of an occurrence may be any. -/
inductive Echoes (N : String → String → Prop) : Ty → Ty → Prop
  | nominal {name : TypeName} {as bs : List Ty} (h : List.Forall₂ (Echoes N) as bs) :
      Echoes N (.nominal name as) (.nominal name bs)
  | tuple {as bs : List Ty} (h : List.Forall₂ (Echoes N) as bs) : Echoes N (.tuple as) (.tuple bs)
  | union {as bs cs : List Ty} (h : List.Forall₂ (Echoes N) as bs) (hp : bs.Perm cs) :
      Echoes N (.union as) (.union cs)
  | var {name name' : String} {lower upper lower' upper' : Ty} (hn : Echo name name') :
      Echoes N (.var name lower upper) (.var name' lower' upper')
  | layer {name name' : String} {lower upper body lower' upper' body' : Ty} (hn : N name name')
      (hl : Echoes N lower lower') (hu : Echoes N upper upper') (hb : Echoes N body body') :
      Echoes N (.unionAll name lower upper body) (.unionAll name' lower' upper' body')
  | vararg {element count element' count' : Ty} (he : Echoes N element element')
      (hc : Echoes N count count') : Echoes N (.vararg element count) (.vararg element' count')
  | symbol {name : String} : Echoes N (.symbol name) (.symbol name)
  | bareName {name : TypeName} : Echoes N (.bareName name) (.bareName name)
  | value {scalar : Scalar} : Echoes N (.value scalar) (.value scalar)

variable {N : String → String → Prop}

theorem Echoes.refl (hN : ∀ name, N name name) (t : Ty) : Echoes N t t := by
  induction t with
  | nominal name params ih => exact .nominal (List.forall₂_same.mpr ih)
  | tuple params ih => exact .tuple (List.forall₂_same.mpr ih)
  | union members ih => exact .union (List.forall₂_same.mpr ih) (.refl _)
  | var v => exact .var (.inl rfl)
  | layer v b ihl ihu ihb => exact .layer (hN v.name) ihl ihu ihb
  | vararg element count ihe ihc => exact .vararg ihe ihc
  | symbol name => exact .symbol
  | bareName name => exact .bareName
  | value scalar => exact .value

theorem forall₂_imp_of_mem {α β : Type} {R S : α → β → Prop} {as : List α} {bs : List β}
    (h : List.Forall₂ R as bs) (hi : ∀ b ∈ bs, ∀ a, R a b → S a b) : List.Forall₂ S as bs := by
  induction h with
  | nil => exact .nil
  | cons h _ ih =>
    obtain ⟨hb, hbs⟩ := List.forall_mem_cons.mp hi
    exact .cons (hb _ h) (ih hbs)

theorem Echoes.mono {M : String → String → Prop} (hN : ∀ name name', M name name' → N name name')
    {a b : Ty} (h : Echoes M a b) : Echoes N a b := by
  induction b generalizing a with
  | nominal name params ih =>
    cases h with
    | nominal h => exact .nominal (forall₂_imp_of_mem h fun b hb a => ih b hb)
  | tuple params ih =>
    cases h with
    | tuple h => exact .tuple (forall₂_imp_of_mem h fun b hb a => ih b hb)
  | union members ih =>
    cases h with
    | union h hp =>
      exact .union (forall₂_imp_of_mem h fun b hb a => ih b (hp.mem_iff.mp hb)) hp
  | var v =>
    rw [TypeVar.toTy] at h ⊢
    cases h with
    | var hn => exact .var hn
  | layer v b ihl ihu ihb =>
    rw [TypeVar.over] at h ⊢
    cases h with
    | layer hn hl hu hb => exact .layer (hN _ _ hn) (ihl hl) (ihu hu) (ihb hb)
  | vararg element count ihe ihc =>
    cases h with
    | vararg he hc => exact .vararg (ihe he) (ihc hc)
  | symbol name =>
    cases h
    exact .symbol
  | bareName name =>
    cases h
    exact .bareName
  | value scalar =>
    cases h
    exact .value

theorem Echo.of_unmarked {name name' : String} (h : Echo name name') (hm : ¬IsMarked name') :
    name' = name := by
  obtain h | ⟨k, rfl⟩ := h
  · exact h
  · exact absurd (isMarked_mark name k) hm

theorem Echoes.substitute {old new : TypeVar} {k : Nat} (hold : Sound old.toTy)
    (hnew : Sound new.toTy) (hname : new.name = mark old.name k) (hmark : ¬IsMarked old.name)
    {a b : Ty} (hb : Sound b) (hfresh : NameFree new.name b) (h : Echoes N a b) :
    Echoes N a (b.substitute old new) := by
  induction b generalizing a with
  | nominal name params ih =>
    cases h with
    | nominal h =>
      rw [substitute_nominal]
      refine .nominal (List.forall₂_map_right_iff.mpr (forall₂_imp_of_mem h fun p hp a => ?_))
      have hin : Within p (.nominal name params) := .child hp
      exact ih p hp (hb.within hin) (hfresh.within hin)
  | tuple params ih =>
    cases h with
    | tuple h =>
      rw [substitute_tuple]
      refine .tuple (List.forall₂_map_right_iff.mpr (forall₂_imp_of_mem h fun p hp a => ?_))
      have hin : Within p (.tuple params) := .child hp
      exact ih p hp (hb.within hin) (hfresh.within hin)
  | union members ih =>
    cases h with
    | union h hp =>
      rw [substitute_union, unionOf]
      refine .union (List.forall₂_map_right_iff.mpr (forall₂_imp_of_mem h fun m hm a => ?_))
        ((hp.map _).trans (perm_substitute hold hnew hb hfresh).symm)
      have hm : m ∈ members := hp.mem_iff.mp hm
      have hin : Within m (.union members) := .child hm
      exact ih m hm (hb.within hin) (hfresh.within hin)
  | var w =>
    by_cases hwo : w = old
    · rw [hwo, substitute_toTy_self hold.exact]
      rw [hwo, TypeVar.toTy] at h
      cases h with
      | var hn => exact .var (.inr ⟨k, hn.of_unmarked hmark ▸ hname⟩)
    · rw [substitute_toTy_of_ne hold.exact hb.exact hwo]
      rw [TypeVar.toTy] at h
      cases h with
      | var hn => exact .var hn
  | layer w b ihl ihu ihb =>
    obtain ⟨hw, -, hsb⟩ := sound_over.mp hb
    by_cases hwo : w = old
    · rw [hwo, substitute_over_self hold.exact, ← hwo]
      exact h
    · rw [substitute_over_of_ne hold.exact hw.exact hwo]
      obtain ⟨-, hl, hu⟩ := sound_toTy.mp hw
      rw [TypeVar.over] at h
      cases h with
      | layer hn hel heu heb =>
        exact .layer hn
          (ihl hl (hfresh.within (.part (by simp) .refl)) hel)
          (ihu hu (hfresh.within (.part (by simp) .refl)) heu)
          (ihb hsb (hfresh.within (within_body w b)) heb)
  | vararg element count ihe ihc =>
    obtain ⟨hse, hsc⟩ := sound_vararg.mp hb
    have hfe : NameFree new.name element := hfresh.within (.part (by simp) .refl)
    have hfc : NameFree new.name count := hfresh.within (.part (by simp) .refl)
    cases h with
    | vararg he hc =>
      obtain ⟨-, hsub⟩ | ⟨-, hsub⟩ := substitute_vararg old new element count
      · rw [hsub]
        exact .vararg (ihe hse hfe he) (ihc hsc hfc hc)
      · rw [hsub]
        exact .vararg (ihe hse hfe he) hc
  | symbol name => exact h
  | bareName name => exact h
  | value scalar => exact h

theorem Unmarked.within {s t : Ty} (h : Unmarked t) (hs : Within s t) : Unmarked s :=
  fun v hv => h v (hv.within hs)

/-- Whatever a type has the shape of, with its layers not yet renamed, it has when they are. -/
def Carried (t t' : Ty) : Prop :=
  ∀ a, Unmarked a → Echoes Eq a t → Echoes Echo a t'

theorem Carried.refl (t : Ty) : Carried t t :=
  fun _ _ h => h.mono fun _ _ he => .inl he.symm

theorem forall₂_carried {as bs cs : List Ty} (has : ∀ a ∈ as, Unmarked a)
    (h : List.Forall₂ (Echoes Eq) as bs) (hc : List.Forall₂ Carried bs cs) :
    List.Forall₂ (Echoes Echo) as cs := by
  induction h generalizing cs with
  | nil =>
    cases hc
    exact .nil
  | cons h _ ih =>
    obtain ⟨ha, has⟩ := List.forall_mem_cons.mp has
    cases hc with
    | cons hc hcs => exact .cons (hc _ ha h) (ih has hcs)

theorem RenamesAll.carried {ts ts' : List Ty} {k k' : Nat}
    (h : RenamesAll (fun t k t' _ => Sound t → Unissued k t → Carried t t') ts k ts' k')
    (hts : ∀ t ∈ ts, Sound t ∧ Unissued k t) : List.Forall₂ Carried ts ts' := by
  induction h with
  | nil => exact .nil
  | cons hr h _ ih =>
    obtain ⟨⟨ht, hk⟩, hts⟩ := List.forall_mem_cons.mp hts
    refine .cons (h ht hk) (ih fun t ht => ?_)
    exact ⟨(hts t ht).1, (hts t ht).2.mono hr.named.le⟩

theorem Renames.carried {t t' : Ty} {k k' : Nat} (h : Renames t k t' k') (ht : Sound t)
    (hk : Unissued k t) : Carried t t' := by
  revert ht hk
  refine h.induct (P := fun t k t' _ => Sound t → Unissued k t → Carried t t') ?leaf ?nominal
    ?tuple ?union ?vararg ?layer
  case leaf =>
    intro t k _ _ _
    exact .refl t
  case nominal =>
    intro name ps k ps' k' h ht hk a ha hat
    have hps := h.carried fun p hp =>
      ⟨sound_nominal.mp ht p hp, hk.within (.child hp)⟩
    cases hat with
    | nominal hat =>
      refine .nominal (forall₂_carried (fun b hb => ?_) hat hps)
      exact ha.within (.child hb)
  case tuple =>
    intro ps k ps' k' h ht hk a ha hat
    have hps := h.carried fun p hp =>
      ⟨sound_tuple.mp ht p hp, hk.within (.child hp)⟩
    cases hat with
    | tuple hat =>
      refine .tuple (forall₂_carried (fun b hb => ?_) hat hps)
      exact ha.within (.child hb)
  case union =>
    intro ms k ms' k' h ht hk a ha hat
    have hms := h.carried fun m hm =>
      ⟨ht.member hm, hk.within (.child hm)⟩
    have hperm := h.canonicalMembers_perm ht hk
    cases hat with
    | union hat hp =>
      -- The members were put in order before, and are renamed in that order.
      obtain ⟨us, hus, hp'⟩ := List.perm_comp_forall₂ hp hms
      refine .union (forall₂_carried (fun b hb => ?_) hat hus) (hp'.trans hperm.symm)
      exact ha.within (.child hb)
  case vararg =>
    intro e c k e' k' _ hP ht hk a ha hat
    obtain ⟨hse, hsc⟩ := sound_vararg.mp ht
    cases hat with
    | vararg he hc =>
      refine .vararg (hP hse (hk.within ?_) _ (ha.within ?_) he)
        (Carried.refl c _ (ha.within ?_) hc)
      all_goals exact .part (by simp) .refl
  case layer =>
    intro v v' b k k₁ k₂ b' k' hname hl hu hb hPl hPu hPb ht hk a ha hat
    have hkl := hl.named.le
    obtain ⟨hv, -, hsb⟩ := sound_over.mp ht
    obtain ⟨-, hsl, hsu⟩ := Ty.sound_toTy.mp hv
    have hin : Within b (v.over b) := within_body v b
    have hlow : Within v.lower (v.over b) := .part (by simp) .refl
    have hupp : Within v.upper (v.over b) := .part (by simp) .refl
    have hv' := hl.sound_toTy hu hv
    have hfresh : NameFree v'.name b := fun w hw he =>
      hk.within hin w hw (k + 1) ⟨v.name, k, Nat.le_refl k, by omega, he.trans hname⟩
    rw [TypeVar.over] at hat
    cases hat with
    | @layer _ _ l u a _ _ _ hn hel heu heb =>
      subst hn
      have hin' : ∀ p ∈ [l, u, a], Within p (.unionAll v.name l u a) := fun p hp => .part hp .refl
      have hmark : ¬IsMarked v.name := ha ⟨v.name, l, u⟩ ⟨_, .refl, rfl⟩
      have hsub := heb.substitute hv hv' hname hmark hsb hfresh
      refine .layer (.inr ⟨k, hname⟩) ?_ ?_ ?_
      · exact hPl hsl ((hk.within hlow).mono (by omega)) l (ha.within (hin' l (by simp))) hel
      · exact hPu hsu ((hk.within hupp).mono (by omega)) u (ha.within (hin' u (by simp))) heu
      · exact hPb (hsb.substitute hv') (unissued_substitute hk hname hl hu) a
          (ha.within (hin' a (by simp))) hsub

theorem echoes_refresh {t : Ty} (ht : Sound t) (hnames : Unmarked t) (s : Supply) :
    Echoes Echo t (t.refresh s).1 :=
  (renames_refresh t s).carried ht (hnames.unissued _) t hnames (.refl (fun _ => rfl) t)

end Anatomy.Ty
