import Anatomy.Ty.Refresh
import Anatomy.Proofs.Substitution

namespace Anatomy.Ty

def mark (name : String) (k : Nat) : String :=
  "##" ++ name ++ "#" ++ toString k

theorem append_cons_inj {c : Char} {xs ys ds es : List Char} (hd : c ∉ ds) (he : c ∉ es)
    (h : xs ++ c :: ds = ys ++ c :: es) : xs = ys ∧ ds = es := by
  obtain ⟨zs, hy, hz⟩ | ⟨zs, hx, hz⟩ := List.append_eq_append_iff.mp h
  · cases zs with
    | nil => exact ⟨by simpa using hy.symm, (List.cons.inj hz).2⟩
    | cons z zs => exact absurd ((List.cons.inj hz).2 ▸ by simp) hd
  · cases zs with
    | nil => exact ⟨by simpa using hx, (List.cons.inj hz).2.symm⟩
    | cons z zs => exact absurd ((List.cons.inj hz).2 ▸ by simp) he

theorem mark_inj {m n : String} {j k : Nat} (h : mark m j = mark n k) : m = n ∧ j = k := by
  have hdigits : ∀ i : Nat, (toString i).toList = Nat.toDigits 10 i := fun i => Nat.toList_repr
  have hhash : "#".toList = ['#'] := by decide
  have hnum : ∀ i : Nat, '#' ∉ Nat.toDigits 10 i := fun i hi =>
    absurd (Decimal.isDigit_of_mem_digits hi) (by decide)
  have h := congrArg String.toList h
  simp only [mark, String.toList_append, hdigits, hhash, List.append_assoc,
    List.singleton_append] at h
  obtain ⟨hname, hk⟩ := append_cons_inj (hnum j) (hnum k) (List.append_cancel_left h)
  have hk := congrArg (Nat.ofDigitChars 10 · 0) hk
  simp only [Nat.ofDigitChars_ten_toDigits] at hk
  exact ⟨String.toList_inj.mp hname, hk⟩

/-- With the counter at `k` the type `t` is renamed to `t'`, which leaves the counter at `k'`. -/
def Renames (t : Ty) (k : Nat) (t' : Ty) (k' : Nat) : Prop :=
  ∃ s : Supply, s.next = k ∧ (t.refresh s).1 = t' ∧ (t.refresh s).2.next = k'

theorem renames_refresh (t : Ty) (s : Supply) :
    Renames t s.next (t.refresh s).1 (t.refresh s).2.next :=
  ⟨s, rfl, rfl, rfl⟩

inductive RenamesAll (P : Ty → Nat → Ty → Nat → Prop) : List Ty → Nat → List Ty → Nat → Prop
  | nil {k : Nat} : RenamesAll P [] k [] k
  | cons {t t' : Ty} {ts ts' : List Ty} {k k₁ k₂ : Nat} (hr : Renames t k t' k₁)
      (h : P t k t' k₁) (hs : RenamesAll P ts k₁ ts' k₂) :
      RenamesAll P (t :: ts) k (t' :: ts') k₂

def isLeaf : Ty → Bool
  | .var _ _ _ => true
  | .symbol _ => true
  | .bareName _ => true
  | .value _ => true
  | _ => false

theorem renamesAll_refreshAll {P : Ty → Nat → Ty → Nat → Prop} {n : Nat}
    (h : ∀ t s, weight t < n → P t s.next (t.refresh s).1 (t.refresh s).2.next) (ts : List Ty)
    (s : Supply) (hts : weightAll ts ≤ n) :
    RenamesAll P ts s.next (refreshAll ts s).1 (refreshAll ts s).2.next := by
  induction ts generalizing s with
  | nil =>
    rw [refreshAll]
    exact .nil
  | cons t ts ih =>
    rw [weightAll] at hts
    rw [refreshAll]
    exact .cons (renames_refresh t s) (h t s (by omega)) (ih (t.refresh s).2 (by omega))

/-- What every step of a renaming keeps the whole keeps. -/
theorem Renames.induct {P : Ty → Nat → Ty → Nat → Prop}
    (leaf : ∀ t k, t.isLeaf = true → P t k t k)
    (nominal : ∀ name ps k ps' k', RenamesAll P ps k ps' k' →
      P (.nominal name ps) k (.nominal name ps') k')
    (tuple : ∀ ps k ps' k', RenamesAll P ps k ps' k' → P (.tuple ps) k (.tuple ps') k')
    (union : ∀ ms k ms' k', RenamesAll P ms k ms' k' → P (.union ms) k (unionOf ms') k')
    (vararg : ∀ e c k e' k', Renames e k e' k' → P e k e' k' →
      P (.vararg e c) k (.vararg e' c) k')
    (layer : ∀ (v v' : TypeVar) b k k₁ k₂ b' k', v'.name = mark v.name k →
      Renames v.lower (k + 1) v'.lower k₁ → Renames v.upper k₁ v'.upper k₂ →
      Renames (b.substitute v v') k₂ b' k' →
      P v.lower (k + 1) v'.lower k₁ → P v.upper k₁ v'.upper k₂ →
      P (b.substitute v v') k₂ b' k' → P (v.over b) k (v'.over b') k')
    {t t' : Ty} {k k' : Nat} (h : Renames t k t' k') : P t k t' k' := by
  obtain ⟨s, rfl, rfl, rfl⟩ := h
  -- The induction is on the weight, which a replacement in a body does not raise.
  induction hn : weight t using Nat.strong_induction_on generalizing t s with
  | _ n ih =>
    have ih : ∀ t s, weight t < n → P t s.next (t.refresh s).1 (t.refresh s).2.next :=
      fun t s h => ih _ h s rfl
    subst hn
    cases t with
    | nominal name params =>
      rw [refresh]
      exact nominal _ _ _ _ _ (renamesAll_refreshAll ih params s (by simp [weight]))
    | tuple params =>
      rw [refresh]
      exact tuple _ _ _ _ (renamesAll_refreshAll ih params s (by simp [weight]))
    | union members =>
      rw [refresh]
      exact union _ _ _ _ (renamesAll_refreshAll ih members s (by simp [weight]))
    | vararg element count =>
      rw [refresh]
      exact vararg _ _ _ _ _ (renames_refresh element s) (ih element s (by simp [weight]))
    | layer v b =>
      let s₁ : Supply := { s with next := s.next + 1 }
      let s₂ := (v.lower.refresh s₁).2
      let s₃ := (v.upper.refresh s₂).2.record v.name (mark v.name s.next)
      let v' : TypeVar := ⟨mark v.name s.next, (v.lower.refresh s₁).1, (v.upper.refresh s₂).1⟩
      have hw : weight (v.over b) = 1 + weight v.lower + weight v.upper + weight b := by
        rw [TypeVar.over, weight]
      have hsub := weight_substitute_le v v' b
      have hl := ih v.lower s₁ (by omega)
      have hu := ih v.upper s₂ (by omega)
      have hb := ih (b.substitute v v') s₃ (by omega)
      rw [TypeVar.over, refresh]
      exact layer v v' b s.next _ _ _ _ rfl (renames_refresh v.lower s₁)
        (renames_refresh v.upper s₂) (renames_refresh _ s₃) hl hu hb
    | var v =>
      rw [TypeVar.toTy, refresh]
      · exact leaf _ _ rfl
      all_goals nofun
    | symbol name =>
      rw [refresh]
      · exact leaf _ _ rfl
      all_goals nofun
    | bareName name =>
      rw [refresh]
      · exact leaf _ _ rfl
      all_goals nofun
    | value scalar =>
      rw [refresh]
      · exact leaf _ _ rfl
      all_goals nofun

def Drawn (k k' : Nat) (name : String) : Prop :=
  ∃ n j, k ≤ j ∧ j < k' ∧ name = mark n j

theorem Drawn.mono {j j' k k' : Nat} {name : String} (h : Drawn j j' name) (hk : k ≤ j)
    (hk' : j' ≤ k') : Drawn k k' name := by
  obtain ⟨n, i, hj, hj', rfl⟩ := h
  exact ⟨n, i, Nat.le_trans hk hj, Nat.lt_of_lt_of_le hj' hk', rfl⟩

theorem Drawn.disjoint {j j' k k' : Nat} {name : String} (h : Drawn j j' name)
    (h' : Drawn k k' name) (hjk : j' ≤ k) : False := by
  obtain ⟨n, i, hj, hj', rfl⟩ := h
  obtain ⟨m, l, hk, hk', he⟩ := h'
  obtain ⟨-, rfl⟩ := mark_inj he
  omega

/-- The counter goes up, and each name of `t'` is one of `t` or was drawn on the way. -/
structure Named (t : Ty) (k : Nat) (t' : Ty) (k' : Nat) : Prop where
  le : k ≤ k'
  names : ∀ x, Mentions x t' → (∃ w, Mentions w t ∧ w.name = x.name) ∨ Drawn k k' x.name

theorem Named.lift {p p' t : Ty} {j j' k k' : Nat} (h : Named p j p' j') (hp : Within p t)
    (hj : k ≤ j) (hj' : j' ≤ k') {x : TypeVar} (hx : Mentions x p') :
    (∃ w, Mentions w t ∧ w.name = x.name) ∨ Drawn k k' x.name := by
  obtain ⟨w, hw, he⟩ | hd := h.names x hx
  · exact .inl ⟨w, hw.within hp, he⟩
  · exact .inr (hd.mono hj hj')

theorem RenamesAll.named {ts ts' : List Ty} {k k' : Nat} (h : RenamesAll Named ts k ts' k') :
    k ≤ k' ∧ ∀ t' ∈ ts', ∀ x, Mentions x t' →
      (∃ w, (∃ t ∈ ts, Mentions w t) ∧ w.name = x.name) ∨ Drawn k k' x.name := by
  induction h with
  | nil => exact ⟨Nat.le_refl _, fun t' ht' => nomatch ht'⟩
  | cons _ h _ ih =>
    refine ⟨Nat.le_trans h.le ih.1, List.forall_mem_cons.mpr ⟨fun x hx => ?_, ?_⟩⟩
    · obtain ⟨w, hw, he⟩ | hd := h.names x hx
      · exact .inl ⟨w, ⟨_, List.mem_cons_self, hw⟩, he⟩
      · exact .inr (hd.mono (Nat.le_refl _) ih.1)
    · intro t' ht' x hx
      obtain ⟨w, ⟨t, ht, hw⟩, he⟩ | hd := ih.2 t' ht' x hx
      · exact .inl ⟨w, ⟨t, List.mem_cons_of_mem _ ht, hw⟩, he⟩
      · exact .inr (hd.mono h.le (Nat.le_refl _))

theorem Renames.named {t t' : Ty} {k k' : Nat} (h : Renames t k t' k') : Named t k t' k' := by
  refine h.induct ?leaf ?nominal ?tuple ?union ?vararg ?layer
  case leaf =>
    intro t k _
    exact ⟨Nat.le_refl k, fun x hx => .inl ⟨x, hx, rfl⟩⟩
  case nominal =>
    intro name ps k ps' k' h
    refine ⟨h.named.1, fun x hx => ?_⟩
    obtain ⟨p', hp', hx⟩ := mentions_nominal.mp hx
    simpa only [mentions_nominal] using h.named.2 p' hp' x hx
  case tuple =>
    intro ps k ps' k' h
    refine ⟨h.named.1, fun x hx => ?_⟩
    obtain ⟨p', hp', hx⟩ := mentions_tuple.mp hx
    simpa only [mentions_tuple] using h.named.2 p' hp' x hx
  case union =>
    intro ms k ms' k' h
    refine ⟨h.named.1, fun x hx => ?_⟩
    obtain ⟨m', hm', hx⟩ := mentions_unionOf hx
    simpa only [mentions_union] using h.named.2 m' hm' x hx
  case vararg =>
    intro e c k e' k' _ h
    refine ⟨h.le, fun x hx => ?_⟩
    obtain hx | hx := mentions_vararg.mp hx
    · exact h.lift (.part (by simp) .refl) (Nat.le_refl k) (Nat.le_refl k') hx
    · exact .inl ⟨x, mentions_vararg.mpr (.inr hx), rfl⟩
  case layer =>
    intro v v' b k k₁ k₂ b' k' hname _ _ _ hl hu hb
    have hkl := hl.le
    have hku := hu.le
    have hkb := hb.le
    refine ⟨by omega, ?_⟩
    have hbounds : ∀ x, Mentions x v'.lower ∨ Mentions x v'.upper →
        (∃ w, Mentions w (v.over b) ∧ w.name = x.name) ∨ Drawn k k' x.name := by
      rintro x (hx | hx)
      · exact hl.lift (.part (by simp) .refl) (by omega) (by omega) hx
      · exact hu.lift (.part (by simp) .refl) (by omega) (by omega) hx
    have hnew : ∀ x, Mentions x v'.toTy →
        (∃ w, Mentions w (v.over b) ∧ w.name = x.name) ∨ Drawn k k' x.name := by
      intro x hx
      obtain rfl | hx := mentions_toTy.mp hx
      · exact .inr ⟨v.name, k, Nat.le_refl k, by omega, hname⟩
      · exact hbounds x hx
    intro x hx
    obtain hx | hx | hx | hx := mentions_over.mp hx
    · exact hnew x (mentions_toTy.mpr (.inl hx))
    · exact hbounds x (.inl hx)
    · exact hbounds x (.inr hx)
    · obtain ⟨w, hw, he⟩ | hd := hb.names x hx
      · obtain ⟨u, hu, he'⟩ | ⟨u, hu, he'⟩ := exists_name_of_mentions_substitute hw
        · exact .inl ⟨u, mentions_over.mpr (.inr (.inr (.inr hu))), he'.trans he⟩
        · rw [← he, ← he']
          exact hnew u hu
      · exact .inr (hd.mono (by omega) (Nat.le_refl k'))

def Unissued (k : Nat) (t : Ty) : Prop :=
  ∀ w, Mentions w t → ∀ k', ¬Drawn k k' w.name

theorem Unissued.mono {j k : Nat} {t : Ty} (h : Unissued j t) (hjk : j ≤ k) : Unissued k t :=
  fun w hw k' hd => h w hw k' (hd.mono hjk (Nat.le_refl k'))

theorem Unissued.within {k : Nat} {s t : Ty} (h : Unissued k t) (hs : Within s t) : Unissued k s :=
  fun w hw => h w (hw.within hs)

theorem Named.unissued {t t' : Ty} {k k' : Nat} (h : Named t k t' k') (ht : Unissued k t) :
    Unissued k' t' := by
  intro x hx k'' hd
  obtain ⟨w, hw, he⟩ | hd' := h.names x hx
  · exact ht w hw k'' (he ▸ hd.mono h.le (Nat.le_refl k''))
  · exact hd'.disjoint hd (Nat.le_refl k')

theorem RenamesAll.le {P : Ty → Nat → Ty → Nat → Prop} {ts ts' : List Ty} {k k' : Nat}
    (h : RenamesAll P ts k ts' k') : k ≤ k' := by
  induction h with
  | nil => exact Nat.le_refl _
  | cons hr _ _ ih => exact Nat.le_trans hr.named.le ih

theorem RenamesAll.exists_of_mem {P : Ty → Nat → Ty → Nat → Prop} {ts ts' : List Ty} {k k' : Nat}
    (h : RenamesAll P ts k ts' k') {t' : Ty} (ht' : t' ∈ ts') :
    ∃ t ∈ ts, ∃ j j', k ≤ j ∧ j' ≤ k' ∧ Renames t j t' j' ∧ P t j t' j' := by
  induction h with
  | nil => cases ht'
  | cons hr h hs ih =>
    obtain rfl | ht' := List.mem_cons.mp ht'
    · exact ⟨_, List.mem_cons_self, _, _, Nat.le_refl _, hs.le, hr, h⟩
    · obtain ⟨t, ht, j, j', hj, hj', h'⟩ := ih ht'
      exact ⟨t, List.mem_cons_of_mem _ ht, j, j', Nat.le_trans hr.named.le hj, hj', h'⟩

theorem Renames.isUnion_eq {t t' : Ty} {k k' : Nat} (h : Renames t k t' k') :
    t'.isUnion = t.isUnion := by
  refine h.induct (P := fun t _ t' _ => t'.isUnion = t.isUnion) ?_ ?_ ?_ ?_ ?_ ?_ <;> intros <;> rfl

theorem Renames.isNumber_eq {t t' : Ty} {k k' : Nat} (h : Renames t k t' k') :
    t'.isNumber = t.isNumber := by
  refine h.induct (P := fun t _ t' _ => t'.isNumber = t.isNumber) ?_ ?_ ?_ ?_ ?_ ?_ <;> intros <;>
    rfl

theorem sound_nominal {name : TypeName} {params : List Ty} :
    Sound (.nominal name params) ↔ ∀ p ∈ params, Sound p := by
  constructor
  · intro h p hp
    exact h.part (mem_parts_of_mem_children hp)
  · intro h
    exact ⟨everywhere_nominal.mpr ⟨⟨rfl, rfl, nofun⟩, fun p hp => (h p hp).exact⟩,
      everywhere_nominal.mpr ⟨trivial, fun p hp => (h p hp).canonical⟩⟩

theorem sound_tuple {params : List Ty} : Sound (.tuple params) ↔ ∀ p ∈ params, Sound p := by
  constructor
  · intro h p hp
    exact h.part (mem_parts_of_mem_children hp)
  · intro h
    exact ⟨everywhere_tuple.mpr ⟨⟨rfl, rfl, nofun⟩, fun p hp => (h p hp).exact⟩,
      everywhere_tuple.mpr ⟨trivial, fun p hp => (h p hp).canonical⟩⟩

theorem sound_vararg {element count : Ty} :
    Sound (.vararg element count) ↔ Sound element ∧ Sound count := by
  constructor
  · intro h
    exact ⟨h.part (by simp), h.part (by simp)⟩
  · rintro ⟨he, hc⟩
    exact ⟨everywhere_vararg.mpr ⟨⟨rfl, rfl, nofun⟩, he.exact, hc.exact⟩,
      everywhere_vararg.mpr ⟨trivial, he.canonical, hc.canonical⟩⟩

/-- What holds of every type within one holds of every type within its renaming, if a renaming
keeps it at the root, the variables with the new names have it and a replacement keeps it. -/
theorem Renames.everywhere {P : Ty → Prop}
    (hroot : ∀ {t t' : Ty} {k k' : Nat}, Renames t k t' k' → Everywhere P t → P t')
    (hvar : ∀ {v v' : TypeVar} {b : Ty} {k k₁ k₂ : Nat}, v'.name = mark v.name k →
      Renames v.lower (k + 1) v'.lower k₁ → Renames v.upper k₁ v'.upper k₂ →
      Everywhere P (v.over b) → P v'.toTy)
    (hsub : ∀ {v v' : TypeVar}, Everywhere P v'.toTy → ∀ {b : Ty}, Everywhere P b →
      Everywhere P (b.substitute v v'))
    {t t' : Ty} {k k' : Nat} (h : Renames t k t' k') (ht : Everywhere P t) :
    Everywhere P t' := by
  have hnode := hroot h ht
  revert ht hnode
  refine h.induct (P := fun t _ t' _ => Everywhere P t → P t' → Everywhere P t') ?leaf ?nominal
    ?tuple ?union ?vararg ?layer
  case leaf =>
    intro t k _ ht _
    exact ht
  case nominal =>
    intro name ps k ps' k' h ht hnode
    refine everywhere_nominal.mpr ⟨hnode, fun p' hp' => ?_⟩
    obtain ⟨p, hp, _, _, _, _, hr, hp'⟩ := h.exists_of_mem hp'
    have htp := (everywhere_nominal.mp ht).2 p hp
    exact hp' htp (hroot hr htp)
  case tuple =>
    intro ps k ps' k' h ht hnode
    refine everywhere_tuple.mpr ⟨hnode, fun p' hp' => ?_⟩
    obtain ⟨p, hp, _, _, _, _, hr, hp'⟩ := h.exists_of_mem hp'
    have htp := (everywhere_tuple.mp ht).2 p hp
    exact hp' htp (hroot hr htp)
  case union =>
    intro ms k ms' k' h ht hnode
    refine .unionOf hnode fun m' hm' => ?_
    obtain ⟨m, hm, _, _, _, _, hr, hm'⟩ := h.exists_of_mem hm'
    have htm := (everywhere_union.mp ht).2 m hm
    exact hm' htm (hroot hr htm)
  case vararg =>
    intro e c k e' k' hr he ht hnode
    obtain ⟨-, hte, htc⟩ := everywhere_vararg.mp ht
    exact everywhere_vararg.mpr ⟨hnode, he hte (hroot hr hte), htc⟩
  case layer =>
    intro v v' b k k₁ k₂ b' k' hname hrl hru hrb hl hu hb ht hnode
    obtain ⟨-, htl, htu, htb⟩ := everywhere_over.mp ht
    have hl' := hl htl (hroot hrl htl)
    have hu' := hu htu (hroot hru htu)
    have hv' := everywhere_toTy.mpr ⟨hvar hname hrl hru ht, hl', hu'⟩
    have htb' := hsub (v := v) hv' htb
    exact everywhere_over.mpr ⟨hnode, hl', hu', hb htb' (hroot hrb htb')⟩

theorem Renames.isExact_toTy {v v' : TypeVar} {j j' k k' : Nat}
    (hl : Renames v.lower j v'.lower j') (hu : Renames v.upper k v'.upper k')
    (hv : IsExact v.toTy) : IsExact v'.toTy := by
  obtain ⟨hnl, hnu⟩ := Ty.isExact_toTy.mp hv
  exact Ty.isExact_toTy.mpr ⟨hl.isNumber_eq.trans hnl, hu.isNumber_eq.trans hnu⟩

theorem Renames.isExact {t t' : Ty} {k k' : Nat} (h : Renames t k t' k') (ht : IsExact t) :
    IsExact t' := by
  revert ht
  refine h.induct (P := fun t _ t' _ => IsExact t → IsExact t') ?leaf ?_ ?_ ?_ ?_ ?layer
  case leaf =>
    intro t k _ ht
    exact ht
  case layer =>
    intro v v' b k k₁ k₂ b' k' _ hrl hru hrb _ _ _ ht
    obtain ⟨hv, hn⟩ := isExact_over.mp ht
    refine isExact_over.mpr ⟨hrl.isExact_toTy hru hv, ?_⟩
    rw [hrb.isNumber_eq, isNumber_substitute, hn]
  all_goals
    intros
    exact ⟨rfl, rfl, nofun⟩

theorem Renames.isCanonical {t t' : Ty} {k k' : Nat} (h : Renames t k t' k') (ht : Canonical t) :
    IsCanonical t' := by
  revert ht
  refine h.induct (P := fun t _ t' _ => Canonical t → IsCanonical t') ?leaf ?_ ?_ ?union ?_ ?_
  case leaf =>
    intro t k _ ht
    exact ht.node
  case union =>
    intro ms k ms' k' h ht
    refine isCanonical_unionOf fun m' hm' => ?_
    obtain ⟨m, hm, _, _, _, _, hr, -⟩ := h.exists_of_mem hm'
    exact hr.isUnion_eq.trans (ht.flat m hm)
  all_goals
    intros
    trivial

theorem Renames.sound {t t' : Ty} {k k' : Nat} (h : Renames t k t' k') (ht : Sound t) :
    Sound t' := by
  refine sound_iff.mpr (h.everywhere ?root ?var ?sub (sound_iff.mp ht))
  case root =>
    intro t t' k k' h ht
    have ht := sound_iff.mpr ht
    exact ⟨h.isExact ht.exact.node, h.isCanonical ht.canonical⟩
  case var =>
    intro v v' b k k₁ k₂ _ hl hu ht
    exact ⟨hl.isExact_toTy hu (isExact_over.mp ht.node.1).1, trivial⟩
  case sub =>
    intro v v' hv' b hb
    exact sound_iff.mp ((sound_iff.mpr hb).substitute (sound_iff.mpr hv'))

/-- A type that is changed at all has a name that was drawn on the way. -/
def Changed (t : Ty) (k : Nat) (t' : Ty) (k' : Nat) : Prop :=
  t' = t ∨ ∃ x, Mentions x t' ∧ Drawn k k' x.name

section Lists

variable {ts ts' : List Ty} {k k' : Nat}
  (h : RenamesAll (fun t k t' k' => Sound t → Unissued k t → Changed t k t' k') ts k ts' k')
  (hts : ∀ t ∈ ts, Sound t ∧ Unissued k t)

include h hts

theorem RenamesAll.changed :
    ts' = ts ∨ ∃ t' ∈ ts', ∃ x, Mentions x t' ∧ Drawn k k' x.name := by
  induction h with
  | nil => exact .inl rfl
  | cons hr hc hs ih =>
    rename_i t t' ts ts' k k₁ k₂
    obtain ⟨⟨ht, hu⟩, hts⟩ := List.forall_mem_cons.mp hts
    have hts' : ∀ t ∈ ts, Sound t ∧ Unissued k₁ t := fun t ht =>
      ⟨(hts t ht).1, (hts t ht).2.mono hr.named.le⟩
    obtain rfl | ⟨x, hx, hd⟩ := hc ht hu
    · obtain rfl | ⟨u', hu', x, hx, hd⟩ := ih hts'
      · exact .inl rfl
      · exact .inr ⟨u', List.mem_cons_of_mem _ hu', x, hx, hd.mono hr.named.le (Nat.le_refl k₂)⟩
    · exact .inr ⟨t', List.mem_cons_self, x, hx, hd.mono (Nat.le_refl k) hs.le⟩

theorem RenamesAll.nodup (hnodup : ts.Nodup) : ts'.Nodup := by
  induction h with
  | nil => exact List.nodup_nil
  | cons hr hc hs ih =>
    rename_i t t' ts ts' k k₁ k₂
    obtain ⟨⟨ht, hu⟩, hts⟩ := List.forall_mem_cons.mp hts
    obtain ⟨htts, hnodup⟩ := List.nodup_cons.mp hnodup
    have hts' : ∀ t ∈ ts, Sound t ∧ Unissued k₁ t := fun t ht =>
      ⟨(hts t ht).1, (hts t ht).2.mono hr.named.le⟩
    refine List.nodup_cons.mpr ⟨fun hmem => ?_, ih hts' hnodup⟩
    obtain ⟨u, hut, j, j', hj, hj', hru, hcu⟩ := hs.exists_of_mem hmem
    obtain ⟨hsu, huu⟩ := hts u hut
    have hkj : k ≤ j := Nat.le_trans hr.named.le hj
    obtain rfl | ⟨x, hx, hd⟩ := hc ht hu
    · -- The first type is as it was, so it has no name that was drawn for the other.
      obtain rfl | ⟨x, hx, hd⟩ := hcu hsu (huu.mono hkj)
      · exact htts hut
      · exact hu x hx j' (hd.mono hkj (Nat.le_refl j'))
    · obtain ⟨w, hw, he⟩ | hd' := hru.named.names x hx
      · exact huu w hw k₁ (he ▸ hd)
      · exact hd.disjoint hd' hj

theorem RenamesAll.perm (hflat : ∀ t ∈ ts, t.isUnion = false) (hnodup : ts.Nodup) :
    (canonicalMembers ts').Perm ts' := by
  refine canonicalMembers_perm (fun t' ht' => ?_) (fun t' ht' => ?_) (h.nodup hts hnodup)
  · obtain ⟨t, ht, _, _, _, _, hr, -⟩ := h.exists_of_mem ht'
    exact hr.isUnion_eq.trans (hflat t ht)
  · obtain ⟨t, ht, _, _, _, _, hr, -⟩ := h.exists_of_mem ht'
    exact (hr.sound (hts t ht).1).exact

end Lists

theorem Renames.changed {t t' : Ty} {k k' : Nat} (h : Renames t k t' k') (ht : Sound t)
    (hk : Unissued k t) : Changed t k t' k' := by
  revert ht hk
  refine h.induct (P := fun t k t' k' => Sound t → Unissued k t → Changed t k t' k') ?leaf
    ?nominal ?tuple ?union ?vararg ?layer
  case leaf =>
    intro t k _ _ _
    exact .inl rfl
  case nominal =>
    intro name ps k ps' k' h ht hk
    have hps : ∀ p ∈ ps, Sound p ∧ Unissued k p := fun p hp =>
      ⟨sound_nominal.mp ht p hp, hk.within (.child hp)⟩
    obtain rfl | ⟨p', hp', x, hx, hd⟩ := h.changed hps
    · exact .inl rfl
    · exact .inr ⟨x, mentions_nominal.mpr ⟨p', hp', hx⟩, hd⟩
  case tuple =>
    intro ps k ps' k' h ht hk
    have hps : ∀ p ∈ ps, Sound p ∧ Unissued k p := fun p hp =>
      ⟨sound_tuple.mp ht p hp, hk.within (.child hp)⟩
    obtain rfl | ⟨p', hp', x, hx, hd⟩ := h.changed hps
    · exact .inl rfl
    · exact .inr ⟨x, mentions_tuple.mpr ⟨p', hp', hx⟩, hd⟩
  case union =>
    intro ms k ms' k' h ht hk
    have hms : ∀ m ∈ ms, Sound m ∧ Unissued k m := fun m hm =>
      ⟨ht.member hm, hk.within (.child hm)⟩
    have hperm := h.perm hms ht.canonical.flat ht.nodup
    obtain rfl | ⟨m', hm', x, hx, hd⟩ := h.changed hms
    · have hcanon : canonicalMembers ms' = ms' := ht.canonical.node
      exact .inl (by rw [unionOf, hcanon])
    · exact .inr ⟨x, mentions_union.mpr ⟨m', hperm.mem_iff.mpr hm', hx⟩, hd⟩
  case vararg =>
    intro e c k e' k' _ hc ht hk
    have he : Unissued k e := hk.within (.part (by simp) .refl)
    obtain rfl | ⟨x, hx, hd⟩ := hc (sound_vararg.mp ht).1 he
    · exact .inl rfl
    · exact .inr ⟨x, mentions_vararg.mpr (.inl hx), hd⟩
  case layer =>
    intro v v' b k k₁ k₂ b' k' hname hrl hru hrb _ _ _ _ _
    have hkl := hrl.named.le
    have hku := hru.named.le
    have hkb := hrb.named.le
    exact .inr ⟨v', mentions_over.mpr (.inl rfl), v.name, k, Nat.le_refl k, by omega, hname⟩

/-- The members of a union are renamed one by one and put in order, and none is lost. -/
theorem RenamesAll.canonicalMembers_perm {P : Ty → Nat → Ty → Nat → Prop} {ms ms' : List Ty}
    {k k' : Nat} (h : RenamesAll P ms k ms' k') (ht : Sound (.union ms))
    (hk : Unissued k (.union ms)) : (canonicalMembers ms').Perm ms' := by
  have hms : ∀ m ∈ ms, Sound m ∧ Unissued k m := fun m hm =>
    ⟨ht.member hm, hk.within (.child hm)⟩
  have hchanged : RenamesAll (fun t k t' k' => Sound t → Unissued k t → Changed t k t' k')
      ms k ms' k' := by
    clear ht hk hms
    induction h with
    | nil => exact .nil
    | cons hr _ _ ih => exact .cons hr hr.changed ih
  exact hchanged.perm hms ht.canonical.flat ht.nodup

end Anatomy.Ty
