import Anatomy.Proofs.Strays

namespace Anatomy

/-- A type without the names of its variables. An occurrence is the number of layers between it and
the layer that binds it. -/
inductive Nameless
  | nominal (name : TypeName) (params : List Nameless)
  | tuple (params : List Nameless)
  | union (members : List Nameless)
  | bound (index : Option Nat)
  | layer (lower upper body : Nameless)
  | vararg (element count : Nameless)
  | symbol (name : String)
  | bareName (name : TypeName)
  | value (scalar : Scalar)

/-- Equality up to the order of the members of unions. -/
inductive Nameless.Alike : Nameless → Nameless → Prop
  | refl (n : Nameless) : Alike n n
  | trans {a b c : Nameless} (h : Alike a b) (h' : Alike b c) : Alike a c
  | nominal {name : TypeName} {as bs : List Nameless} (h : List.Forall₂ Alike as bs) :
      Alike (.nominal name as) (.nominal name bs)
  | tuple {as bs : List Nameless} (h : List.Forall₂ Alike as bs) : Alike (.tuple as) (.tuple bs)
  | union {as bs : List Nameless} (h : List.Forall₂ Alike as bs) : Alike (.union as) (.union bs)
  | order {as bs : List Nameless} (h : as.Perm bs) : Alike (.union as) (.union bs)
  | layer {l u b l' u' b' : Nameless} (hl : Alike l l') (hu : Alike u u') (hb : Alike b b') :
      Alike (.layer l u b) (.layer l' u' b')
  | vararg {e c e' c' : Nameless} (he : Alike e e') (hc : Alike c c') :
      Alike (.vararg e c) (.vararg e' c')

def TypeVar.namesake (v w : TypeVar) : Bool :=
  v.name == w.name

namespace Ty

open Nameless (Alike)

mutual

/-- The nameless form of a type below the layers that bind `scope`, the innermost first. -/
def nameless (scope : List TypeVar) : Ty → Nameless
  | .nominal name params => .nominal name (namelessAll scope params)
  | .tuple params => .tuple (namelessAll scope params)
  | .union members => .union (namelessAll scope members)
  | .var name lower upper => .bound (scope.findIdx? (TypeVar.same ⟨name, lower, upper⟩))
  | .unionAll name lower upper body =>
    .layer (nameless scope lower) (nameless scope upper)
      (nameless (⟨name, lower, upper⟩ :: scope) body)
  | .vararg element count => .vararg (nameless scope element) (nameless scope count)
  | .symbol name => .symbol name
  | .bareName name => .bareName name
  | .value scalar => .value scalar

def namelessAll (scope : List TypeVar) : List Ty → List Nameless
  | [] => []
  | t :: ts => nameless scope t :: namelessAll scope ts

end

theorem namelessAll_eq_map (scope : List TypeVar) (ts : List Ty) :
    namelessAll scope ts = ts.map (nameless scope) := by
  induction ts with
  | nil => rfl
  | cons t ts ih => rw [namelessAll, ih, List.map_cons]

theorem nameless_toTy (scope : List TypeVar) (v : TypeVar) :
    v.toTy.nameless scope = .bound (scope.findIdx? v.same) := by
  rw [TypeVar.toTy, nameless]

theorem nameless_over (scope : List TypeVar) (v : TypeVar) (b : Ty) :
    (v.over b).nameless scope =
      .layer (v.lower.nameless scope) (v.upper.nameless scope) (b.nameless (v :: scope)) := by
  rw [TypeVar.over, nameless]

/-- A layer that binds `v` stands in a type below the layers that bind `scope`. -/
inductive Binds (v : TypeVar) : List TypeVar → Ty → Prop
  | here {b : Ty} : Binds v [] (v.over b)
  | child {scope : List TypeVar} {t c : Ty} (hc : c ∈ t.children) (h : Binds v scope c) :
      Binds v scope t
  | body {scope : List TypeVar} {w : TypeVar} {b : Ty} (h : Binds v scope b) :
      Binds v (scope ++ [w]) (w.over b)

/-- No layer binds a variable that is equal to one bound around it. -/
def BindsOnce (t : Ty) : Prop :=
  ∀ v scope, Binds v scope t → ∀ w ∈ scope, v.same w = false

theorem Binds.mentions {v : TypeVar} {scope : List TypeVar} {t : Ty} (h : Binds v scope t) :
    Mentions v t := by
  induction h with
  | here => exact mentions_over.mpr (.inl rfl)
  | child hc _ ih => exact ih.within (.child hc)
  | body _ ih => exact ih.within (within_body _ _)

theorem Snag.exists_binds {v : TypeVar} {t : Ty} (h : Snag v t) : ∃ scope, Binds v scope t := by
  induction h with
  | here _ _ => exact ⟨[], .here⟩
  | child hc _ ih =>
    obtain ⟨scope, h⟩ := ih
    exact ⟨scope, .child hc h⟩
  | body _ _ ih =>
    obtain ⟨scope, h⟩ := ih
    exact ⟨_, .body h⟩

theorem Layer.exists_binds {v : TypeVar} {t : Ty} (h : Layer v t) : ∃ scope, Binds v scope t := by
  induction h with
  | here h =>
    subst h
    exact ⟨[], .here⟩
  | child hc _ ih =>
    obtain ⟨scope, h⟩ := ih
    exact ⟨scope, .child (mem_children_of_mem_entered hc) h⟩
  | body _ ih =>
    obtain ⟨scope, h⟩ := ih
    exact ⟨_, .body h⟩

theorem AtLayer.exists_binds {P : TypeVar → Ty → Prop}
    (hP : ∀ v b, P v b → ∃ scope, Binds v scope b) {t : Ty} (h : AtLayer P t) :
    ∃ v scope, Binds v scope t ∧ v ∈ scope := by
  induction h with
  | here h =>
    obtain ⟨scope, h⟩ := hP _ _ h
    exact ⟨_, _, .body h, List.mem_append_right _ List.mem_cons_self⟩
  | child hc _ ih =>
    obtain ⟨v, scope, h, hv⟩ := ih
    exact ⟨v, scope, .child (mem_children_of_mem_entered hc) h, hv⟩
  | body _ ih =>
    obtain ⟨v, scope, h, hv⟩ := ih
    exact ⟨v, _, .body h, List.mem_append_left _ hv⟩

/-- A layer is renamed along with the type below another one that binds the same variable. -/
def Rebinds (t : Ty) : Prop :=
  AtLayer Layer t

section BindsOnce

variable {t : Ty}

theorem BindsOnce.not_mem (h : BindsOnce t) (hs : VarsSound t) {v : TypeVar}
    {scope : List TypeVar} (hb : Binds v scope t) : v ∉ scope := by
  intro hv
  have hexact := (hs v hb.mentions).exact
  have hne := h v scope hb v hv
  rw [(TypeVar.same_iff hexact hexact).mpr rfl] at hne
  cases hne

theorem BindsOnce.not_tangled (h : BindsOnce t) (hs : VarsSound t) : ¬Tangled t := by
  intro ht
  obtain ⟨v, scope, hb, hv⟩ := AtLayer.exists_binds (fun _ _ h => h.exists_binds) ht
  exact h.not_mem hs hb hv

theorem BindsOnce.not_rebinds (h : BindsOnce t) (hs : VarsSound t) : ¬Rebinds t := by
  intro ht
  obtain ⟨v, scope, hb, hv⟩ := AtLayer.exists_binds (fun _ _ h => h.exists_binds) ht
  exact h.not_mem hs hb hv

end BindsOnce

variable {old new : TypeVar}

theorem rebinds_substitute {t : Ty} (ht : Setting old new t) (hold : ¬Layer old t)
    (h : Rebinds (t.substitute old new)) : Rebinds t := by
  refine atLayer_substitute (C := fun t => Setting old new t ∧ ¬Layer old t) ?_ ?_ ?_ ?_ ?_
    ⟨ht, hold⟩ h
  · exact fun t ht => ht.1
  · exact fun t ht c hc => ⟨ht.1.entered hc, fun h => ht.2 (.child hc h)⟩
  · exact fun w b ht _ => ⟨ht.1.within (within_body w b), fun h => ht.2 (.body h)⟩
  · exact fun b _ h => h
  · rintro w b ⟨ht, hold⟩ hw h
    have hin : Within b (w.over b) := within_body w b
    obtain ⟨y, hy, hyo, he⟩ := exists_layer_replace (ht.within hin) (fun h => hold (.body h)) h
    have hwt : Mentions w (w.over b) := mentions_over.mpr (.inl rfl)
    have hyt : Mentions y (w.over b) := hy.mentions.within hin
    have heq : w = y := replace_inj ht.oldSound ht.newSound (ht.vars w hwt) (ht.vars y hyt)
      (ht.toTy hwt).fresh (ht.toTy hyt).fresh hw hyo he
    exact heq ▸ hy

structure Follows (old new x x' : TypeVar) : Prop where
  sound : Sound x.toTy
  fresh : NameFree new.name x.toTy
  follows : x = old ∧ x' = new ∨ x ≠ old ∧ x' = x.replace old new

theorem Follows.same_eq {x x' w w' : TypeVar} (hold : Sound old.toTy) (hnew : Sound new.toTy)
    (hx : Follows old new x x') (hw : Follows old new w w') : x.same w = x'.same w' := by
  have hne : ∀ {y : TypeVar}, NameFree new.name y.toTy → new ≠ y.replace old new := by
    intro y hy he
    exact hy y (mentions_toTy.mpr (.inl rfl)) (congrArg TypeVar.name he).symm
  have hsound : ∀ {y y' : TypeVar}, Follows old new y y' → Exact y'.toTy := by
    intro y y' h
    obtain ⟨-, rfl⟩ | ⟨-, rfl⟩ := h.follows
    · exact hnew.exact
    · exact (h.sound.replace hnew).exact
  rw [Bool.eq_iff_iff, TypeVar.same_iff hx.sound.exact hw.sound.exact,
    TypeVar.same_iff (hsound hx) (hsound hw)]
  obtain ⟨rfl, rfl⟩ | ⟨hxo, rfl⟩ := hx.follows
  · obtain ⟨rfl, rfl⟩ | ⟨hwo, rfl⟩ := hw.follows
    · simp
    · exact iff_of_false (Ne.symm hwo) (hne hw.fresh)
  · obtain ⟨rfl, rfl⟩ | ⟨hwo, rfl⟩ := hw.follows
    · exact iff_of_false hxo (Ne.symm (hne hx.fresh))
    · exact ⟨fun he => he ▸ rfl,
        replace_inj hold hnew hx.sound hw.sound hx.fresh hw.fresh hxo hwo⟩

theorem Follows.findIdx?_eq (hold : Sound old.toTy) (hnew : Sound new.toTy) {x x' : TypeVar}
    (hx : Follows old new x x') {scope scope' rest : List TypeVar}
    (hscope : List.Forall₂ (Follows old new) scope scope') (hfixed : x ∉ scope → x' = x) :
    (scope ++ rest).findIdx? x.same = (scope' ++ rest).findIdx? x'.same := by
  induction hscope with
  | nil => rw [hfixed List.not_mem_nil]
  | cons hw _ ih =>
    rename_i w w' scope scope' _
    rw [List.cons_append, List.cons_append, List.findIdx?_cons, List.findIdx?_cons,
      hx.same_eq hold hnew hw]
    by_cases hxw : x = w
    · subst hxw
      have hsame : x'.same w' = true := by
        rw [← hx.same_eq hold hnew hw, TypeVar.same_iff hx.sound.exact hx.sound.exact]
      rw [if_pos hsame, if_pos hsame]
    · rw [ih fun hmem => hfixed (List.not_mem_cons_of_ne_of_not_mem hxw hmem)]

/-- A variable is replaced in a type, and in the scope of the type as well. -/
structure Inside (old new : TypeVar) (scope scope' : List TypeVar) (t : Ty) : Prop where
  setting : Setting old new t
  sound : Sound t
  once : ¬Layer old t
  follows : List.Forall₂ (Follows old new) scope scope'
  bound : old ∈ scope
  free : ∀ x, Free x t → x ∈ scope ∨ x.replace old new = x

section Inside

variable {scope scope' : List TypeVar} {t : Ty}

theorem Inside.child (h : Inside old new scope scope' t) {c : Ty} (hc : c ∈ t.entered) :
    Inside old new scope scope' c := by
  have hmem := mem_children_of_mem_entered hc
  have hin : Within c t := .child hmem
  exact ⟨h.setting.within hin, h.sound.within hin, fun hl => h.once (.child hc hl), h.follows,
    h.bound, fun x hx => h.free x (.child hmem hx)⟩

theorem Inside.body {w : TypeVar} {b : Ty} (h : Inside old new scope scope' (w.over b)) :
    w ≠ old ∧ Inside old new (w :: scope) (w.replace old new :: scope') b := by
  have hin : Within b (w.over b) := within_body w b
  have hw : Mentions w (w.over b) := mentions_over.mpr (.inl rfl)
  have hwo : w ≠ old := fun he => h.once (.here he)
  refine ⟨hwo, h.setting.within hin, h.sound.within hin, fun hl => h.once (.body hl),
    .cons ⟨h.setting.vars w hw, (h.setting.toTy hw).fresh, .inr ⟨hwo, rfl⟩⟩ h.follows,
    List.mem_cons_of_mem _ h.bound, fun x hx => ?_⟩
  by_cases hxw : x = w
  · exact .inl (hxw ▸ List.mem_cons_self)
  · exact (h.free x (.body hxw hx)).imp_left (List.mem_cons_of_mem _)

theorem forall₂_alike_map {f g : Ty → Nameless} {ts : List Ty}
    (h : ∀ t ∈ ts, Alike (f t) (g t)) : List.Forall₂ Alike (ts.map f) (ts.map g) := by
  rw [List.forall₂_map_left_iff, List.forall₂_map_right_iff, List.forall₂_same]
  exact h

theorem alike_substitute (rest : List TypeVar) (h : Inside old new scope scope' t) :
    Alike (t.nameless (scope ++ rest)) ((t.substitute old new).nameless (scope' ++ rest)) := by
  have hold := h.setting.oldSound
  have hnew := h.setting.newSound
  induction t generalizing scope scope' with
  | nominal name params ih =>
    rw [substitute_nominal, nameless, nameless, namelessAll_eq_map,
      namelessAll_eq_map, List.map_map]
    exact .nominal (forall₂_alike_map fun p hp => ih p hp (h.child hp))
  | tuple params ih =>
    rw [substitute_tuple, nameless, nameless, namelessAll_eq_map,
      namelessAll_eq_map, List.map_map]
    exact .tuple (forall₂_alike_map fun p hp => ih p hp (h.child hp))
  | union members ih =>
    have hperm := (perm_substitute hold hnew h.sound h.setting.fresh).map
      (nameless (scope' ++ rest))
    rw [substitute_union, unionOf, nameless, nameless, namelessAll_eq_map, namelessAll_eq_map]
    rw [List.map_map] at hperm
    refine .trans (.union (forall₂_alike_map fun m hm => ih m hm (h.child hm))) ?_
    exact .order hperm.symm
  | var w =>
    have hw : Mentions w w.toTy := mentions_toTy.mpr (.inl rfl)
    have hs := h.setting.vars w hw
    by_cases hwo : w = old
    · have hf : Follows old new w new := ⟨hs, h.setting.fresh, .inl ⟨hwo, rfl⟩⟩
      rw [hwo, substitute_toTy_self hold.exact, ← hwo, nameless_toTy, nameless_toTy,
        hf.findIdx?_eq hold hnew h.follows fun hmem => absurd (hwo ▸ h.bound) hmem]
      exact .refl _
    · have hf : Follows old new w (w.replace old new) := ⟨hs, h.setting.fresh, .inr ⟨hwo, rfl⟩⟩
      rw [substitute_toTy_of_ne hold.exact hs.exact hwo, nameless_toTy, nameless_toTy,
        hf.findIdx?_eq hold hnew h.follows fun hmem => (h.free w .here).resolve_left hmem]
      exact .refl _
  | layer w b ihl ihu ihb =>
    obtain ⟨hwo, hb⟩ := h.body
    have hs := h.setting.vars w (mentions_over.mpr (.inl rfl))
    rw [substitute_over_of_ne hold.exact hs.exact hwo, nameless_over, nameless_over]
    exact .layer (ihl (h.child (List.mem_pair.mpr (.inl rfl))))
      (ihu (h.child (List.mem_pair.mpr (.inr rfl)))) (ihb hb)
  | vararg element count ihe ihc =>
    rw [substitute_vararg_of_counted h.setting.counted.node, nameless, nameless]
    exact .vararg (ihe (h.child List.mem_cons_self)) (ihc (h.child (List.mem_pair.mpr (.inr rfl))))
  | symbol name => exact .refl _
  | bareName name => exact .refl _
  | value scalar => exact .refl _

end Inside

/-- A type that the renaming of a type without rebinding comes to on its way, below layers that
were renamed before. -/
structure Scoped (k : Nat) (scope : List TypeVar) (t : Ty) : Prop extends Staged k t where
  untangled : ¬Tangled t
  once : ¬Rebinds t
  marked : ∀ w ∈ scope, IsMarked w.name
  free : ∀ x, Free x t → x ∈ scope

section Scoped

variable {k : Nat} {scope : List TypeVar}

theorem Scoped.ready {t : Ty} (h : Scoped k scope t) : Ready k t where
  vars := h.sound.varsSound
  counted := h.counted
  unissued := h.unissued
  untangled := h.untangled
  unmarked := h.unmarked
  settled x hx := h.settled x hx.mentions (h.marked x (h.free x hx))

theorem Scoped.mono {j : Nat} {t : Ty} (h : Scoped j scope t) (hjk : j ≤ k) : Scoped k scope t :=
  { h with toStaged := h.toStaged.mono hjk }

theorem Scoped.child {t c : Ty} (h : Scoped k scope t) (hc : c ∈ t.entered) :
    Scoped k scope c where
  toStaged := h.toStaged.child hc
  untangled ht := h.untangled (.child hc ht)
  once ht := h.once (.child hc ht)
  marked := h.marked
  free x hx := h.free x (.child (mem_children_of_mem_entered hc) hx)

variable {k₁ k₂ : Nat} {v v' : TypeVar} {b : Ty} (h : Scoped k scope (v.over b))
  (hname : v'.name = mark v.name k) (hl : Renames v.lower (k + 1) v'.lower k₁)
  (hu : Renames v.upper k₁ v'.upper k₂)

include h hname hl hu

theorem Scoped.setting : Setting v v' b := by
  have hkl := hl.named.le
  have hlow := (h.child (List.mem_pair.mpr (.inl rfl))).mono (k := k + 1) (by omega)
  have hupp := (h.child (List.mem_pair.mpr (.inr rfl))).mono (k := k₁) (by omega)
  exact setting_of_renames h.sound.varsSound h.counted h.unissued hname hl hu
    (hl.settles hlow.ready).1 (hu.settles hupp.ready).1

theorem Scoped.body : Scoped k₂ (v' :: scope) (b.substitute v v') := by
  have hkl := hl.named.le
  have hlow := (h.child (List.mem_pair.mpr (.inl rfl))).mono (k := k + 1) (by omega)
  have hupp := (h.child (List.mem_pair.mpr (.inr rfl))).mono (k := k₁) (by omega)
  have hset := h.setting hname hl hu
  have hfl := (hl.settles hlow.ready).2
  have hfu := (hu.settles hupp.ready).2
  have hlayer : ¬Layer v b := fun hl => h.once (.here hl)
  refine ⟨h.toStaged.body hset hname hl hu, (h.ready.body hset hfl hfu hname hl hu).untangled,
    fun ht => h.once (.body (rebinds_substitute hset hlayer ht)), ?_, fun x hx => ?_⟩
  · exact List.forall_mem_cons.mpr ⟨hname ▸ isMarked_mark v.name k, h.marked⟩
  · obtain rfl | hx := h.ready.free_body hset hfl hfu hx
    · exact List.mem_cons_self
    · exact List.mem_cons_of_mem _ (h.free x hx)

theorem Scoped.inside : Inside v v' [v] [v'] b := by
  have hin : Within b (v.over b) := within_body v b
  have hv : Mentions v (v.over b) := mentions_over.mpr (.inl rfl)
  have hset := h.setting hname hl hu
  have hfresh : NameFree v'.name v.toTy := by
    intro w hw he
    exact h.unissued w (hw.trans hv) (k + 1) ⟨v.name, k, Nat.le_refl k, by omega, he.trans hname⟩
  refine ⟨hset, h.sound.within hin, fun hl => h.once (.here hl),
    .cons ⟨hset.oldSound, hfresh, .inl ⟨rfl, rfl⟩⟩ .nil, List.mem_cons_self, fun x hx => ?_⟩
  by_cases hxv : x = v
  · exact .inl (hxv ▸ List.mem_cons_self)
  · have hmarked := h.ready.settled x (.body hxv hx)
    refine .inr (replace_of_not_free hset.oldSound (hset.vars x hx.mentions) fun hf => ?_)
    exact h.unmarked v (.here rfl) (hmarked v hf.mentions)

end Scoped

theorem RenamesAll.forall₂_alike {ts ts' : List Ty} {k k' : Nat} {scope : List TypeVar}
    (h : RenamesAll (fun t k t' _ => ∀ scope, Scoped k scope t →
      Alike (t.nameless scope) (t'.nameless scope)) ts k ts' k')
    (hts : ∀ t ∈ ts, Scoped k scope t) :
    List.Forall₂ Alike (ts.map (nameless scope)) (ts'.map (nameless scope)) := by
  induction h with
  | nil => exact .nil
  | cons hr h _ ih =>
    obtain ⟨ht, hts⟩ := List.forall_mem_cons.mp hts
    exact .cons (h _ ht) (ih fun t ht => (hts t ht).mono hr.named.le)

theorem Renames.alike {t t' : Ty} {k k' : Nat} (h : Renames t k t' k') {scope : List TypeVar}
    (ht : Scoped k scope t) : Alike (t.nameless scope) (t'.nameless scope) := by
  revert ht
  refine h.induct (P := fun t k t' _ => ∀ scope, Scoped k scope t →
    Alike (t.nameless scope) (t'.nameless scope)) ?leaf ?nominal ?tuple ?union ?vararg ?layer scope
  case leaf =>
    intro t k _ scope _
    exact .refl _
  case nominal =>
    intro name ps k ps' k' h scope ht
    rw [nameless, nameless, namelessAll_eq_map, namelessAll_eq_map]
    exact .nominal (h.forall₂_alike fun p hp => ht.child hp)
  case tuple =>
    intro ps k ps' k' h scope ht
    rw [nameless, nameless, namelessAll_eq_map, namelessAll_eq_map]
    exact .tuple (h.forall₂_alike fun p hp => ht.child hp)
  case union =>
    intro ms k ms' k' h scope ht
    have hperm := (h.canonicalMembers_perm ht.sound ht.unissued).map (nameless scope)
    rw [unionOf, nameless, nameless, namelessAll_eq_map, namelessAll_eq_map]
    exact .trans (.union (h.forall₂_alike fun m hm => ht.child hm)) (.order hperm.symm)
  case vararg =>
    intro e c k e' k' _ hP scope ht
    rw [nameless, nameless]
    exact .vararg (hP scope (ht.child List.mem_cons_self)) (.refl _)
  case layer =>
    intro v v' b k k₁ k₂ b' k' hname hl hu hb hPl hPu hPb scope ht
    have hkl := hl.named.le
    have hlow := ht.child (c := v.lower) (List.mem_pair.mpr (.inl rfl))
    have hupp := ht.child (c := v.upper) (List.mem_pair.mpr (.inr rfl))
    have hsub := alike_substitute scope (ht.inside hname hl hu)
    rw [nameless_over, nameless_over]
    exact .layer (hPl scope (hlow.mono (by omega))) (hPu scope (hupp.mono (by omega)))
      (.trans hsub (hPb _ (ht.body hname hl hu)))

/-- The register has every variable of the type with a marked name under that name. -/
def Registered (register : String → TypeVar) (t : Ty) : Prop :=
  ∀ x, Mentions x t → IsMarked x.name → register x.name = x

def Entered (k k' : Nat) (register register' : String → TypeVar) : Prop :=
  ∀ name, ¬Drawn k k' name → register' name = register name

section Registered

variable {r r₁ r₂ : String → TypeVar}

theorem Entered.trans {k k₁ k₂ : Nat} (h : Entered k k₁ r r₁) (h' : Entered k₁ k₂ r₁ r₂)
    (hk : k ≤ k₁) (hk' : k₁ ≤ k₂) : Entered k k₂ r r₂ := by
  intro name hd
  rw [h' name fun hd' => hd (hd'.mono hk (Nat.le_refl k₂)),
    h name fun hd' => hd (hd'.mono (Nat.le_refl k) hk')]

theorem Registered.entered {k k' : Nat} {t : Ty} (h : Registered r t) (hr : Entered k k' r r₁)
    (ht : Unissued k t) : Registered r₁ t := by
  intro x hx hm
  rw [hr x.name (ht x hx k'), h x hx hm]

theorem Registered.within {s t : Ty} (h : Registered r t) (hs : Within s t) : Registered r s :=
  fun x hx => h x (hx.within hs)

theorem RenamesAll.exists_register {ts ts' : List Ty} {k k' : Nat} {scope : List TypeVar}
    (h : RenamesAll (fun t k t' k' => ∀ scope r, Scoped k scope t → Registered r t →
      ∃ r', Entered k k' r r' ∧ Registered r' t') ts k ts' k')
    (hts : ∀ t ∈ ts, Scoped k scope t ∧ Registered r t) :
    ∃ r', Entered k k' r r' ∧ ∀ t' ∈ ts', Registered r' t' := by
  induction h generalizing r with
  | nil => exact ⟨r, fun _ _ => rfl, fun t' ht' => nomatch ht'⟩
  | cons hr h hs ih =>
    obtain ⟨⟨ht, htr⟩, hts⟩ := List.forall_mem_cons.mp hts
    obtain ⟨r₁, he, hr'⟩ := h _ r ht htr
    obtain ⟨r₂, he', hrs'⟩ := ih fun u hu =>
      ⟨(hts u hu).1.mono hr.named.le, (hts u hu).2.entered he (hts u hu).1.unissued⟩
    refine ⟨r₂, he.trans he' hr.named.le hs.le, List.forall_mem_cons.mpr ⟨?_, hrs'⟩⟩
    exact hr'.entered he' (hr.named.unissued ht.unissued)

theorem Renames.not_drawn {t t' : Ty} {j j' k k' : Nat} (h : Renames t j t' j')
    (ht : Unissued k t) (hk : k' ≤ j) {x : TypeVar} (hx : Mentions x t') : ¬Drawn k k' x.name := by
  intro hd
  obtain ⟨w, hw, he⟩ | hd' := h.named.names x hx
  · exact ht w hw k' (he ▸ hd)
  · exact hd.disjoint hd' hk

section Layers

variable {k k₁ k₂ : Nat} {scope : List TypeVar} {v v' : TypeVar} {b : Ty}
  (h : Scoped k scope (v.over b)) (hname : v'.name = mark v.name k)
  (hl : Renames v.lower (k + 1) v'.lower k₁) (hu : Renames v.upper k₁ v'.upper k₂)

include h hname hl hu

theorem Scoped.registered_toTy (hrl : Registered r v'.lower) (hru : Registered r v'.upper) :
    Registered (Function.update r v'.name v') v'.toTy := by
  have hkl := hl.named.le
  have hd : Drawn k (k + 1) v'.name := ⟨v.name, k, Nat.le_refl k, by omega, hname⟩
  have hlow : Unissued k v.lower := (h.child (List.mem_pair.mpr (.inl rfl))).unissued
  have hupp : Unissued k v.upper := (h.child (List.mem_pair.mpr (.inr rfl))).unissued
  intro x hx hm
  obtain rfl | hx | hx := mentions_toTy.mp hx
  · exact Function.update_self ..
  · have hne : x.name ≠ v'.name := fun he => hl.not_drawn hlow (Nat.le_refl _) hx (he ▸ hd)
    rw [Function.update_of_ne hne, hrl x hx hm]
  · have hne : x.name ≠ v'.name := fun he => hu.not_drawn hupp hkl hx (he ▸ hd)
    rw [Function.update_of_ne hne, hru x hx hm]

theorem Scoped.registered_body (hr : Registered r (v.over b)) (hrl : Registered r v'.lower)
    (hru : Registered r v'.upper) :
    Registered (Function.update r v'.name v') (b.substitute v v') := by
  have hset := h.setting hname hl hu
  have hin : Within b (v.over b) := within_body v b
  intro x hx hm
  obtain hx | ⟨w, hw, hxw⟩ := mentions_substitute hx
  · exact h.registered_toTy hname hl hu hrl hru x hx hm
  · have hwx : w.name = x.name := by
      obtain rfl | rfl := hxw <;> rfl
    have hnot : ¬Free v w.toTy := fun hf =>
      h.unmarked v (.here rfl) (h.settled w (hw.within hin) (hwx ▸ hm) v hf.mentions)
    rw [replace_of_not_free hset.oldSound (hset.vars w hw) hnot, or_self] at hxw
    subst hxw
    rw [Function.update_of_ne (hset.fresh x hw), hr x (hw.within hin) hm]

end Layers

/-- What a name stands for can be told from the name after a renaming. -/
theorem Renames.exists_register {t t' : Ty} {k k' : Nat} (h : Renames t k t' k')
    {scope : List TypeVar} (ht : Scoped k scope t) (hr : Registered r t) :
    ∃ r', Entered k k' r r' ∧ Registered r' t' := by
  revert ht hr
  refine h.induct (P := fun t k t' k' => ∀ scope r, Scoped k scope t → Registered r t →
    ∃ r', Entered k k' r r' ∧ Registered r' t') ?leaf ?nominal ?tuple ?union ?vararg ?layer scope r
  case leaf =>
    intro t k _ scope r _ hr
    exact ⟨r, fun _ _ => rfl, hr⟩
  case nominal =>
    intro name ps k ps' k' h scope r ht hr
    obtain ⟨r', he, hr'⟩ := h.exists_register fun p hp =>
      ⟨ht.child hp, hr.within (.child hp)⟩
    refine ⟨r', he, fun x hx => ?_⟩
    obtain ⟨p', hp', hx⟩ := mentions_nominal.mp hx
    exact hr' p' hp' x hx
  case tuple =>
    intro ps k ps' k' h scope r ht hr
    obtain ⟨r', he, hr'⟩ := h.exists_register fun p hp =>
      ⟨ht.child hp, hr.within (.child hp)⟩
    refine ⟨r', he, fun x hx => ?_⟩
    obtain ⟨p', hp', hx⟩ := mentions_tuple.mp hx
    exact hr' p' hp' x hx
  case union =>
    intro ms k ms' k' h scope r ht hr
    obtain ⟨r', he, hr'⟩ := h.exists_register fun m hm =>
      ⟨ht.child hm, hr.within (.child hm)⟩
    refine ⟨r', he, fun x hx => ?_⟩
    obtain ⟨m', hm', hx⟩ := mentions_unionOf hx
    exact hr' m' hm' x hx
  case vararg =>
    intro e c k e' k' _ hP scope r ht hr
    have hin : Within e (.vararg e c) := .part List.mem_cons_self .refl
    obtain ⟨r', he, hr'⟩ := hP scope r (ht.child List.mem_cons_self) (hr.within hin)
    refine ⟨r', he, fun x hx => ?_⟩
    obtain hx | hx := mentions_vararg.mp hx
    · exact hr' x hx
    · have hin : Within c (.vararg e c) := .part (by simp) .refl
      exact (hr.within hin).entered he (ht.unissued.within hin) x hx
  case layer =>
    intro v v' b k k₁ k₂ b' k' hname hl hu hb hPl hPu hPb scope r ht hr
    have hkl := hl.named.le
    have hku := hu.named.le
    have hkb := hb.named.le
    have hd : Drawn k k₂ v'.name := ⟨v.name, k, Nat.le_refl k, by omega, hname⟩
    have hin : ∀ c ∈ [v.lower, v.upper], Within c (v.over b) := fun c hc => .child hc
    obtain ⟨r₁, he₁, hr₁⟩ := RenamesAll.exists_register (.cons hl hPl (.cons hu hPu .nil))
      fun c hc => ⟨(ht.child hc).mono (by omega), hr.within (hin c hc)⟩
    have hrl := hr₁ v'.lower (List.mem_pair.mpr (.inl rfl))
    have hru := hr₁ v'.upper (List.mem_pair.mpr (.inr rfl))
    have hrv := ht.registered_toTy hname hl hu hrl hru
    have he₂ : Entered k k₂ r (Function.update r₁ v'.name v') := by
      intro name hn
      have hne : name ≠ v'.name := fun he => hn (he ▸ hd)
      rw [Function.update_of_ne hne,
        he₁ name fun hd' => hn (hd'.mono (by omega) (Nat.le_refl k₂))]
    obtain ⟨r', he', hr'⟩ := hPb _ _ (ht.body hname hl hu) (ht.registered_body hname hl hu
      (hr.entered he₁ (ht.unissued.mono (by omega))) hrl hru)
    refine ⟨r', he₂.trans he' (by omega) hkb, fun x hx => ?_⟩
    have hv' := hrv.entered he' (unissued_toTy ht.unissued hname hl hu)
    obtain hx | hx | hx | hx := mentions_over.mp hx
    · exact hv' x (mentions_toTy.mpr (.inl hx))
    · exact hv' x (mentions_toTy.mpr (.inr (.inl hx)))
    · exact hv' x (mentions_toTy.mpr (.inr (.inr hx)))
    · exact hr' x hx

end Registered

theorem findIdx?_congr {p q : TypeVar → Bool} {scope : List TypeVar}
    (h : ∀ v ∈ scope, p v = q v) : scope.findIdx? p = scope.findIdx? q := by
  induction scope with
  | nil => rfl
  | cons v scope ih =>
    obtain ⟨hv, hscope⟩ := List.forall_mem_cons.mp h
    rw [List.findIdx?_cons, List.findIdx?_cons, hv, ih hscope]

/-- If names tell variables apart an occurrence in a closed type is resolved by its name. -/
theorem exists_findIdx?_namesake {t : Ty} (hvars : VarsSound t) (hclosed : Closed t)
    (hnames : ∀ x y, Mentions x t → Mentions y t → x.name = y.name → x = y) {x : TypeVar}
    {scope : List TypeVar} (hx : Occurs x scope t) :
    ∃ i, scope.findIdx? x.same = some i ∧ scope.findIdx? x.namesake = some i := by
  obtain ⟨hxt, hscope⟩ := hx.mentions
  have hsame : ∀ v ∈ scope, x.namesake v = x.same v := by
    intro v hv
    rw [Bool.eq_iff_iff, TypeVar.namesake, beq_iff_eq,
      TypeVar.same_iff (hvars x hxt).exact (hvars v (hscope v hv)).exact]
    exact ⟨hnames x v hxt (hscope v hv), fun he => he ▸ rfl⟩
  have hsome : (scope.findIdx? x.same).isSome = true := by
    rw [List.findIdx?_isSome, List.any_eq_true]
    exact hclosed x scope hx
  obtain ⟨i, hi⟩ := Option.isSome_iff_exists.mp hsome
  exact ⟨i, hi, (findIdx?_congr hsame).trans hi⟩

/-- A renaming keeps the nameless form of a closed type that binds no variable twice, and then the
name of an occurrence tells which layer it belongs to. -/
theorem nameless_refresh {t : Ty} (hexact : Exact t) (hcanon : Canonical t) (hcount : Counted t)
    (hnames : Unmarked t) (hclosed : Closed t) (honce : BindsOnce t) (s : Supply) :
    Alike (t.nameless []) ((t.refresh s).1.nameless []) ∧
      ∀ x scope, Occurs x scope (t.refresh s).1 →
        ∃ i, scope.findIdx? x.same = some i ∧ scope.findIdx? x.namesake = some i := by
  have hsound : Sound t := ⟨hexact, hcanon⟩
  have hvars := hsound.varsSound
  have hfree := (closed_iff fun v hv => (hvars v hv).exact).mp hclosed
  have hr := renames_refresh t s
  have hscoped : Scoped s.next [] t := by
    refine ⟨⟨hsound, hcount, hnames.unissued _, fun x hx => hnames x hx.mentions,
      fun x hx hm => absurd hm (hnames x hx)⟩, honce.not_tangled hvars, honce.not_rebinds hvars,
      (fun w hw => nomatch hw), fun x hx => absurd hx (hfree x)⟩
  refine ⟨hr.alike hscoped, fun x scope hx => ?_⟩
  obtain ⟨hmarked, hfree'⟩ := hr.settles hscoped.ready
  have hvars' := hr.varsSound hvars
  have hclosed' : Closed (t.refresh s).1 :=
    (closed_iff fun v hv => (hvars' v hv).exact).mpr fun y hy => hfree y (hfree' y hy)
  obtain ⟨r, -, hr'⟩ := hr.exists_register (r := fun name => ⟨name, .bottom, .any⟩) hscoped
    fun y hy hm => absurd hm (hnames y hy)
  refine exists_findIdx?_namesake hvars' hclosed' (fun y z hy hz he => ?_) hx
  rw [← hr' y hy (hmarked y hy), he, hr' z hz (hmarked z hz)]

def Layerless (t : Ty) : Prop :=
  Everywhere (fun s => s.body? = none) t

theorem Layerless.not_binds {v : TypeVar} {scope : List TypeVar} {t : Ty} (ht : Layerless t) :
    ¬Binds v scope t := by
  intro h
  induction h with
  | here => cases ht.node
  | child hc _ ih => exact ih (ht.within (.child hc))
  | body _ _ => cases ht.node

theorem binds_over {v w : TypeVar} {scope : List TypeVar} {b : Ty} (hw : Layerless w.toTy)
    (h : Binds v scope (w.over b)) :
    v = w ∧ scope = [] ∨ ∃ inner, scope = inner ++ [w] ∧ Binds v inner b := by
  generalize ht : w.over b = t at h
  cases h with
  | here =>
    obtain ⟨rfl, rfl⟩ := TypeVar.over_inj.mp ht
    exact .inl ⟨rfl, rfl⟩
  | child hc h =>
    subst ht
    exact absurd (.child (t := w.toTy) hc h) hw.not_binds
  | body h =>
    obtain ⟨rfl, rfl⟩ := TypeVar.over_inj.mp ht
    exact .inr ⟨_, rfl, h⟩

namespace Example

def paired : Ty :=
  outer.over (inner.over (.tuple [inner.toTy, outer.toTy]))

theorem plain_paired : Everywhere IsPlain paired := by
  have hinner : Everywhere IsPlain inner.toTy := plain_toTy plain_bottom plain_outer
  refine plain_over plain_outer (plain_over hinner (everywhere_tuple.mpr
    ⟨⟨rfl, trivial, trivial⟩, ?_⟩))
  rw [List.forall_mem_cons, List.forall_mem_singleton]
  exact ⟨hinner, plain_outer⟩

theorem unmarked_paired : Unmarked paired := by
  refine unmarked_of_mentions fun x hx => ?_
  simp only [paired, mentions_layer, mentions_outer, mentions_inner, mentions_tuple,
    List.mem_cons, List.not_mem_nil, or_false, exists_eq_or_imp, exists_eq_left] at hx
  tauto

theorem closed_paired : Closed paired := by
  have hsound := (plain_of_everywhere plain_paired).1
  refine (closed_iff fun v hv => (hsound.varsSound v hv).exact).mpr fun x => ?_
  simp only [paired, free_outer_over, free_inner_over, free_tuple, free_inner, free_outer,
    List.mem_cons, List.not_mem_nil, or_false, exists_eq_or_imp, exists_eq_left]
  tauto

theorem layerless_outer : Layerless outer.toTy :=
  everywhere_toTy.mpr
    ⟨rfl, everywhere_union.mpr ⟨rfl, nofun⟩, everywhere_nominal.mpr ⟨rfl, nofun⟩⟩

theorem layerless_inner : Layerless inner.toTy :=
  everywhere_toTy.mpr ⟨rfl, everywhere_union.mpr ⟨rfl, nofun⟩, layerless_outer⟩

theorem bindsOnce_paired : BindsOnce paired := by
  have hpair : Layerless (.tuple [inner.toTy, outer.toTy]) := by
    rw [Layerless, everywhere_tuple, List.forall_mem_cons, List.forall_mem_singleton]
    exact ⟨rfl, layerless_inner, layerless_outer⟩
  intro v scope h w hw
  obtain ⟨-, rfl⟩ | ⟨_, rfl, hinner⟩ := binds_over layerless_outer h
  · cases hw
  · obtain ⟨rfl, rfl⟩ | ⟨_, -, hbody⟩ := binds_over layerless_inner hinner
    · obtain rfl := List.mem_singleton.mp hw
      rfl
    · exact absurd hbody hpair.not_binds

end Example

open Example

theorem nameless_refresh_paired : (Closed paired ∧ BindsOnce paired) ∧
    Alike (paired.nameless []) ((paired.refresh {}).1.nameless []) := by
  obtain ⟨hsound, -, hcount⟩ := plain_of_everywhere plain_paired
  refine ⟨⟨closed_paired, bindsOnce_paired⟩, ?_⟩
  exact (nameless_refresh hsound.exact hsound.canonical hcount unmarked_paired closed_paired
    bindsOnce_paired {}).1

example : paired.nameless [] = .layer (.union []) (.nominal .any [])
    (.layer (.union []) (.bound (some 0)) (.tuple [.bound (some 0), .bound (some 1)])) := by
  rfl

end Ty

end Anatomy
