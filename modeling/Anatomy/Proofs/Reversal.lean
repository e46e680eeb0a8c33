import Anatomy.Proofs.Strays

namespace Anatomy.Ty

variable {old new : TypeVar}

theorem replace_ne_old (hold : Sound old.toTy) (hnew : Sound new.toTy)
    (hfresh : NameFree new.name old.toTy) {w : TypeVar} (hw : Sound w.toTy)
    (hfw : NameFree new.name w.toTy) (hwo : w ≠ old) : w.replace old new ≠ old := by
  intro he
  have hm : Mentions (w.replace old new) old.toTy := mentions_toTy.mpr (.inl he.symm)
  exact hwo ((replace_eq_of_mentions hold hnew hfresh hw hfw hwo hm).symm.trans he)

theorem not_free_bounds (v : TypeVar) : ¬Free v v.lower ∧ ¬Free v v.upper :=
  ⟨fun h => (not_mentions_bounds v).1 h.mentions, fun h => (not_mentions_bounds v).2 h.mentions⟩

theorem not_free_substitute (hold : Sound old.toTy) (hnew : Sound new.toTy)
    (hfresh : NameFree new.name old.toTy) (hfree : ¬Free old new.toTy) {t : Ty} (ht : VarsSound t)
    (hcount : Counted t) (hft : NameFree new.name t) : ¬Free old (t.substitute old new) := by
  induction t using induct_parts with
  | _ t ih =>
    have hchild : ∀ p ∈ t.children, ¬Free old (p.substitute old new) := fun p hp =>
      have hw : Within p t := .child hp
      ih p (mem_parts_of_mem_children hp) (ht.within hw) (hcount.within hw) (hft.within hw)
    have hview : Replaces old new t (t.substitute old new) :=
      replaces_substitute hold ht hcount.node
    intro h
    generalize t.substitute old new = t' at h hview
    cases hview with
    | occurrence => exact hfree h
    | shadow =>
      obtain h | h | ⟨hne, -⟩ := free_over.mp h
      · exact (not_free_bounds old).1 h
      · exact (not_free_bounds old).2 h
      · exact hne rfl
    | layer hw =>
      rename_i w b
      have hin : Within b (w.over b) := within_body w b
      obtain h | h | ⟨-, h⟩ := free_over.mp h
      · exact hchild w.lower (by simp) h
      · exact hchild w.upper (by simp) h
      · exact ih b (mem_parts_over w b) (ht.within hin) (hcount.within hin) (hft.within hin) h
    | other hbody hbody' hvar hvar' hchildren =>
      obtain he | ⟨c, hc, h⟩ := free_cases h hbody'
      · obtain ⟨w, rfl, hwo, hw⟩ := hvar old he
        have hs := ht w (mentions_toTy.mpr (.inl rfl))
        exact replace_ne_old hold hnew hfresh hs hft hwo hw.symm
      · obtain ⟨p, hp, rfl | ⟨-, hcp⟩⟩ := hchildren c hc
        · exact hchild p hp h
        · exact hchild p hp (.child hcp h)

/-- If a variable is not free, each of its occurrences stands below a layer that binds it. -/
theorem exists_same_of_not_free {x : TypeVar} {t : Ty} (hvars : VarsSound t) (hx : Sound x.toTy)
    (h : ¬Free x t) {y : TypeVar} {scope : List TypeVar} (hy : Occurs y scope t)
    (hs : y.same x = true) : ∃ v ∈ scope, v.same x = true := by
  obtain rfl := (TypeVar.same_iff (hvars y hy.mentions.1).exact hx.exact).mp hs
  by_cases hm : y ∈ scope
  · exact ⟨y, hm, hs⟩
  · exact absurd (free_of_occurs hy hm) h

/-- A replacement by a variable with a fresh name is undone by the opposite one. If the old variable
is not free in the new one, nothing of it is left but what a layer binds again. -/
theorem substitute_fresh {t : Ty} (ht : Sound t) (hold : Sound old.toTy) (hnew : Sound new.toTy)
    (hft : NameFree new.name t) (hfresh : NameFree new.name old.toTy) :
    (t.substitute old new).substitute new old = t ∧
      (¬Free old new.toTy → Counted t → ∀ x scope, Occurs x scope (t.substitute old new) →
        x.same old = true → ∃ v ∈ scope, v.same old = true) := by
  refine ⟨substitute_substitute hold hnew ht hft, fun hfree hcount x scope hx hs => ?_⟩
  have hvars : VarsSound (t.substitute old new) := (ht.substitute hnew).varsSound
  have hnot := not_free_substitute hold hnew hfresh hfree ht.varsSound hcount hft
  exact exists_same_of_not_free hvars hold hnot hx hs

namespace Example

def fresh : TypeVar :=
  ⟨"A", .bottom, .any⟩

def scattered : Ty :=
  .tuple [unionOf [outer.toTy, inner.toTy], outer.over (box outer.toTy),
    .vararg (box inner.toTy) outer.toTy]

theorem plain_fresh : Everywhere IsPlain fresh.toTy :=
  plain_toTy plain_bottom plain_any

theorem plain_scattered : Everywhere IsPlain scattered := by
  have hinner : Everywhere IsPlain inner.toTy := plain_toTy plain_bottom plain_outer
  have hunion : Everywhere IsPlain (unionOf [outer.toTy, inner.toTy]) := by
    refine .unionOf ⟨rfl, isCanonical_unionOf (by simp [isUnion, TypeVar.toTy]), trivial⟩ ?_
    rw [List.forall_mem_cons, List.forall_mem_singleton]
    exact ⟨plain_outer, hinner⟩
  have hcount : Everywhere IsPlain (.vararg (box inner.toTy) outer.toTy) :=
    everywhere_vararg.mpr ⟨⟨rfl, trivial, trivial⟩, plain_box hinner, plain_outer⟩
  rw [scattered, everywhere_tuple, List.forall_mem_cons, List.forall_mem_cons,
    List.forall_mem_singleton]
  exact ⟨⟨rfl, trivial, trivial⟩, hunion, plain_over plain_outer (plain_box plain_outer), hcount⟩

theorem inner_or_outer_of_mentions_scattered {x : TypeVar} (h : Mentions x scattered) :
    inner = x ∨ outer = x := by
  have hunion : Mentions x (unionOf [outer.toTy, inner.toTy]) → inner = x ∨ outer = x := by
    intro h
    obtain ⟨t, ht, h⟩ := mentions_unionOf h
    obtain rfl | rfl := List.mem_pair.mp ht
    · exact .inr (mentions_outer.mp h)
    · exact mentions_inner.mp h
  simp only [scattered, box, mentions_tuple, mentions_layer, mentions_vararg, mentions_nominal,
    mentions_outer, mentions_inner, List.mem_cons, List.not_mem_nil, or_false,
    exists_eq_or_imp, exists_eq_left] at h
  tauto

theorem nameFree_fresh {t : Ty} (h : ∀ x, Mentions x t → inner = x ∨ outer = x) :
    NameFree fresh.name t := by
  intro x hx
  obtain rfl | rfl := h x hx
  · simp [inner, fresh]
  · simp [outer, fresh]

end Example

open Example

theorem substitute_fresh_scattered :
    (Sound scattered ∧ Sound outer.toTy ∧ Sound fresh.toTy ∧ NameFree fresh.name scattered ∧
        NameFree fresh.name outer.toTy ∧ ¬Free outer fresh.toTy ∧ Counted scattered) ∧
      (scattered.substitute outer fresh).substitute fresh outer = scattered ∧
      ∀ x scope, Occurs x scope (scattered.substitute outer fresh) → x.same outer = true →
        ∃ v ∈ scope, v.same outer = true := by
  obtain ⟨hsound, -, hcount⟩ := plain_of_everywhere plain_scattered
  have hold : Sound outer.toTy := (plain_of_everywhere plain_outer).1
  have hnew : Sound fresh.toTy := (plain_of_everywhere plain_fresh).1
  have hft := nameFree_fresh fun _ hx => inner_or_outer_of_mentions_scattered hx
  have hfresh : NameFree fresh.name outer.toTy :=
    nameFree_fresh fun _ hx => .inr (mentions_outer.mp hx)
  have hfree : ¬Free outer fresh.toTy := by
    simp [fresh, outer, bottom, any]
  obtain ⟨hback, hleft⟩ := substitute_fresh hsound hold hnew hft hfresh
  exact ⟨⟨hsound, hold, hnew, hft, hfresh, hfree, hcount⟩, hback, hleft hfree hcount⟩

end Anatomy.Ty
