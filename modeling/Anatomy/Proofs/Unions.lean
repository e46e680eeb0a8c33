import Anatomy.Proofs.Members

namespace Anatomy

section eraseDupsBy

variable {α : Type} {same : α → α → Bool} (refl : ∀ a, same a a = true)

include refl

theorem mem_eraseDupsBy {as : List α} (h : ∀ a ∈ as, ∀ b ∈ as, same a b = true → a = b) {a : α} :
    a ∈ as.eraseDupsBy same ↔ a ∈ as := by
  constructor
  · exact fun ha => (eraseDupsBy_sublist as).mem ha
  · intro ha
    obtain ⟨b, hb, hab⟩ := exists_mem_eraseDupsBy refl ha
    rwa [h a ha b ((eraseDupsBy_sublist as).mem hb) hab]

theorem perm_eraseDupsBy {as bs : List α} (hperm : as.Perm bs)
    (h : ∀ a ∈ bs, ∀ b ∈ bs, same a b = true → a = b) :
    (as.eraseDupsBy same).Perm (bs.eraseDupsBy same) := by
  have has : ∀ a ∈ as, ∀ b ∈ as, same a b = true → a = b := by
    intro a ha b hb
    exact h a (hperm.mem_iff.mp ha) b (hperm.mem_iff.mp hb)
  apply (List.perm_ext_iff_of_nodup (nodup_eraseDupsBy refl as) (nodup_eraseDupsBy refl bs)).mpr
  intro a
  rw [mem_eraseDupsBy refl has, mem_eraseDupsBy refl h, hperm.mem_iff]

end eraseDupsBy

namespace Ty

theorem label_shown (t : Ty) : t.shown.label = t.label := by
  cases t with
  | value scalar => cases scalar <;> rfl
  | _ => rfl

theorem precedes_shown (a b : Ty) : precedes a.shown b.shown = precedes a b := by
  simp only [precedes, label_shown, inspect_shown]

/-- The members of a union look the same, whatever order the types that it is made of are in. -/
theorem map_shown_canonicalMembers {ms ms' : List Ty} (hperm : (flatten ms').Perm (flatten ms))
    (hsame : ∀ a ∈ flatten ms, ∀ b ∈ flatten ms, same a b = true → a.shown = b.shown) :
    (canonicalMembers ms').map shown = (canonicalMembers ms).map shown := by
  have hsorted : ∀ ts, ((canonicalMembers ts).map shown).Pairwise (precedes · ·) := by
    intro ts
    apply (pairwise_canonicalMembers ts).map
    intro a b h
    rwa [precedes_shown]
  have hmembers : (canonicalMembers ms').Perm (canonicalMembers ms) := by
    have hkept := perm_eraseDupsBy (agree_refl .kind) hperm fun a ha b hb h =>
      eq_of_agree h (hsame a ha b hb h)
    exact ((List.mergeSort_perm _ _).trans hkept).trans (List.mergeSort_perm _ _).symm
  apply (hmembers.map shown).eq_of_pairwise ?_ (hsorted ms') (hsorted ms)
  -- Members that precede each other are displayed alike, so their places may be exchanged.
  intro a b ha hb hab hba
  obtain ⟨a, -, rfl⟩ := List.mem_map.mp ha
  obtain ⟨b, -, rfl⟩ := List.mem_map.mp hb
  rw [precedes_shown] at hab hba
  exact shown_of_precedes hab hba

theorem isUnion_of_mem_flatten {ms : List Ty} (hms : ∀ m ∈ ms, Canonical m) {t : Ty}
    (ht : t ∈ flatten ms) : t.isUnion = false := by
  obtain ⟨-, hu⟩ | ⟨members, hm, ht⟩ := mem_of_mem_flatten ht
  · exact hu
  · exact (hms _ hm).flat t ht

/-- The order of members, where different members come strictly after one another. -/
def Before (a b : Ty) : Prop :=
  a.label < b.label ∨ a.label = b.label ∧ a.inspect < b.inspect

theorem before_of_precedes {a b : Ty} (ha : AllDefined a) (hb : AllDefined b)
    (h : precedes a b = true) (hne : same b a = false) : Before a b := by
  obtain h | ⟨hl, hi⟩ := precedes_iff.mp h
  · exact .inl h
  · refine .inr ⟨hl, ?_⟩
    by_contra hlt
    obtain rfl := inspect_inj ha hb (String.le_antisymm hi (String.not_lt.mp hlt))
    rw [same, agree_refl] at hne
    cases hne

theorem pairwise_before_canonicalMembers {ms : List Ty}
    (h : ∀ m ∈ canonicalMembers ms, AllDefined m) : (canonicalMembers ms).Pairwise Before := by
  apply ((pairwise_canonicalMembers ms).and (apart_canonicalMembers ms)).imp_of_mem
  rintro a b ha hb ⟨hprecedes, hne⟩
  exact before_of_precedes (h a ha) (h b hb) hprecedes hne

theorem canonicalMembers_canonicalMembers {ms : List Ty} (hms : ∀ m ∈ ms, Canonical m) :
    canonicalMembers (canonicalMembers ms) = canonicalMembers ms := by
  have hflat : ∀ t ∈ flatten ms, t.isUnion = false := fun t => isUnion_of_mem_flatten hms
  have hcanon : canonicalMembers (canonicalMembers (flatten ms)) = canonicalMembers (flatten ms) :=
    isCanonical_unionOf hflat
  rwa [canonicalMembers_of_flat hflat] at hcanon

theorem map_shown_of_allDefined {ts : List Ty} (h : ∀ t ∈ ts, AllDefined t) :
    ts.map shown = ts := by
  rw [← shownAll_eq_map, shownAll_of_forall fun t ht => shown_of_allDefined (h t ht)]

/-- A union has one form, whatever the order and the grouping of the types that it is made of, as
long as equal ones look alike. It is built from its own members again, none of them is a union, and
they are in strictly increasing order. -/
theorem canonicalMembers_unique {ms : List Ty} (hms : ∀ m ∈ ms, Canonical m) :
    (∀ ms', (flatten ms').Perm (flatten ms) →
      (∀ a ∈ flatten ms, ∀ b ∈ flatten ms, same a b = true → a.shown = b.shown) →
        (canonicalMembers ms').map shown = (canonicalMembers ms).map shown ∧
          ((∀ t ∈ flatten ms, AllDefined t) → canonicalMembers ms' = canonicalMembers ms)) ∧
      canonicalMembers (canonicalMembers ms) = canonicalMembers ms ∧
      (∀ m ∈ canonicalMembers ms, m.isUnion = false) ∧
      ((∀ m ∈ canonicalMembers ms, AllDefined m) → (canonicalMembers ms).Pairwise Before) := by
  refine ⟨?_, canonicalMembers_canonicalMembers hms, ?_, pairwise_before_canonicalMembers⟩
  · intro ms' hperm hsame
    have hshown := map_shown_canonicalMembers hperm hsame
    refine ⟨hshown, fun hdefined => ?_⟩
    rwa [map_shown_of_allDefined, map_shown_of_allDefined] at hshown
    · intro m hm
      exact hdefined m (mem_flatten_of_mem_canonicalMembers hm)
    · intro m hm
      exact hdefined m (hperm.mem_iff.mp (mem_flatten_of_mem_canonicalMembers hm))
  · intro m hm
    exact isUnion_of_mem_flatten hms (mem_flatten_of_mem_canonicalMembers hm)

namespace Example

def integer : Ty :=
  .nominal ⟨"Int", "Core"⟩ []

def text : Ty :=
  .nominal ⟨"String", "Core"⟩ []

def one : Ty :=
  .value (.int 1)

theorem exact_integer_text_one : ∀ t ∈ [integer, text, one], Exact t := by
  have hexact : ∀ {t : Ty}, t.parts = [] → IsExact t → Exact t := everywhere_of_parts_eq_nil
  rw [List.forall_mem_cons, List.forall_mem_cons, List.forall_mem_singleton]
  exact ⟨hexact rfl ⟨rfl, rfl, nofun⟩, hexact rfl ⟨rfl, rfl, nofun⟩, hexact rfl ⟨rfl, rfl, nofun⟩⟩

theorem sorted_integer_text_one : [integer, text, one].Pairwise (precedes · ·) := by
  decide

theorem nodup_integer_text_one : [integer, text, one].Nodup := by
  simp [integer, text, one]

theorem canonicalMembers_of_sublist {ts : List Ty} (h : ts.Sublist [integer, text, one]) :
    canonicalMembers ts = ts := by
  have hflat : ∀ t ∈ [integer, text, one], t.isUnion = false := by decide
  exact canonicalMembers_eq_of_perm (fun t ht => hflat t (h.mem ht))
    (fun t ht => exact_integer_text_one t (h.mem ht)) (nodup_integer_text_one.sublist h) (.refl ts)
    (sorted_integer_text_one.sublist h)

theorem canonical_one_union : ∀ t ∈ [one, .union [integer, text]], Canonical t := by
  have hcanon : ∀ {t : Ty}, t.parts = [] → IsCanonical t → Canonical t :=
    everywhere_of_parts_eq_nil
  have hunion : IsCanonical (.union [integer, text]) :=
    canonicalMembers_of_sublist (List.sublist_append_left [integer, text] [one])
  rw [List.forall_mem_cons, List.forall_mem_singleton, Canonical, Canonical, everywhere_union,
    List.forall_mem_cons, List.forall_mem_singleton]
  exact ⟨hcanon rfl trivial, hunion, hcanon rfl trivial, hcanon rfl trivial⟩

end Example

open Example

theorem canonicalMembers_unique_nested :
    canonicalMembers [one, .union [integer, text]] = [integer, text, one] ∧
      canonicalMembers [text, integer, one] = [integer, text, one] ∧
      [integer, text, one].Pairwise Before := by
  have hperm : [one, integer, text].Perm [integer, text, one] :=
    (List.perm_append_singleton one [integer, text]).symm
  have hexact : ∀ t ∈ [one, integer, text], Exact t :=
    fun t ht => exact_integer_text_one t (hperm.mem_iff.mp ht)
  have hflatten : canonicalMembers [one, .union [integer, text]] =
      canonicalMembers [one, integer, text] := rfl
  have hmembers : canonicalMembers [one, .union [integer, text]] = [integer, text, one] := by
    rw [hflatten]
    exact canonicalMembers_eq_of_perm (by decide) hexact
      (hperm.nodup_iff.mpr nodup_integer_text_one) hperm sorted_integer_text_one
  obtain ⟨hunique, -, -, hordered⟩ := canonicalMembers_unique canonical_one_union
  rw [hmembers] at hunique hordered
  refine ⟨hmembers, ?_, hordered fun t ht => (exact_integer_text_one t ht).allDefined⟩
  refine (hunique [text, integer, one] ?_ ?_).2 fun t ht => (hexact t ht).allDefined
  · exact (List.Perm.swap integer text [one]).trans hperm.symm
  · intro a ha b hb h
    rw [(same_iff (hexact a ha) (hexact b hb)).mp h]

end Ty

end Anatomy
