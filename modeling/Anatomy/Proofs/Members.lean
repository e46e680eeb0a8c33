import Anatomy.Ty.Union
import Anatomy.Proofs.Identity

namespace Anatomy

section eraseDupsBy

variable {α : Type} {same : α → α → Bool}

theorem pairwise_eraseDupsBy (as : List α) :
    (as.eraseDupsBy same).Pairwise (fun a b => same b a = false) := by
  refine eraseDupsBy_induct (P := fun _ kept => kept.Pairwise fun a b => same b a = false)
    .nil ?_ as
  intro a as h
  refine List.pairwise_cons.mpr ⟨fun b hb => ?_, h⟩
  have hb := (eraseDupsBy_sublist _).mem hb
  simpa using List.of_mem_filter hb

theorem eraseDupsBy_eq_self {as : List α} (h : as.Pairwise fun a b => same b a = false) :
    as.eraseDupsBy same = as := by
  revert h
  refine eraseDupsBy_induct (P := fun as kept => (as.Pairwise fun a b => same b a = false) →
    kept = as) (fun _ => rfl) ?_ as
  intro a as ih h
  obtain ⟨ha, has⟩ := List.pairwise_cons.mp h
  have hfilter : (as.filter fun b => same b a = false) = as :=
    List.filter_eq_self.mpr fun b hb => by simpa using ha b hb
  rw [ih (hfilter.symm ▸ has), hfilter]

variable (refl : ∀ a, same a a = true)

include refl

theorem nodup_eraseDupsBy (as : List α) : (as.eraseDupsBy same).Nodup := by
  apply (pairwise_eraseDupsBy as).imp
  rintro a _ h rfl
  rw [refl] at h
  cases h

theorem exists_mem_eraseDupsBy {as : List α} {a : α} (ha : a ∈ as) :
    ∃ b ∈ as.eraseDupsBy same, same a b = true := by
  revert ha
  refine eraseDupsBy_induct (P := fun as kept => a ∈ as → ∃ b ∈ kept, same a b = true) nofun ?_ as
  intro c as ih ha
  cases hac : same a c with
  | true => exact ⟨c, List.mem_cons_self, hac⟩
  | false =>
    have hne : a ≠ c := by
      rintro rfl
      rw [refl] at hac
      cases hac
    have ha := (List.mem_cons.mp ha).resolve_left hne
    obtain ⟨b, hb, hab⟩ := ih (List.mem_filter.mpr ⟨ha, by simpa using hac⟩)
    exact ⟨b, List.mem_cons_of_mem c hb, hab⟩

end eraseDupsBy

open Text.Quoted

namespace Ty

def isUnion : Ty → Bool
  | .union _ => true
  | _ => false

/-- A union that is built from its members has them in this order. -/
def IsCanonical : Ty → Prop
  | .union members => canonicalMembers members = members
  | _ => True

def Canonical (t : Ty) : Prop :=
  Everywhere IsCanonical t

/-- Types among which equality is identity and unions are in canonical form. -/
structure Sound (t : Ty) : Prop where
  exact : Exact t
  canonical : Canonical t

theorem precedes_iff {a b : Ty} : precedes a b = true ↔
    a.label < b.label ∨ a.label = b.label ∧ a.inspect ≤ b.inspect := by
  simp only [precedes, Bool.or_eq_true, Bool.and_eq_true, decide_eq_true_eq, beq_iff_eq,
    Bool.not_eq_true', decide_eq_false_iff_not, String.not_lt]

theorem exists_chars_over (v : TypeVar) (b : Ty) : ∃ rest,
    chars (v.over b) = "UnionAll".toList ++ '(' :: ("var=".toList ++ ("TypeVar".toList ++
      '(' :: ("name=".toList ++ (quoteChars v.name.toList ++ rest)))) := by
  have hquote : (quote v.name).toList = quoteChars v.name.toList := String.toList_ofList
  rw [chars_over, chars_toTy, hquote]
  simp only [List.append_assoc, List.cons_append]
  exact ⟨_, rfl⟩

/-- Layers come in the order of the displayed names of their variables. -/
theorem precedes_over {v w : TypeVar} {a b : Ty} (common : List Char) {xs ys : List Char}
    {c d : Char} (hv : quoteChars v.name.toList = common ++ c :: xs)
    (hw : quoteChars w.name.toList = common ++ d :: ys) (h : c < d) :
    precedes (v.over a) (w.over b) = true := by
  obtain ⟨rest, hrest⟩ := exists_chars_over v a
  obtain ⟨rest', hrest'⟩ := exists_chars_over w b
  have hname : quoteChars v.name.toList ++ rest < quoteChars w.name.toList ++ rest' := by
    rw [hv, hw, List.append_assoc, List.append_assoc]
    exact List.append_left_lt (.rel h)
  have hlt : chars (v.over a) < chars (w.over b) := by
    rw [hrest, hrest']
    exact List.append_left_lt (.cons (List.append_left_lt (List.append_left_lt
      (.cons (List.append_left_lt hname)))))
  exact precedes_iff.mpr (.inr ⟨rfl, String.not_lt.mp (String.lt_asymm (String.lt_iff.mpr hlt))⟩)

theorem precedes_total (a b : Ty) : precedes a b = true ∨ precedes b a = true := by
  simp only [precedes_iff]
  by_cases hab : a.label < b.label
  · exact .inl (.inl hab)
  by_cases hba : b.label < a.label
  · exact .inr (.inl hba)
  have hl : a.label = b.label := String.le_antisymm (String.not_lt.mp hba) (String.not_lt.mp hab)
  obtain hi | hi := String.le_total a.inspect b.inspect
  · exact .inl (.inr ⟨hl, hi⟩)
  · exact .inr (.inr ⟨hl.symm, hi⟩)

theorem precedes_trans {a b c : Ty} (hab : precedes a b = true) (hbc : precedes b c = true) :
    precedes a c = true := by
  rw [precedes_iff] at *
  obtain hab | ⟨hab, hi⟩ := hab
  · obtain hbc | ⟨hbc, -⟩ := hbc
    · exact .inl (String.lt_trans hab hbc)
    · exact .inl (hbc ▸ hab)
  · obtain hbc | ⟨hbc, hi'⟩ := hbc
    · exact .inl (hab ▸ hbc)
    · exact .inr ⟨hab.trans hbc, String.le_trans hi hi'⟩

theorem shown_of_precedes {a b : Ty} (hab : precedes a b = true) (hba : precedes b a = true) :
    a.shown = b.shown := by
  rw [precedes_iff] at hab hba
  obtain hab | ⟨hl, hab⟩ := hab
  · obtain hba | ⟨hl, -⟩ := hba
    · exact absurd hba (String.lt_asymm hab)
    · exact absurd (hl ▸ hab) (String.lt_irrefl _)
  · obtain hba | ⟨-, hba⟩ := hba
    · exact absurd (hl ▸ hba) (String.lt_irrefl _)
    · exact shown_of_inspect (String.le_antisymm hab hba)

theorem precedes_antisymm {a b : Ty} (ha : Exact a) (hb : Exact b) (hab : precedes a b = true)
    (hba : precedes b a = true) : a = b := by
  rw [← shown_of_allDefined ha.allDefined, ← shown_of_allDefined hb.allDefined,
    shown_of_precedes hab hba]

theorem flatten_of_flat {ts : List Ty} (h : ∀ t ∈ ts, t.isUnion = false) : flatten ts = ts := by
  induction ts with
  | nil => rfl
  | cons t ts ih =>
    obtain ⟨ht, hts⟩ := List.forall_mem_cons.mp h
    cases t with
    | union members => cases ht
    | _ => exact congrArg (List.cons _) (ih hts)

theorem mem_of_mem_flatten {t : Ty} {ts : List Ty} (h : t ∈ flatten ts) :
    t ∈ ts ∧ t.isUnion = false ∨ ∃ members, .union members ∈ ts ∧ t ∈ members := by
  induction ts with
  | nil => cases h
  | cons u ts ih =>
    have hrest : t ∈ flatten ts →
        t ∈ u :: ts ∧ t.isUnion = false ∨ ∃ members, .union members ∈ u :: ts ∧ t ∈ members := by
      intro h
      obtain ⟨h, hu⟩ | ⟨members, hm, h⟩ := ih h
      · exact .inl ⟨List.mem_cons_of_mem _ h, hu⟩
      · exact .inr ⟨members, List.mem_cons_of_mem _ hm, h⟩
    cases u with
    | union members =>
      obtain h | h := List.mem_append.mp h
      · exact .inr ⟨members, List.mem_cons_self, h⟩
      · exact hrest h
    | _ =>
      obtain rfl | h := List.mem_cons.mp h
      · exact .inl ⟨List.mem_cons_self, rfl⟩
      · exact hrest h

theorem mem_flatten_of_mem_canonicalMembers {t : Ty} {ts : List Ty}
    (h : t ∈ canonicalMembers ts) : t ∈ flatten ts :=
  (eraseDupsBy_sublist _).mem (List.mem_mergeSort.mp h)

theorem mem_of_mem_canonicalMembers {t : Ty} {ts : List Ty} (hts : ∀ t ∈ ts, t.isUnion = false)
    (h : t ∈ canonicalMembers ts) : t ∈ ts := by
  have h := mem_flatten_of_mem_canonicalMembers h
  rwa [flatten_of_flat hts] at h

theorem Canonical.flat {members : List Ty} (h : Canonical (.union members)) :
    ∀ m ∈ members, m.isUnion = false := by
  -- A union among the members would come from inside another one, which has none by induction.
  have hflat : ∀ t, Canonical t → ∀ ms, t = .union ms → ∀ m ∈ ms, m.isUnion = false := by
    intro t ht
    induction t with
    | union ms ih =>
      rintro _ ⟨⟩ m hm
      have hcanon : canonicalMembers ms = ms := ht.node
      rw [← hcanon] at hm
      obtain ⟨-, hu⟩ | ⟨inner, hinner, hm⟩ :=
        mem_of_mem_flatten (mem_flatten_of_mem_canonicalMembers hm)
      · exact hu
      · exact ih _ hinner ((everywhere_union.mp ht).2 _ hinner) inner rfl m hm
    | _ => rintro ms ⟨⟩
  exact hflat _ h members rfl

theorem pairwise_canonicalMembers (ts : List Ty) :
    (canonicalMembers ts).Pairwise (precedes · ·) := by
  have htotal : ∀ a b : Ty, (precedes a b || precedes b a) = true := by
    intro a b
    rw [Bool.or_eq_true]
    exact precedes_total a b
  have htrans : ∀ a b c : Ty, precedes a b = true → precedes b c = true → precedes a c = true :=
    fun _ _ _ => precedes_trans
  exact List.pairwise_mergeSort htrans htotal ((flatten ts).eraseDupsBy same)

theorem apart_canonicalMembers (ts : List Ty) :
    (canonicalMembers ts).Pairwise (fun a b => same b a = false) := by
  have hcomm : ∀ {a b : Ty}, same b a = false → same a b = false := by
    intro a b h
    rw [same, agree_comm]
    exact h
  rw [canonicalMembers, (List.mergeSort_perm _ _).pairwise_iff hcomm]
  exact pairwise_eraseDupsBy _

theorem nodup_canonicalMembers (ts : List Ty) : (canonicalMembers ts).Nodup :=
  (List.mergeSort_perm _ _).nodup_iff.mpr (nodup_eraseDupsBy (agree_refl .kind) _)

section

variable {ts : List Ty} (hflat : ∀ t ∈ ts, t.isUnion = false)

include hflat

theorem canonicalMembers_of_flat :
    canonicalMembers ts = (ts.eraseDupsBy same).mergeSort precedes := by
  rw [canonicalMembers, flatten_of_flat hflat]

theorem canonicalMembers_of_apart (h : ts.Pairwise fun a b => same b a = false) :
    canonicalMembers ts = ts.mergeSort precedes := by
  rw [canonicalMembers_of_flat hflat, eraseDupsBy_eq_self h]

theorem isCanonical_unionOf : IsCanonical (unionOf ts) := by
  have hmem : ∀ t ∈ canonicalMembers ts, t.isUnion = false :=
    fun t ht => hflat t (mem_of_mem_canonicalMembers hflat ht)
  rw [unionOf, IsCanonical, canonicalMembers_of_apart hmem (apart_canonicalMembers ts)]
  exact List.mergeSort_of_pairwise (pairwise_canonicalMembers ts)

variable (hexact : ∀ t ∈ ts, Exact t)

include hexact

theorem canonicalMembers_perm (hnodup : ts.Nodup) : (canonicalMembers ts).Perm ts := by
  have hapart : ts.Pairwise fun a b => same b a = false := by
    apply hnodup.imp_of_mem
    intro a b ha hb hne
    rw [← Bool.not_eq_true, same_iff (hexact b hb) (hexact a ha)]
    exact Ne.symm hne
  rw [canonicalMembers_of_apart hflat hapart]
  exact List.mergeSort_perm ts precedes

/-- Members in order are the canonical form of every permutation of them. -/
theorem canonicalMembers_eq_of_perm {us : List Ty} (hnodup : ts.Nodup) (hperm : ts.Perm us)
    (hsorted : us.Pairwise (precedes · ·)) : canonicalMembers ts = us := by
  have hp : (canonicalMembers ts).Perm us := (canonicalMembers_perm hflat hexact hnodup).trans hperm
  have hus : ∀ u ∈ us, Exact u := fun u hu => hexact u (hperm.mem_iff.mpr hu)
  refine hp.eq_of_pairwise ?_ (pairwise_canonicalMembers ts) hsorted
  intro a b ha hb
  exact precedes_antisymm (hus a (hp.mem_iff.mp ha)) (hus b hb)

end

theorem Sound.member {members : List Ty} (h : Sound (.union members)) {m : Ty}
    (hm : m ∈ members) : Sound m :=
  ⟨(everywhere_union.mp h.exact).2 m hm, (everywhere_union.mp h.canonical).2 m hm⟩

theorem Sound.nodup {members : List Ty} (h : Sound (.union members)) : members.Nodup := by
  have hcanon : canonicalMembers members = members := h.canonical.node
  rw [← hcanon]
  exact nodup_canonicalMembers members

theorem Sound.sorted {members : List Ty} (h : Sound (.union members)) :
    members.Pairwise (precedes · ·) := by
  have hcanon : canonicalMembers members = members := h.canonical.node
  rw [← hcanon]
  exact pairwise_canonicalMembers members

end Ty

end Anatomy
