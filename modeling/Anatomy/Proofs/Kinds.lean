import Mathlib.Data.List.Forall2
import Anatomy.Proofs.Members

namespace Anatomy

inductive NumberKind
  | truth
  | integer
  | float
  deriving DecidableEq

namespace Scalar

def numberKind? : Scalar → Option NumberKind
  | .bool _ => some .truth
  | .int _ => some .integer
  | .float _ => some .float
  | _ => none

def OtherKind (x y : Scalar) : Prop :=
  ∃ k l, x.numberKind? = some k ∧ y.numberKind? = some l ∧ k ≠ l

theorem OtherKind.same_eq_false {x y : Scalar} (h : x.OtherKind y) : x.same y = false := by
  obtain ⟨k, l, hx, hy, hkl⟩ := h
  cases x <;> cases y <;> simp_all [numberKind?, same]

end Scalar

namespace Ty

/-- Types of one shape whose only differences are numbers of different kinds. Members of unions are
paired in their canonical order, so two unions are not related if a change of kind sorts the members
in another order. -/
inductive Recast : Ty → Ty → Prop
  | nominal {name : TypeName} {as bs : List Ty} (h : List.Forall₂ Recast as bs) :
      Recast (.nominal name as) (.nominal name bs)
  | tuple {as bs : List Ty} (h : List.Forall₂ Recast as bs) : Recast (.tuple as) (.tuple bs)
  | union {as bs : List Ty} (h : List.Forall₂ Recast as bs) : Recast (.union as) (.union bs)
  | var {name : String} {lower upper lower' upper' : Ty} (hl : Recast lower lower')
      (hu : Recast upper upper') : Recast (.var name lower upper) (.var name lower' upper')
  | layer {name : String} {lower upper body lower' upper' body' : Ty} (hl : Recast lower lower')
      (hu : Recast upper upper') (hb : Recast body body') :
      Recast (.unionAll name lower upper body) (.unionAll name lower' upper' body')
  | vararg {element count element' count' : Ty} (he : Recast element element')
      (hc : Recast count count') : Recast (.vararg element count) (.vararg element' count')
  | symbol {name : String} : Recast (.symbol name) (.symbol name)
  | bareName {name : TypeName} : Recast (.bareName name) (.bareName name)
  | value {x : Scalar} : Recast (.value x) (.value x)
  | number {x y : Scalar} (h : x.OtherKind y) : Recast (.value x) (.value y)

def partMeasure (t : Ty) : Measure :=
  if t.typeVar?.isSome then .worth else .kind

/-- In two types the plain values `x` and `y` stand at one position, where they are compared by the
measure `m`. The types are themselves compared by `n`. -/
inductive Opposed (m : Measure) (x y : Scalar) : Measure → Ty → Ty → Prop
  | here : Opposed m x y m (.value x) (.value y)
  | part {n : Measure} {a b p q : Ty} (hpq : (p, q) ∈ a.parts.zip b.parts)
      (h : Opposed m x y a.partMeasure p q) : Opposed m x y n a b

theorem Recast.part {a b p q : Ty} (h : Recast a b) (hpq : (p, q) ∈ a.parts.zip b.parts) :
    Recast p q := by
  have hparts : ∀ {as bs : List Ty}, List.Forall₂ Recast as bs → (p, q) ∈ as.zip bs →
      Recast p q := fun h hpq => List.forall₂_zip h hpq
  cases h with
  | nominal h => exact hparts (by simpa using h) hpq
  | tuple h => exact hparts (by simpa using h) hpq
  | union h => exact hparts (by simpa using h) hpq
  | var hl hu => exact hparts (.cons hl (.cons hu .nil)) hpq
  | layer hl hu hb => exact hparts (.cons hl (.cons hu (.cons hb .nil))) hpq
  | vararg he hc => exact hparts (.cons he (.cons hc .nil)) hpq
  | _ => cases hpq

theorem agreeAll_iff_zip {as bs : List Ty} (h : as.length = bs.length) :
    agreeAll as bs = true ↔ ∀ pq ∈ as.zip bs, agree .kind pq.1 pq.2 = true := by
  induction as generalizing bs with
  | nil =>
    obtain rfl := List.length_eq_zero_iff.mp h.symm
    simp [agreeAll]
  | cons a as ih =>
    cases bs with
    | nil => cases h
    | cons b bs =>
      rw [agreeAll, Bool.and_eq_true, ih (Nat.succ.inj h), List.zip_cons_cons,
        List.forall_mem_cons]

theorem Recast.value_or_parts {a b : Ty} (h : Recast a b) :
    (∃ x y, a = .value x ∧ b = .value y) ∨
      (∀ x, a ≠ .value x) ∧ ∀ n, agree n a b = true ↔
        ∀ pq ∈ a.parts.zip b.parts, agree a.partMeasure pq.1 pq.2 = true := by
  cases h with
  | value | number => exact .inl ⟨_, _, rfl, rfl⟩
  | nominal h =>
    refine .inr ⟨by simp, fun n => ?_⟩
    rw [agree, decide_eq_true rfl, Bool.true_and, agreeAll_iff_zip h.length_eq, parts_nominal,
      parts_nominal]
    rfl
  | tuple h =>
    refine .inr ⟨by simp, fun n => ?_⟩
    rw [agree, agreeAll_iff_zip h.length_eq, parts_tuple, parts_tuple]
    rfl
  | union h =>
    refine .inr ⟨by simp, fun n => ?_⟩
    rw [agree, agreeAll_iff_zip h.length_eq, parts_union, parts_union]
    rfl
  | var | layer | vararg | symbol | bareName =>
    exact .inr ⟨by simp, fun n => by
      simp [agree, partMeasure, typeVar?, parts, children, body?, and_assoc]⟩

theorem opposed_value {m n : Measure} {x y x' y' : Scalar} :
    Opposed m x y n (.value x') (.value y') ↔ m = n ∧ x = x' ∧ y = y' := by
  constructor
  · intro h
    cases h with
    | here => exact ⟨rfl, rfl, rfl⟩
    | part hpq _ => cases hpq
  · rintro ⟨rfl, rfl, rfl⟩
    exact .here

theorem opposed_iff_parts {m n : Measure} {x y : Scalar} {a b : Ty} (ha : ∀ z, a ≠ .value z) :
    Opposed m x y n a b ↔
      ∃ pq ∈ a.parts.zip b.parts, Opposed m x y a.partMeasure pq.1 pq.2 := by
  constructor
  · intro h
    cases h with
    | here => exact absurd rfl (ha x)
    | part hpq h => exact ⟨_, hpq, h⟩
  · rintro ⟨pq, hpq, h⟩
    exact .part hpq h

theorem Recast.opposed {m n : Measure} {x y : Scalar} {a b : Ty} (hab : Recast a b)
    (h : Opposed m x y n a b) : x = y ∨ x.OtherKind y := by
  induction h with
  | here =>
    cases hab with
    | value => exact .inl rfl
    | number h => exact .inr h
  | part hpq _ ih => exact ih (hab.part hpq)

/-- Types of one shape agree if their values do, each by the measure of its position. -/
theorem Recast.agree_iff {n : Measure} {a b : Ty} (hab : Recast a b) :
    agree n a b = true ↔ ∀ m x y, Opposed m x y n a b → m.agree x y = true := by
  induction a using induct_parts generalizing n b with
  | h a ih =>
  obtain ⟨x, y, rfl, rfl⟩ | ⟨ha, hparts⟩ := hab.value_or_parts
  · simp only [opposed_value]
    constructor
    · rintro h m x y ⟨rfl, rfl, rfl⟩
      exact h
    · intro h
      exact h n x y ⟨rfl, rfl, rfl⟩
  · have hpart : ∀ pq ∈ a.parts.zip b.parts, agree a.partMeasure pq.1 pq.2 = true ↔
        ∀ m x y, Opposed m x y a.partMeasure pq.1 pq.2 → m.agree x y = true :=
      fun pq hpq => ih pq.1 (List.of_mem_zip hpq).1 (hab.part hpq)
    rw [hparts]
    constructor
    · intro h m x y hxy
      obtain ⟨pq, hpq, hxy⟩ := (opposed_iff_parts ha).mp hxy
      exact (hpart pq hpq).mp (h pq hpq) m x y hxy
    · intro h pq hpq
      exact (hpart pq hpq).mpr fun m x y hxy => h m x y (.part hpq hxy)

theorem Recast.same_eq_false_iff {a b : Ty} (hab : Recast a b) :
    same a b = false ↔
      ∃ m x y, Opposed m x y .kind a b ∧ x.OtherKind y ∧ (m = .kind ∨ x.sameWorth y = false) := by
  rw [← Bool.not_eq_true, same, hab.agree_iff]
  constructor
  · intro h
    push Not at h
    obtain ⟨m, x, y, hxy, hdiff⟩ := h
    obtain rfl | hkinds := hab.opposed hxy
    · exact absurd (m.agree_refl x) hdiff
    · refine ⟨m, x, y, hxy, hkinds, ?_⟩
      cases m with
      | kind => exact .inl rfl
      | worth => exact .inr (Bool.eq_false_iff.mpr hdiff)
  · rintro ⟨m, x, y, hxy, hkinds, hm⟩ hall
    have hagree : m.agree x y = true := hall m x y hxy
    cases m with
    | kind => exact Bool.false_ne_true (hkinds.same_eq_false.symm.trans hagree)
    | worth =>
      obtain hm | hworth := hm
      · cases hm
      · exact Bool.false_ne_true (hworth.symm.trans hagree)

theorem length_canonicalMembers_pair {a b : Ty} (ha : a.isUnion = false) (hb : b.isUnion = false) :
    (canonicalMembers [a, b]).length = if same a b then 1 else 2 := by
  have hflat : ∀ t ∈ [a, b], t.isUnion = false := by
    simp [ha, hb]
  rw [canonicalMembers_of_flat hflat, List.length_mergeSort, same, agree_comm]
  cases h : agree .kind b a <;> simp [List.eraseDupsBy_cons, h]

/-- Types of one shape with numbers of different kinds at some positions are different if one of
these positions counts by kind, or if the numbers at one of them are not worth the same, and only
then. They make a union of two members if they are different and of one if not. A position in a
union is one in the canonical order of its members, so a change of kind that sorts them in another
order is not covered. -/
theorem same_of_recast {a b : Ty} (hab : Recast a b) :
    (same a b = false ↔
      ∃ m x y, Opposed m x y .kind a b ∧ x.OtherKind y ∧ (m = .kind ∨ x.sameWorth y = false)) ∧
    (a.isUnion = false → b.isUnion = false →
      (canonicalMembers [a, b]).length = if same a b then 1 else 2) :=
  ⟨hab.same_eq_false_iff, length_canonicalMembers_pair⟩

namespace Example

def val (x : Scalar) : Ty := .nominal ⟨"Val", "Base"⟩ [.value x]

def around (x : Scalar) : Ty := .unionAll "T" .bottom .any (val x)

def below (x : Scalar) : Ty := .var "T" .bottom (.value x)

theorem otherKind_one : (Scalar.int 1).OtherKind (.bool true) :=
  ⟨.integer, .truth, rfl, rfl, nofun⟩

end Example

open Example in
theorem same_of_recast_around :
    Recast (around (.int 1)) (around (.bool true)) ∧
      same (around (.int 1)) (around (.bool true)) = false ∧
      (canonicalMembers [around (.int 1), around (.bool true)]).length = 2 := by
  have hab : Recast (around (.int 1)) (around (.bool true)) :=
    .layer (.union .nil) (.nominal .nil) (.nominal (.cons (.number otherKind_one) .nil))
  have hval : Opposed .kind (.int 1) (.bool true) .worth (val (.int 1)) (val (.bool true)) :=
    .part List.mem_cons_self .here
  have hone : Opposed .kind (.int 1) (.bool true) .kind (around (.int 1)) (around (.bool true)) :=
    .part (.tail _ (.tail _ List.mem_cons_self)) hval
  have hsame : same (around (.int 1)) (around (.bool true)) = false :=
    (same_of_recast hab).1.mpr ⟨.kind, _, _, hone, otherKind_one, .inl rfl⟩
  refine ⟨hab, hsame, ?_⟩
  rw [(same_of_recast hab).2 rfl rfl, hsame]
  rfl

open Example in
/-- Two variables are equal whose bounds are numbers of different kinds. -/
theorem exists_recast_same : ∃ a b : Ty, Recast a b ∧ a ≠ b ∧ a.isUnion = false ∧
    b.isUnion = false ∧ same a b = true ∧ (canonicalMembers [a, b]).length = 1 := by
  have hsame : same (below (.int 1)) (below (.bool true)) = true := by decide
  refine ⟨below (.int 1), below (.bool true), .var (.union .nil) (.number otherKind_one), nofun,
    rfl, rfl, hsame, ?_⟩
  rw [length_canonicalMembers_pair rfl rfl, if_pos hsame]

end Ty

end Anatomy
