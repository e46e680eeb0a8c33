import Mathlib.Data.List.Pairwise
import Anatomy.Proofs.Doubles
import Anatomy.Proofs.Kinds

namespace Anatomy

theorem Scalar.sameWorth_eq_true_iff {a b : Scalar} : a.sameWorth b = true ↔
    a.quantity? = none ∧ a = b ∨ a.quantity? ≠ none ∧ a.quantity? = b.quantity? := by
  cases a <;> cases b <;> simp [sameWorth, quantity?]

/-- A plain value other than an undefined number, apart from how it is written. -/
inductive Plain
  | null
  | truth (b : Bool)
  | integer (n : ℤ)
  | float (negative : Bool) (v : Double)
  | infinite (negative : Bool)
  | text (s : String)

/-- What a plain value is worth, whatever its kind. -/
inductive Worth
  | null
  | number (q : ℚ)
  | infinite (negative : Bool)
  | text (s : String)

def withSign (negative : Bool) (x : ℚ) : ℚ :=
  if negative then -x else x

def Plain.worth : Plain → Worth
  | .null => .null
  | .truth b => .number (if b then 1 else 0)
  | .integer n => .number n
  | .float negative v => .number (withSign negative v.magnitude)
  | .infinite negative => .infinite negative
  | .text s => .text s

def Writing.scalar (w : Writing) : Plain → Scalar
  | .null => .null
  | .truth b => .bool b
  | .integer n => .int n
  | .float negative v => .float (.finite negative (w.write v))
  | .infinite negative => .float (.infinite negative)
  | .text s => .text s

theorem withSign_eq_iff {s t : Bool} {x y : ℚ} (hx : 0 ≤ x) (hy : 0 ≤ y) :
    withSign s x = withSign t y ↔ x = y ∧ (x = 0 ∨ s = t) := by
  cases s <;> cases t <;> simp only [withSign] <;> grind

namespace Writing

variable (w : Writing)

/-- A quantity and the number that it stands for, as long as floats are written by `w`. -/
inductive Counts : Quantity → Worth → Prop
  | whole (n : ℤ) : Counts (.whole n) (.number n)
  | fraction (negative : Bool) (v : Double) (h : ∀ n : ℕ, v.magnitude ≠ n) :
      Counts (.fraction negative (w.write v)) (.number (withSign negative v.magnitude))
  | infinite (negative : Bool) : Counts (.infinite negative) (.infinite negative)

theorem Counts.eq_iff {p q : Quantity} {a b : Worth} (hp : w.Counts p a) (hq : w.Counts q b) :
    p = q ↔ a = b := by
  have hwhole : ∀ (n : ℤ) (negative : Bool) (v : Double), (∀ m : ℕ, v.magnitude ≠ m) →
      (n : ℚ) ≠ withSign negative v.magnitude := by
    intro n negative v hv hn
    apply hv n.natAbs
    rw [Nat.cast_natAbs, Int.cast_abs, hn, withSign]
    split <;> simp [abs_of_nonneg v.nonneg]
  cases hp with
  | whole n =>
    cases hq with
    | whole m => simp
    | fraction negative v hv => simpa using hwhole n negative v hv
    | infinite negative => simp
  | fraction negative v hv =>
    cases hq with
    | whole n => simpa using (hwhole n negative v hv).symm
    | fraction negative' v' hv' =>
      have hne : v.magnitude ≠ 0 := by simpa using hv 0
      simp [w.write_inj, withSign_eq_iff v.nonneg v'.nonneg, hne, and_comm]
    | infinite negative' => simp
  | infinite negative =>
    cases hq with
    | whole n => simp
    | fraction negative v hv => simp
    | infinite negative' => simp

theorem counts_float (negative : Bool) (v : Double) :
    w.Counts (FloatLit.finite negative (w.write v)).quantity
      (.number (withSign negative v.magnitude)) := by
  obtain ⟨n, hwhole, hv⟩ | ⟨hwhole, hv⟩ := w.whole?_write v
  · rw [FloatLit.quantity, hwhole, hv]
    have hcast : withSign negative (n : ℚ) = ((if negative then -(n : ℤ) else n : ℤ) : ℚ) := by
      cases negative <;> simp [withSign]
    rw [hcast]
    exact .whole _
  · rw [FloatLit.quantity, hwhole]
    exact .fraction negative v hv

theorem counts_or_not (p : Plain) :
    (∃ x, (w.scalar p).quantity? = some x ∧ w.Counts x p.worth) ∨
      (w.scalar p).quantity? = none ∧ (p = .null ∨ ∃ s, p = .text s) := by
  cases p with
  | null => exact .inr ⟨rfl, .inl rfl⟩
  | text s => exact .inr ⟨rfl, .inr ⟨s, rfl⟩⟩
  | truth b =>
    refine .inl ⟨_, rfl, ?_⟩
    cases b
    · simpa [Plain.worth] using Counts.whole (w := w) 0
    · simpa [Plain.worth] using Counts.whole (w := w) 1
  | integer n => exact .inl ⟨_, rfl, .whole n⟩
  | float negative v => exact .inl ⟨_, rfl, w.counts_float negative v⟩
  | infinite negative => exact .inl ⟨_, rfl, .infinite negative⟩

theorem Counts.worth_ne {x : Quantity} {a : Worth} (h : w.Counts x a) {p : Plain}
    (hp : p = .null ∨ ∃ s, p = .text s) : a ≠ p.worth := by
  obtain rfl | ⟨s, rfl⟩ := hp <;> cases h <;> simp [Plain.worth]

theorem sameWorth_scalar (p q : Plain) :
    (w.scalar p).sameWorth (w.scalar q) = true ↔ p.worth = q.worth := by
  rw [Scalar.sameWorth_eq_true_iff]
  obtain ⟨x, hx, hpx⟩ | ⟨hx, hp⟩ := w.counts_or_not p
  · obtain ⟨y, hy, hqy⟩ | ⟨hy, hq⟩ := w.counts_or_not q
    · simpa [hx, hy] using hpx.eq_iff w hqy
    · simpa [hx, hy] using hpx.worth_ne w hq
  · obtain rfl | ⟨s, rfl⟩ := hp <;> cases q <;> simp [scalar, Plain.worth, Scalar.quantity?]

theorem same_scalar (p q : Plain) : (w.scalar p).same (w.scalar q) = true ↔
    (w.scalar p).numberKind? = (w.scalar q).numberKind? ∧ p.worth = q.worth := by
  cases p with
  | float negative v =>
    cases q with
    | float negative' v' =>
      simp [scalar, Scalar.same, FloatLit.same, Scalar.numberKind?, Plain.worth, w.write_inj,
        w.isZero_write, withSign_eq_iff v.nonneg v'.nonneg]
    | _ => simp [scalar, Scalar.same, FloatLit.same, Scalar.numberKind?, Plain.worth]
  | truth b =>
    cases q with
    | truth c => cases b <;> cases c <;> simp [scalar, Scalar.same, Plain.worth]
    | _ => simp [scalar, Scalar.same, Scalar.numberKind?]
  | _ => cases q <;> simp [scalar, Scalar.same, FloatLit.same, Scalar.numberKind?, Plain.worth]

end Writing

theorem Scalar.sameWorth_trans {a b c : Scalar} (hab : a.sameWorth b = true)
    (hbc : b.sameWorth c = true) : a.sameWorth c = true := by
  rw [sameWorth_eq_true_iff] at *
  obtain ⟨ha, rfl⟩ | ⟨ha, hab⟩ := hab
  · exact hbc
  · obtain ⟨hb, -⟩ | ⟨-, hbc⟩ := hbc
    · exact absurd (hab.trans hb) ha
    · exact .inr ⟨ha, hab.trans hbc⟩

theorem FloatLit.same_eq_true_iff {x y : FloatLit} : x.same y = true ↔
    x = y ∨ ∃ d, d.isZero = true ∧ (∃ s, x = .finite s d) ∧ ∃ t, y = .finite t d := by
  cases x <;> cases y <;> simp [same]
  grind

theorem FloatLit.same_trans {x y z : FloatLit} (hxy : x.same y = true) (hyz : y.same z = true) :
    x.same z = true := by
  rw [same_eq_true_iff] at *
  obtain rfl | ⟨d, hd, hx, t, rfl⟩ := hxy
  · exact hyz
  · obtain rfl | ⟨e, -, ⟨s, hs⟩, hz⟩ := hyz
    · exact .inr ⟨d, hd, hx, t, rfl⟩
    · obtain ⟨-, rfl⟩ := finite.inj hs
      exact .inr ⟨d, hd, hx, hz⟩

theorem Scalar.eq_or_floats_of_same {a b : Scalar} (h : a.same b = true) :
    a = b ∨ ∃ x y, a = .float x ∧ b = .float y ∧ x.same y = true := by
  cases a <;> cases b <;> simp_all [same]

theorem Scalar.same_trans {a b c : Scalar} (hab : a.same b = true) (hbc : b.same c = true) :
    a.same c = true := by
  obtain rfl | ⟨x, y, rfl, rfl, hxy⟩ := eq_or_floats_of_same hab
  · exact hbc
  · obtain rfl | ⟨y', z, hy, rfl, hyz⟩ := eq_or_floats_of_same hbc
    · exact hab
    · cases hy
      exact FloatLit.same_trans hxy hyz

theorem Measure.agree_trans {m : Measure} {a b c : Scalar} (hab : m.agree a b = true)
    (hbc : m.agree b c = true) : m.agree a c = true := by
  cases m with
  | kind => exact Scalar.same_trans hab hbc
  | worth => exact Scalar.sameWorth_trans hab hbc

namespace Ty

def shell : Ty → Ty
  | .nominal name _ => .nominal name []
  | .tuple _ => .tuple []
  | .union _ => .union []
  | .var name _ _ => .var name bottom bottom
  | .unionAll name _ _ _ => .unionAll name bottom bottom bottom
  | .vararg _ _ => .vararg bottom bottom
  | t => t

theorem partMeasure_shell (t : Ty) : t.shell.partMeasure = t.partMeasure := by
  cases t <;> rfl

theorem shell_eq_value {t : Ty} {x : Scalar} : t.shell = .value x ↔ t = .value x := by
  cases t <;> simp [shell, TypeVar.toTy, TypeVar.over]

theorem agreeAll_iff_forall₂ {as bs : List Ty} :
    agreeAll as bs = true ↔ List.Forall₂ (fun a b => agree .kind a b = true) as bs := by
  induction as generalizing bs with
  | nil => cases bs <;> simp [agreeAll]
  | cons a as ih => cases bs <;> simp [agreeAll, ih]

/-- Types are equal if they are built alike and their parts are equal, where the parts of variables
and layers count by their worth. -/
theorem agree_iff_parts (m : Measure) {a b : Ty} (ha : ∀ x, a ≠ .value x) :
    agree m a b = true ↔ a.shell = b.shell ∧
      List.Forall₂ (fun p q => agree a.partMeasure p q = true) a.parts b.parts := by
  cases a with
  | nominal name params =>
    cases b with
    | nominal name' params' =>
      simp only [agree, Bool.and_eq_true, decide_eq_true_iff, agreeAll_iff_forall₂, shell,
        nominal.injEq, and_true, parts_nominal]
      rfl
    | _ => simp [agree, shell, TypeVar.toTy, TypeVar.over]
  | tuple params =>
    cases b with
    | tuple params' =>
      simp only [agree, agreeAll_iff_forall₂, shell, true_and, parts_tuple]
      rfl
    | _ => simp [agree, shell, TypeVar.toTy, TypeVar.over]
  | union members =>
    cases b with
    | union members' =>
      simp only [agree, agreeAll_iff_forall₂, shell, true_and, parts_union]
      rfl
    | _ => simp [agree, shell, TypeVar.toTy, TypeVar.over]
  | var v =>
    cases b with
    | var v' =>
      simp [TypeVar.toTy, agree, shell, partMeasure, typeVar?, parts, children, body?, and_assoc]
    | _ => simp [agree, shell, TypeVar.toTy, TypeVar.over]
  | layer v body =>
    cases b with
    | layer v' body' =>
      simp [TypeVar.over, agree, shell, partMeasure, typeVar?, parts, children, body?, and_assoc]
    | _ => simp [agree, shell, TypeVar.toTy, TypeVar.over]
  | vararg element count =>
    cases b with
    | vararg element' count' => simp [agree, shell, partMeasure, typeVar?]
    | _ => simp [agree, shell, TypeVar.toTy, TypeVar.over]
  | symbol name =>
    cases b with
    | symbol name' => simp [agree, shell, parts, children, body?]
    | _ => simp [agree, shell, TypeVar.toTy, TypeVar.over]
  | bareName name =>
    cases b with
    | bareName name' => simp [agree, shell, parts, children, body?]
    | _ => simp [agree, shell, TypeVar.toTy, TypeVar.over]
  | value x => exact absurd rfl (ha x)

theorem forall₂_trans {R : Ty → Ty → Prop} {as bs cs : List Ty}
    (h : ∀ a ∈ as, ∀ {b c}, R a b → R b c → R a c) (hab : List.Forall₂ R as bs)
    (hbc : List.Forall₂ R bs cs) : List.Forall₂ R as cs := by
  induction hab generalizing cs with
  | nil => exact hbc
  | cons ha _ ih =>
    obtain ⟨hhead, htail⟩ := List.forall_mem_cons.mp h
    cases hbc with
    | cons hb hbc => exact .cons (hhead ha hb) (ih htail hbc)

theorem agree_trans {m : Measure} {a b c : Ty} (hab : agree m a b = true)
    (hbc : agree m b c = true) : agree m a c = true := by
  induction a using induct_parts generalizing m b c with
  | h a ih =>
  by_cases ha : ∃ x, a = .value x
  · obtain ⟨x, rfl⟩ := ha
    cases b with
    | value y =>
      cases c with
      | value z => exact Measure.agree_trans hab hbc
      | _ => cases hbc
    | _ => cases hab
  · push Not at ha
    obtain ⟨hshell, hparts⟩ := (agree_iff_parts m ha).mp hab
    have hb : ∀ x, b ≠ .value x := by
      intro x hx
      exact ha x (shell_eq_value.mp (hshell.trans (shell_eq_value.mpr hx)))
    obtain ⟨hshell', hparts'⟩ := (agree_iff_parts m hb).mp hbc
    have hmeasure : b.partMeasure = a.partMeasure := by
      rw [← partMeasure_shell, ← hshell, partMeasure_shell]
    rw [hmeasure] at hparts'
    refine (agree_iff_parts m ha).mpr ⟨hshell.trans hshell', ?_⟩
    exact forall₂_trans (fun p hp => ih p hp) hparts hparts'

theorem agree_equivalence (m : Measure) : Equivalence fun a b : Ty => agree m a b = true where
  refl := agree_refl m
  symm h := by rwa [agree_comm]
  trans := agree_trans

theorem eq_of_mem_canonicalMembers {ms : List Ty} {u v : Ty} (hu : u ∈ canonicalMembers ms)
    (hv : v ∈ canonicalMembers ms) (h : same u v = true) : u = v := by
  have hsymm : Std.Symm fun a b : Ty => same b a = false :=
    ⟨fun a b hab => by rwa [same, agree_comm]⟩
  by_contra hne
  have hdiffer : same u v = false := (apart_canonicalMembers ms).forall hv hu (Ne.symm hne)
  rw [h] at hdiffer
  cases hdiffer

theorem existsUnique_mem_canonicalMembers {ms : List Ty} {t : Ty} (ht : t ∈ flatten ms) :
    ∃! u, u ∈ canonicalMembers ms ∧ same t u = true := by
  obtain ⟨u, hu, htu⟩ := exists_mem_eraseDupsBy (agree_refl .kind) ht
  have hkept : u ∈ canonicalMembers ms := List.mem_mergeSort.mpr hu
  refine ⟨u, ⟨hkept, htu⟩, ?_⟩
  rintro v ⟨hv, htv⟩
  have heq := agree_equivalence .kind
  exact eq_of_mem_canonicalMembers hv hkept (heq.trans (heq.symm htv) htu)

/-- Types are equal by an equivalence, whether numbers at hand count by kind or by worth. Types
other than plain values are equal if they are built alike and their parts are, and the measure of a
part depends on where it stands. Plain values are equal if they have the same exact value, and in
parameters also the same kind. So the members of a union are all different, and each type that it is
made of is equal to just one of them. -/
theorem same_equivalence :
    (∀ m, Equivalence fun a b : Ty => agree m a b = true) ∧
    (∀ m (a b : Ty), (∀ x, a ≠ .value x) → (agree m a b = true ↔ a.shell = b.shell ∧
      List.Forall₂ (fun p q => agree a.partMeasure p q = true) a.parts b.parts)) ∧
    (∀ (w : Writing) (p q : Plain),
      (agree .kind (.value (w.scalar p)) (.value (w.scalar q)) = true ↔
        (w.scalar p).numberKind? = (w.scalar q).numberKind? ∧ p.worth = q.worth) ∧
      (agree .worth (.value (w.scalar p)) (.value (w.scalar q)) = true ↔ p.worth = q.worth)) ∧
    ∀ ms : List Ty, (canonicalMembers ms).Pairwise (fun a b => same a b = false) ∧
      ∀ t ∈ flatten ms, ∃! u, u ∈ canonicalMembers ms ∧ same t u = true := by
  refine ⟨agree_equivalence, fun m a b => agree_iff_parts m, fun w p q => ?_, fun ms => ?_⟩
  · exact ⟨w.same_scalar p q, w.sameWorth_scalar p q⟩
  · refine ⟨(apart_canonicalMembers ms).imp fun h => ?_, fun t ht => ?_⟩
    · rwa [same, agree_comm]
    · exact existsUnique_mem_canonicalMembers ht

namespace Example

def limit : Double :=
  ⟨2 ^ 53, 1, 53, by decide, by decide, by norm_num⟩

def limitFloat : Ty :=
  .value (Writing.exact.scalar (.float false limit))

end Example

open Example in
theorem same_equivalence_limit :
    agree .worth (.value (.int (2 ^ 53))) limitFloat = true ∧
    agree .kind (.value (.int (2 ^ 53))) limitFloat = false ∧
    agree .worth (.value (.int (2 ^ 53 + 1))) limitFloat = false ∧
    ∃! u, u ∈ canonicalMembers [below (.int 1), .union [below (.bool true), val (.bool true)]] ∧
      same (below (.bool true)) u = true := by
  obtain ⟨-, -, hplain, hunion⟩ := same_equivalence
  have hlimit := hplain .exact (.integer (2 ^ 53)) (.float false limit)
  have hnext := hplain .exact (.integer (2 ^ 53 + 1)) (.float false limit)
  refine ⟨hlimit.2.mpr ?_, ?_, ?_, (hunion _).2 _ (.tail _ (.head _))⟩
  · norm_num [Plain.worth, withSign, limit]
  · rw [← Bool.not_eq_true]
    refine mt hlimit.1.mp ?_
    simp [Writing.scalar, Scalar.numberKind?]
  · rw [← Bool.not_eq_true]
    refine mt hnext.2.mp ?_
    norm_num [Plain.worth, withSign, limit]

end Ty

end Anatomy
