import Anatomy.Proofs.Display

namespace Anatomy

theorem Scalar.same_refl (a : Scalar) : a.same a = true := by
  cases a with
  | float x => cases x <;> simp [Scalar.same, FloatLit.same]
  | _ => simp [Scalar.same]

theorem Scalar.same_comm (a b : Scalar) : a.same b = b.same a := by
  cases a with
  | float x =>
    cases b with
    | float y =>
      cases x with
      | finite s d =>
        cases y with
        | finite t e =>
          simp only [same, FloatLit.same]
          by_cases hd : d = e
          · rw [hd, Bool.beq_comm]
          · simp [hd, Ne.symm hd]
        | _ => rfl
      | _ =>
        cases y <;> simp only [same, FloatLit.same]
        all_goals exact BEq.comm
    | _ => rfl
  | _ =>
    cases b <;> simp only [same]
    all_goals exact BEq.comm

theorem Scalar.sameWorth_refl (a : Scalar) : a.sameWorth a = true := by
  cases a <;> simp [Scalar.sameWorth, Scalar.quantity?]

theorem Scalar.sameWorth_comm (a b : Scalar) : a.sameWorth b = b.sameWorth a := by
  cases a <;> cases b <;> simp [Scalar.sameWorth, Scalar.quantity?, eq_comm, BEq.comm]

theorem Measure.agree_refl (m : Measure) (a : Scalar) : m.agree a a = true := by
  cases m with
  | kind => exact a.same_refl
  | worth => exact a.sameWorth_refl

theorem Measure.agree_comm (m : Measure) (a b : Scalar) : m.agree a b = m.agree b a := by
  cases m with
  | kind => exact a.same_comm b
  | worth => exact a.sameWorth_comm b

theorem Measure.eq_of_agree {m : Measure} {a b : Scalar} (h : m.agree a b = true)
    (hs : a.shown = b.shown) : a = b := by
  cases a with
  | float x =>
    cases b with
    | float y =>
      cases x with
      | nan p =>
        cases y with
        | nan q =>
          cases m <;>
            simpa [Measure.agree, Scalar.same, FloatLit.same, Scalar.sameWorth, Scalar.quantity?,
              FloatLit.quantity] using h
        | _ => cases hs
      | _ =>
        cases y with
        | nan q => cases hs
        | _ => exact hs
    | _ => cases hs
  | _ =>
    cases b with
    | float y => cases hs
    | _ => exact hs

namespace Ty

theorem agreeAll_refl {ts : List Ty} (h : ∀ t ∈ ts, agree .kind t t = true) :
    agreeAll ts ts = true := by
  induction ts with
  | nil => rfl
  | cons t ts ih =>
    obtain ⟨ht, hts⟩ := List.forall_mem_cons.mp h
    rw [agreeAll, ht, ih hts, Bool.and_true]

theorem agree_refl (m : Measure) (t : Ty) : agree m t t = true := by
  induction t generalizing m with
  | nominal name params ih => simp [agree, agreeAll_refl fun p hp => ih p hp .kind]
  | tuple params ih => simp [agree, agreeAll_refl fun p hp => ih p hp .kind]
  | union members ih => simp [agree, agreeAll_refl fun p hp => ih p hp .kind]
  | var v ihl ihu => simp [TypeVar.toTy, agree, ihl, ihu]
  | layer v body ihl ihu ihb => simp [TypeVar.over, agree, ihl, ihu, ihb]
  | vararg element count ihe ihc => simp [agree, ihe, ihc]
  | symbol name => simp [agree]
  | bareName name => simp [agree]
  | value scalar => exact m.agree_refl scalar

theorem agreeAll_comm {as bs : List Ty} (h : ∀ a ∈ as, ∀ b, agree .kind a b = agree .kind b a) :
    agreeAll as bs = agreeAll bs as := by
  induction as generalizing bs with
  | nil => cases bs <;> rfl
  | cons a as ih =>
    cases bs with
    | nil => rfl
    | cons b bs =>
      obtain ⟨ha, has⟩ := List.forall_mem_cons.mp h
      rw [agreeAll, agreeAll, ha, ih has]

theorem agree_comm (m : Measure) (a b : Ty) : agree m a b = agree m b a := by
  induction a generalizing m b with
  | nominal name params ih =>
    cases b with
    | nominal name' params' =>
      rw [agree, agree, agreeAll_comm fun p hp q => ih p hp .kind q]
      simp only [eq_comm]
    | _ => rfl
  | tuple params ih =>
    cases b with
    | tuple params' => exact agreeAll_comm fun p hp q => ih p hp .kind q
    | _ => rfl
  | union members ih =>
    cases b with
    | union members' => exact agreeAll_comm fun p hp q => ih p hp .kind q
    | _ => rfl
  | var v ihl ihu =>
    cases b with
    | var w =>
      simp only [TypeVar.toTy, agree, ihl .worth w.lower, ihu .worth w.upper,
        BEq.comm (a := v.name)]
    | _ => rfl
  | layer v body ihl ihu ihb =>
    cases b with
    | layer w body' =>
      simp only [TypeVar.over, agree, ihl .worth w.lower, ihu .worth w.upper,
        ihb .worth body', BEq.comm (a := v.name)]
    | _ => rfl
  | vararg element count ihe ihc =>
    cases b with
    | vararg element' count' => rw [agree, agree, ihe, ihc]
    | _ => rfl
  | symbol name =>
    cases b with
    | symbol name' => exact BEq.comm
    | _ => rfl
  | bareName name =>
    cases b with
    | bareName name' => simp only [agree, eq_comm]
    | _ => rfl
  | value scalar =>
    cases b with
    | value scalar' => exact m.agree_comm scalar scalar'
    | _ => rfl

theorem eq_of_agreeAll {as bs : List Ty}
    (h : ∀ a ∈ as, ∀ b, agree .kind a b = true → a.shown = b.shown → a = b)
    (ha : agreeAll as bs = true) (hs : shownAll as = shownAll bs) : as = bs := by
  induction as generalizing bs with
  | nil =>
    cases bs with
    | nil => rfl
    | cons b bs => cases hs
  | cons a as ih =>
    cases bs with
    | nil => cases hs
    | cons b bs =>
      obtain ⟨h, has⟩ := List.forall_mem_cons.mp h
      rw [agreeAll, Bool.and_eq_true] at ha
      obtain ⟨hs, hss⟩ := List.cons.inj hs
      rw [h b ha.1 hs, ih has ha.2 hss]

/-- Types that are equal and look alike are the same: an undefined number equals nothing but
itself. -/
theorem eq_of_agree {m : Measure} {a b : Ty} (h : agree m a b = true) (hs : a.shown = b.shown) :
    a = b := by
  induction a generalizing m b with
  | nominal name params ih =>
    cases b with
    | nominal name' params' =>
      rw [agree, Bool.and_eq_true, decide_eq_true_iff] at h
      rw [h.1, eq_of_agreeAll (fun p hp q => ih p hp) h.2 (nominal.inj hs).2]
    | _ => cases hs
  | tuple params ih =>
    cases b with
    | tuple params' => rw [eq_of_agreeAll (fun p hp q => ih p hp) h (tuple.inj hs)]
    | _ => cases hs
  | union members ih =>
    cases b with
    | union members' => rw [eq_of_agreeAll (fun p hp q => ih p hp) h (union.inj hs)]
    | _ => cases hs
  | var v ihl ihu =>
    cases b with
    | var w =>
      simp only [TypeVar.toTy, agree, Bool.and_eq_true, beq_iff_eq] at h
      obtain ⟨-, hl, hu⟩ := var.inj hs
      rw [TypeVar.toTy, TypeVar.toTy, h.1.1, ihl h.1.2 hl, ihu h.2 hu]
    | _ => cases hs
  | layer v body ihl ihu ihb =>
    cases b with
    | layer w body' =>
      simp only [TypeVar.over, agree, Bool.and_eq_true, beq_iff_eq] at h
      obtain ⟨-, hl, hu, hb⟩ := unionAll.inj hs
      rw [TypeVar.over, TypeVar.over, h.1.1.1, ihl h.1.1.2 hl, ihu h.1.2 hu, ihb h.2 hb]
    | _ => cases hs
  | vararg element count ihe ihc =>
    cases b with
    | vararg element' count' =>
      rw [agree, Bool.and_eq_true] at h
      obtain ⟨he, hc⟩ := vararg.inj hs
      rw [ihe h.1 he, ihc h.2 hc]
    | _ => cases hs
  | symbol name =>
    cases b with
    | symbol name' => exact hs
    | _ => cases hs
  | bareName name =>
    cases b with
    | bareName name' => exact hs
    | _ => cases hs
  | value scalar =>
    cases b with
    | value scalar' => rw [Measure.eq_of_agree h (value.inj hs)]
    | _ => cases hs

def isNumber : Ty → Bool
  | .value (.bool _) => true
  | .value (.int _) => true
  | .value (.float _) => true
  | _ => false

def isNegativeZero : Ty → Bool
  | .value (.float (.finite true d)) => d.isZero
  | _ => false

/-- Neither undefined nor a negative zero, and no variable with a number as a bound nor a layer
with a number as its body. -/
structure IsExact (t : Ty) : Prop where
  defined : t.isNan = false
  unsigned : t.isNegativeZero = false
  bounds : t.typeVar?.isSome → ∀ p ∈ t.parts, p.isNumber = false

def Exact (t : Ty) : Prop :=
  Everywhere IsExact t

theorem Exact.allDefined {t : Ty} (h : Exact t) : AllDefined t :=
  fun s hs => (h s hs).defined

theorem isExact_toTy {v : TypeVar} :
    IsExact v.toTy ↔ v.lower.isNumber = false ∧ v.upper.isNumber = false := by
  constructor
  · intro h
    have hb := h.bounds rfl
    exact ⟨hb v.lower (by simp),
      hb v.upper (by simp)⟩
  · rintro ⟨hl, hu⟩
    refine ⟨rfl, rfl, fun _ p hp => ?_⟩
    have hp : p = v.lower ∨ p = v.upper := by
      simpa using hp
    obtain rfl | rfl := hp
    · exact hl
    · exact hu

theorem isExact_over {v : TypeVar} {body : Ty} :
    IsExact (v.over body) ↔ IsExact v.toTy ∧ body.isNumber = false := by
  constructor
  · intro h
    have hb := h.bounds rfl
    rw [isExact_toTy]
    exact ⟨⟨hb v.lower (by simp),
      hb v.upper (by simp)⟩,
      hb body (by simp)⟩
  · rintro ⟨hv, hb⟩
    obtain ⟨hl, hu⟩ := isExact_toTy.mp hv
    refine ⟨rfl, rfl, fun _ p hp => ?_⟩
    have hp : p = v.lower ∨ p = v.upper ∨ p = body := by
      simpa using hp
    obtain rfl | rfl | rfl := hp
    · exact hl
    · exact hu
    · exact hb

theorem scalar_same_iff {a b : Scalar} (ha : (Ty.value a).IsExact) (hb : (Ty.value b).IsExact) :
    a.same b = true ↔ a = b := by
  cases a with
  | float x =>
    cases b with
    | float y =>
      cases x with
      | finite s d =>
        cases y with
        | finite t e =>
          have hx := ha.unsigned
          have hy := hb.unsigned
          cases s <;> cases t <;> simp_all [Scalar.same, FloatLit.same, isNegativeZero]
        | _ => simp [Scalar.same, FloatLit.same]
      | _ => cases y <;> simp [Scalar.same, FloatLit.same]
    | _ => simp [Scalar.same]
  | _ => cases b <;> simp [Scalar.same]

theorem sameWorth_iff {a b : Scalar} (ha : (Ty.value a).isNumber = false)
    (hb : (Ty.value b).isNumber = false) : a.sameWorth b = true ↔ a = b := by
  cases a <;> cases b <;> simp_all [isNumber, Scalar.sameWorth, Scalar.quantity?]

def Measured (m : Measure) (t : Ty) : Prop :=
  m = .worth → t.isNumber = false

theorem agreeAll_iff {as bs : List Ty} (hbs : ∀ b ∈ bs, Exact b)
    (h : ∀ a ∈ as, ∀ b, Exact b → (agree .kind a b = true ↔ a = b)) :
    agreeAll as bs = true ↔ as = bs := by
  induction as generalizing bs with
  | nil => cases bs <;> simp [agreeAll]
  | cons a as ih =>
    cases bs with
    | nil => simp [agreeAll]
    | cons b bs =>
      rw [List.forall_mem_cons] at h hbs
      rw [agreeAll, Bool.and_eq_true, h.1 b hbs.1, ih hbs.2 h.2, List.cons.injEq]

theorem agree_iff {m : Measure} {a b : Ty} (ha : Exact a) (hb : Exact b) (hma : Measured m a)
    (hmb : Measured m b) : agree m a b = true ↔ a = b := by
  have hkind : ∀ t, Measured .kind t := fun t h => nomatch h
  have hworth : ∀ {t}, t.isNumber = false → Measured .worth t := fun h _ => h
  induction a generalizing m b with
  | nominal name params ih =>
    cases b with
    | nominal name' params' =>
      have hps := agreeAll_iff (everywhere_nominal.mp hb).2 fun p hp q hq =>
        ih p hp ((everywhere_nominal.mp ha).2 p hp) hq (hkind p) (hkind q)
      rw [agree, Bool.and_eq_true, decide_eq_true_iff, hps, nominal.injEq]
    | _ => simp [agree, TypeVar.toTy, TypeVar.over]
  | tuple params ih =>
    cases b with
    | tuple params' =>
      have hps := agreeAll_iff (everywhere_tuple.mp hb).2 fun p hp q hq =>
        ih p hp ((everywhere_tuple.mp ha).2 p hp) hq (hkind p) (hkind q)
      rw [agree, hps, tuple.injEq]
    | _ => simp [agree, TypeVar.toTy, TypeVar.over]
  | union members ih =>
    cases b with
    | union members' =>
      have hms := agreeAll_iff (everywhere_union.mp hb).2 fun p hp q hq =>
        ih p hp ((everywhere_union.mp ha).2 p hp) hq (hkind p) (hkind q)
      rw [agree, hms, union.injEq]
    | _ => simp [agree, TypeVar.toTy, TypeVar.over]
  | var v ihl ihu =>
    cases b with
    | var w =>
      obtain ⟨hv, hvl, hvu⟩ := everywhere_toTy.mp ha
      obtain ⟨hw, hwl, hwu⟩ := everywhere_toTy.mp hb
      rw [isExact_toTy] at hv hw
      have hl := ihl hvl hwl (hworth hv.1) (hworth hw.1)
      have hu := ihu hvu hwu (hworth hv.2) (hworth hw.2)
      simp only [TypeVar.toTy, agree, Bool.and_eq_true, beq_iff_eq, hl, hu, var.injEq, and_assoc]
    | _ => simp [agree, TypeVar.toTy, TypeVar.over]
  | layer v body ihl ihu ihb =>
    cases b with
    | layer w body' =>
      obtain ⟨hv, hvl, hvu, hvb⟩ := everywhere_over.mp ha
      obtain ⟨hw, hwl, hwu, hwb⟩ := everywhere_over.mp hb
      rw [isExact_over, isExact_toTy] at hv hw
      have hl := ihl hvl hwl (hworth hv.1.1) (hworth hw.1.1)
      have hu := ihu hvu hwu (hworth hv.1.2) (hworth hw.1.2)
      have hb := ihb hvb hwb (hworth hv.2) (hworth hw.2)
      simp only [TypeVar.over, agree, Bool.and_eq_true, beq_iff_eq, hl, hu, hb, unionAll.injEq,
        and_assoc]
    | _ => simp [agree, TypeVar.toTy, TypeVar.over]
  | vararg element count ihe ihc =>
    cases b with
    | vararg element' count' =>
      obtain ⟨-, he, hc⟩ := everywhere_vararg.mp ha
      obtain ⟨-, he', hc'⟩ := everywhere_vararg.mp hb
      have helement : agree .kind element element' = true ↔ element = element' :=
        ihe he he' (hkind _) (hkind _)
      have hcount : agree .kind count count' = true ↔ count = count' :=
        ihc hc hc' (hkind _) (hkind _)
      rw [agree, Bool.and_eq_true, helement, hcount, vararg.injEq]
    | _ => simp [agree, TypeVar.toTy, TypeVar.over]
  | symbol name => cases b <;> simp [agree, TypeVar.toTy, TypeVar.over]
  | bareName name => cases b <;> simp [agree, TypeVar.toTy, TypeVar.over]
  | value scalar =>
    cases b with
    | value scalar' =>
      cases m with
      | kind => rw [agree, Measure.agree, scalar_same_iff ha.node hb.node, value.injEq]
      | worth => rw [agree, Measure.agree, sameWorth_iff (hma rfl) (hmb rfl), value.injEq]
    | _ => simp [agree, TypeVar.toTy, TypeVar.over]

theorem same_iff {a b : Ty} (ha : Exact a) (hb : Exact b) : same a b = true ↔ a = b :=
  agree_iff ha hb (fun h => nomatch h) (fun h => nomatch h)

end Ty

theorem TypeVar.toTy_inj {v w : TypeVar} : v.toTy = w.toTy ↔ v = w := by
  cases v
  cases w
  simp [TypeVar.toTy]

theorem TypeVar.over_inj {v w : TypeVar} {b c : Ty} : v.over b = w.over c ↔ v = w ∧ b = c := by
  cases v
  cases w
  simp [TypeVar.over, and_assoc]

theorem TypeVar.same_iff {v w : TypeVar} (hv : v.toTy.Exact) (hw : w.toTy.Exact) :
    v.same w = true ↔ v = w := by
  rw [TypeVar.same, Ty.same_iff hv hw, TypeVar.toTy_inj]

end Anatomy
