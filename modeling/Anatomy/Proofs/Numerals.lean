import Mathlib.Data.List.Basic
import Mathlib.Tactic.Ring
import Anatomy.Scalar

namespace Anatomy

namespace Decimal

theorem pow_mul_inj {m n a b : Nat} (hm : m % 10 ≠ 0) (hn : n % 10 ≠ 0)
    (h : m * 10 ^ a = n * 10 ^ b) : m = n ∧ a = b := by
  induction a generalizing b with
  | zero =>
    cases b with
    | zero => simpa using h
    | succ b =>
      rw [Nat.pow_succ, ← Nat.mul_assoc] at h
      omega
  | succ a ih =>
    cases b with
    | zero =>
      rw [Nat.pow_succ, ← Nat.mul_assoc] at h
      omega
    | succ b =>
      have h' : m * 10 ^ a = n * 10 ^ b := by
        rw [Nat.pow_succ, Nat.pow_succ, ← Nat.mul_assoc, ← Nat.mul_assoc] at h
        omega
      obtain ⟨rfl, rfl⟩ := ih h'
      exact ⟨rfl, rfl⟩

theorem eq_of_scaled {d e : Decimal} {k : Nat} (hd : 0 ≤ d.exponent + k) (he : 0 ≤ e.exponent + k)
    (h : d.digits * 10 ^ (d.exponent + k).toNat = e.digits * 10 ^ (e.exponent + k).toNat) :
    d = e := by
  obtain ⟨m, a, hm⟩ := d
  obtain ⟨n, b, hn⟩ := e
  have hmn : m = n ∧ a = b := by
    dsimp only at hd he h
    by_cases hz : m = 0 ∨ n = 0
    · have hp : ∀ c, 10 ^ c ≠ 0 := by simp
      obtain rfl | rfl := hz
      · rw [Nat.zero_mul, eq_comm, Nat.mul_eq_zero] at h
        have := h.resolve_right (hp _)
        omega
      · rw [Nat.zero_mul, Nat.mul_eq_zero] at h
        have := h.resolve_right (hp _)
        omega
    · obtain ⟨hmn, hab⟩ := pow_mul_inj (by omega) (by omega) h
      omega
  obtain ⟨rfl, rfl⟩ := hmn
  rfl

/-- What stands before and after the point, and the number that both make together. -/
structure Placed (d : Decimal) (whole fraction : List Char) : Prop where
  text : d.writePositional = whole ++ '.' :: fraction
  whole_digits : ∀ c ∈ whole, c.isDigit = true
  fraction_digits : ∀ c ∈ fraction, c.isDigit = true
  nonneg : 0 ≤ d.exponent + fraction.length
  value : Nat.ofDigitChars 10 (whole ++ fraction) 0 =
    d.digits * 10 ^ (d.exponent + fraction.length).toNat

theorem isDigit_of_mem_zeros {n : Int} {c : Char} (h : c ∈ zeros n) : c.isDigit = true := by
  rw [List.eq_of_mem_replicate h]
  rfl

theorem isDigit_of_mem_digits {n : Nat} {c : Char} (h : c ∈ Nat.toDigits 10 n) :
    c.isDigit = true :=
  Nat.isDigit_of_mem_toDigits (by decide) (by decide) h

theorem exists_placed (d : Decimal) : ∃ whole fraction, Placed d whole fraction := by
  have hdigits : ∀ c ∈ Nat.toDigits 10 d.digits, c.isDigit = true :=
    fun c hc => isDigit_of_mem_digits hc
  by_cases he : 0 ≤ d.exponent
  · refine ⟨Nat.toDigits 10 d.digits ++ zeros d.exponent, ['0'], ?_, ?_, ?_, ?_, ?_⟩
    · simp [writePositional, he]
    · intro c hc
      obtain hc | hc := List.mem_append.mp hc
      · exact hdigits c hc
      · exact isDigit_of_mem_zeros hc
    · simp
    · simp only [List.length_singleton]
      omega
    · have hn : (d.exponent + (1 : Nat)).toNat = d.exponent.toNat + 1 := by omega
      rw [List.length_singleton, hn, List.append_assoc, Nat.ofDigitChars_append,
        Nat.ofDigitChars_ten_toDigits, Nat.ofDigitChars_append, zeros,
        Nat.ofDigitChars_replicate_zero, Nat.ofDigitChars_cons, Nat.ofDigitChars_nil]
      simp only [Char.toNat, Nat.sub_self, Nat.add_zero]
      ring
  · by_cases hl : 0 ≤ d.leading
    · have hlen : (d.leading + 1).toNat ≤ (Nat.toDigits 10 d.digits).length := by
        unfold leading
        omega
      have hf : ((Nat.toDigits 10 d.digits).drop (d.leading + 1).toNat).length =
          (-d.exponent).toNat := by
        rw [List.length_drop]
        unfold leading at hl ⊢
        omega
      refine ⟨(Nat.toDigits 10 d.digits).take (d.leading + 1).toNat,
        (Nat.toDigits 10 d.digits).drop (d.leading + 1).toNat, ?_, ?_, ?_, ?_, ?_⟩
      · simp [writePositional, he, hl]
      · exact fun c hc => hdigits c (List.mem_of_mem_take hc)
      · exact fun c hc => hdigits c (List.mem_of_mem_drop hc)
      · omega
      · rw [List.take_append_drop, Nat.ofDigitChars_ten_toDigits, hf]
        have hz : (d.exponent + (-d.exponent).toNat).toNat = 0 := by omega
        rw [hz, Nat.pow_zero, Nat.mul_one]
    · have hf : (zeros (-1 - d.leading) ++ Nat.toDigits 10 d.digits).length =
          (-d.exponent).toNat := by
        rw [List.length_append, zeros, List.length_replicate]
        unfold leading at hl ⊢
        omega
      refine ⟨['0'], zeros (-1 - d.leading) ++ Nat.toDigits 10 d.digits, ?_, ?_, ?_, ?_, ?_⟩
      · simp [writePositional, he, hl]
      · simp
      · intro c hc
        obtain hc | hc := List.mem_append.mp hc
        · exact isDigit_of_mem_zeros hc
        · exact hdigits c hc
      · omega
      · have hz : (d.exponent + (-d.exponent).toNat).toNat = 0 := by omega
        rw [hf, hz, Nat.pow_zero, Nat.mul_one, List.singleton_append, Nat.ofDigitChars_cons,
          Nat.ofDigitChars_append, zeros, Nat.ofDigitChars_replicate_zero]
        simp [Nat.ofDigitChars_ten_toDigits]

theorem ne_of_isDigit {c d : Char} (hc : c.isDigit = true) (hd : d.isDigit = false) : c ≠ d := by
  rintro rfl
  rw [hc] at hd
  cases hd

theorem writePositional_inj {d e : Decimal} (h : d.writePositional = e.writePositional) :
    d = e := by
  obtain ⟨whole, fraction, hp⟩ := exists_placed d
  obtain ⟨whole', fraction', hp'⟩ := exists_placed e
  have hw : '.' ∉ whole := fun hm => ne_of_isDigit (hp.whole_digits _ hm) rfl rfl
  have hf : '.' ∉ fraction := fun hm => ne_of_isDigit (hp.fraction_digits _ hm) rfl rfl
  rw [hp.text, hp'.text, List.append_cons_inj_of_notMem hw hf] at h
  obtain ⟨rfl, -, rfl⟩ := h
  exact eq_of_scaled hp.nonneg hp'.nonneg (hp.value.symm.trans hp'.value)

/-- The digits of a number with at most one point among them, and its exponent. -/
structure Scaled (d : Decimal) (mantissa : List Char) : Prop where
  text : d.writeScientific = mantissa ++ 'e' :: writeExponent d.leading
  chars : ∀ c ∈ mantissa, c.isDigit = true ∨ c = '.'
  digits : mantissa.filter (· != '.') = Nat.toDigits 10 d.digits

theorem filter_digits {cs : List Char} (h : ∀ c ∈ cs, c.isDigit = true) :
    cs.filter (· != '.') = cs := by
  rw [List.filter_eq_self]
  intro c hc
  simpa using ne_of_isDigit (h c hc) rfl

theorem exists_scaled (d : Decimal) : ∃ mantissa, Scaled d mantissa := by
  have hdigits : ∀ c ∈ Nat.toDigits 10 d.digits, c.isDigit = true :=
    fun c hc => isDigit_of_mem_digits hc
  have hf := filter_digits hdigits
  cases hds : Nat.toDigits 10 d.digits with
  | nil => exact absurd hds Nat.toDigits_ne_nil
  | cons first ds =>
    rw [hds] at hdigits hf
    cases ds with
    | nil =>
      exact ⟨[first], by simp [writeScientific, hds], fun c hc => .inl (hdigits c hc),
        by rw [hf, hds]⟩
    | cons second rest =>
      refine ⟨first :: '.' :: second :: rest, by simp [writeScientific, hds], ?_, ?_⟩
      · intro c hc
        simp only [List.mem_cons] at hc hdigits
        obtain rfl | rfl | hc := hc
        · exact .inl (hdigits c (.inl rfl))
        · exact .inr rfl
        · exact .inl (hdigits c (.inr hc))
      · rw [hds, ← hf]
        simp [List.filter_cons]

theorem writeExponent_digits {x : Int} {c : Char} (h : c ∈ writeExponent x) :
    c.isDigit = true ∨ c = '-' ∨ c = '+' := by
  simp only [writeExponent, List.mem_cons, List.cons_append, List.mem_append] at h
  obtain h | h | h := h
  · split at h
    · exact .inr (.inl h)
    · exact .inr (.inr h)
  · exact .inl (isDigit_of_mem_zeros h)
  · exact .inl (isDigit_of_mem_digits h)

theorem writeExponent_inj {x y : Int} (h : writeExponent x = writeExponent y) : x = y := by
  simp only [writeExponent, List.cons_append, List.cons.injEq] at h
  obtain ⟨hs, h⟩ := h
  have hv : ∀ z : Int, Nat.ofDigitChars 10
      (zeros (2 - (Nat.toDigits 10 z.natAbs).length) ++ Nat.toDigits 10 z.natAbs) 0 = z.natAbs := by
    intro z
    rw [Nat.ofDigitChars_append, zeros, Nat.ofDigitChars_replicate_zero, Nat.mul_zero,
      Nat.ofDigitChars_ten_toDigits]
  have ha : x.natAbs = y.natAbs := by rw [← hv x, h, hv y]
  have hn : x < 0 ↔ y < 0 := by
    by_cases hx : x < 0 <;> by_cases hy : y < 0 <;> simp [hx, hy] at hs ⊢
  omega

theorem writeScientific_inj {d e : Decimal} (h : d.writeScientific = e.writeScientific) :
    d = e := by
  obtain ⟨mantissa, hm⟩ := exists_scaled d
  obtain ⟨mantissa', hm'⟩ := exists_scaled e
  have hn : 'e' ∉ mantissa := by
    intro hc
    obtain hd | hd := hm.chars _ hc <;> cases hd
  have hx : 'e' ∉ writeExponent d.leading := by
    intro hc
    obtain hd | hd | hd := writeExponent_digits hc <;> cases hd
  rw [hm.text, hm'.text, List.append_cons_inj_of_notMem hn hx] at h
  obtain ⟨rfl, -, hl⟩ := h
  have hl := writeExponent_inj hl
  have hd : Nat.toDigits 10 d.digits = Nat.toDigits 10 e.digits := hm.digits.symm.trans hm'.digits
  have hv : d.digits = e.digits := by
    have := congrArg (fun ds => Nat.ofDigitChars 10 ds 0) hd
    simpa only [Nat.ofDigitChars_ten_toDigits] using this
  have hx : d.exponent = e.exponent := by
    simp only [leading, hd] at hl
    omega
  obtain ⟨m, a, hm⟩ := d
  obtain ⟨n, b, hn⟩ := e
  obtain rfl : m = n := hv
  obtain rfl : a = b := hx
  rfl

theorem notMem_writePositional (d : Decimal) : 'e' ∉ d.writePositional := by
  obtain ⟨whole, fraction, hp⟩ := exists_placed d
  rw [hp.text, List.mem_append, List.mem_cons]
  rintro (hc | hc | hc)
  · exact ne_of_isDigit (hp.whole_digits _ hc) rfl rfl
  · cases hc
  · exact ne_of_isDigit (hp.fraction_digits _ hc) rfl rfl

theorem mem_writeScientific (d : Decimal) : 'e' ∈ d.writeScientific := by
  obtain ⟨mantissa, hm⟩ := exists_scaled d
  rw [hm.text]
  simp

theorem write_inj {d e : Decimal} (h : d.write = e.write) : d = e := by
  unfold write at h
  split at h <;> split at h
  · exact writePositional_inj h
  · exact absurd (h ▸ mem_writeScientific e) (notMem_writePositional d)
  · exact absurd (h ▸ mem_writeScientific d) (notMem_writePositional e)
  · exact writeScientific_inj h

theorem chars_writePositional {d : Decimal} {c : Char} (h : c ∈ d.writePositional) :
    c.isDigit = true ∨ c = '.' := by
  obtain ⟨whole, fraction, hp⟩ := exists_placed d
  rw [hp.text, List.mem_append, List.mem_cons] at h
  obtain h | h | h := h
  · exact .inl (hp.whole_digits c h)
  · exact .inr h
  · exact .inl (hp.fraction_digits c h)

theorem chars_writeScientific {d : Decimal} {c : Char} (h : c ∈ d.writeScientific) :
    c.isDigit = true ∨ c ∈ ['.', 'e', '-', '+'] := by
  obtain ⟨mantissa, hm⟩ := exists_scaled d
  rw [hm.text, List.mem_append, List.mem_cons] at h
  obtain h | rfl | h := h
  · obtain h | rfl := hm.chars c h
    · exact .inl h
    · simp
  · simp
  · obtain h | rfl | rfl := writeExponent_digits h
    · exact .inl h
    · simp
    · simp

theorem chars_write {d : Decimal} {c : Char} (h : c ∈ d.write) :
    c.isDigit = true ∨ c ∈ ['.', 'e', '-', '+'] := by
  unfold write at h
  split at h
  · obtain h | rfl := chars_writePositional h
    · exact .inl h
    · simp
  · exact chars_writeScientific h

/-- A written number has a point or an exponent. -/
theorem exists_mem_write (d : Decimal) : ∃ c ∈ d.write, c = '.' ∨ c = 'e' := by
  unfold write
  split
  · obtain ⟨whole, fraction, hp⟩ := exists_placed d
    exact ⟨'.', by simp [hp.text], .inl rfl⟩
  · exact ⟨'e', mem_writeScientific d, .inr rfl⟩

theorem write_ne_minus (d : Decimal) (cs : List Char) : d.write ≠ '-' :: cs := by
  intro h
  unfold write at h
  split at h
  · have hc : '-' ∈ d.writePositional := by simp [h]
    obtain hc | hc := chars_writePositional hc <;> cases hc
  · obtain ⟨mantissa, hm⟩ := exists_scaled d
    rw [hm.text] at h
    cases mantissa with
    | nil => cases h
    | cons first rest =>
      obtain ⟨rfl, -⟩ := List.cons.inj h
      obtain hc | hc := hm.chars '-' (by simp) <;> cases hc

end Decimal

namespace FloatLit

def isNan : FloatLit → Bool
  | .nan _ => true
  | _ => false

def shown : FloatLit → FloatLit
  | .nan _ => .nan 0
  | x => x

theorem write_shown (x : FloatLit) : x.shown.write = x.write := by
  cases x <;> rfl

theorem shown_of_not_isNan {x : FloatLit} (h : x.isNan = false) : x.shown = x := by
  cases x with
  | nan payload => cases h
  | _ => rfl

theorem chars_write {x : FloatLit} {c : Char} (h : c ∈ x.write) :
    c.isDigit = true ∨ c ∈ ['.', 'e', '-', '+', 'i', 'n', 'f', 'a'] := by
  have hs : ∀ {negative : Bool} {cs : List Char}, c ∈ signed negative cs → c = '-' ∨ c ∈ cs := by
    intro negative cs h
    cases negative with
    | true => exact List.mem_cons.mp h
    | false => exact .inr h
  cases x with
  | nan payload =>
    simp only [write, List.mem_cons] at h
    grind
  | infinite negative =>
    obtain rfl | h := hs h
    · simp
    · grind
  | finite negative d =>
    obtain rfl | h := hs h
    · simp
    · obtain h | h := Decimal.chars_write h
      · exact .inl h
      · grind

/-- No float is written like a whole number. -/
theorem exists_mem_write (x : FloatLit) : ∃ c ∈ x.write, c.isDigit = false ∧ c ≠ '-' := by
  have hs : ∀ {negative : Bool} {cs : List Char} {c : Char}, c ∈ cs → c ∈ signed negative cs := by
    intro negative cs c h
    cases negative with
    | true => exact List.mem_cons_of_mem _ h
    | false => exact h
  cases x with
  | nan payload => exact ⟨'n', by simp [write], rfl, by decide⟩
  | infinite negative => exact ⟨'i', hs (by simp), rfl, by decide⟩
  | finite negative d =>
    obtain ⟨c, hc, rfl | rfl⟩ := d.exists_mem_write
    · exact ⟨'.', hs hc, rfl, by decide⟩
    · exact ⟨'e', hs hc, rfl, by decide⟩

theorem signed_inj {negative negative' : Bool} {cs cs' : List Char} (hcs : ∀ ds, cs ≠ '-' :: ds)
    (hcs' : ∀ ds, cs' ≠ '-' :: ds) (h : signed negative cs = signed negative' cs') :
    negative = negative' ∧ cs = cs' := by
  cases negative <;> cases negative' <;> simp [signed] at h ⊢
  · exact h
  · exact hcs _ h
  · exact hcs' _ h.symm
  · exact h

theorem write_inj {x y : FloatLit} (h : x.write = y.write) : x.shown = y.shown := by
  have hnan : ∀ ds, ['n', 'a', 'n'] ≠ '-' :: ds := by simp
  have hinf : ∀ ds, ['i', 'n', 'f'] ≠ '-' :: ds := by simp
  have hne : ∀ (d : Decimal) {cs : List Char}, 'n' ∈ cs → cs ≠ d.write := by
    intro d cs hmem he
    obtain hc | hc := Decimal.chars_write (he ▸ hmem) <;> simp at hc
  have hnan' : ∀ {negative : Bool} {cs : List Char}, (∀ ds, cs ≠ '-' :: ds) →
      ['n', 'a', 'n'] = signed negative cs → ['n', 'a', 'n'] = cs := by
    intro negative cs hcs he
    have he : signed false ['n', 'a', 'n'] = signed negative cs := he
    exact (signed_inj hnan hcs he).2
  cases x with
  | nan payload =>
    cases y with
    | nan payload' => rfl
    | infinite negative' => exact absurd (hnan' hinf h) (by simp)
    | finite negative' d => exact absurd (hnan' d.write_ne_minus h) (hne d (by simp))
  | infinite negative =>
    cases y with
    | nan payload => exact absurd (hnan' hinf h.symm) (by simp)
    | infinite negative' =>
      obtain ⟨rfl, -⟩ := signed_inj hinf hinf h
      rfl
    | finite negative' d =>
      obtain ⟨-, he⟩ := signed_inj hinf d.write_ne_minus h
      exact absurd he (hne d (by simp))
  | finite negative d =>
    cases y with
    | nan payload => exact absurd (hnan' d.write_ne_minus h.symm) (hne d (by simp))
    | infinite negative' =>
      obtain ⟨-, he⟩ := signed_inj d.write_ne_minus hinf h
      exact absurd he.symm (hne d (by simp))
    | finite negative' e =>
      obtain ⟨rfl, he⟩ := signed_inj d.write_ne_minus e.write_ne_minus h
      rw [Decimal.write_inj he]

end FloatLit

theorem toList_toString (n : Int) :
    (toString n).toList = FloatLit.signed (decide (n < 0)) (Nat.toDigits 10 n.natAbs) := by
  rw [Int.toString_eq_repr, Int.repr_eq_if]
  by_cases hn : 0 ≤ n
  · have habs : n.toNat = n.natAbs := by omega
    have hneg : ¬n < 0 := by omega
    rw [if_pos hn, Nat.toList_repr, habs]
    simp [FloatLit.signed, hneg]
  · have habs : (-n).toNat = n.natAbs := by omega
    have hneg : n < 0 := by omega
    rw [if_neg hn, String.toList_append, Nat.toList_repr, habs]
    simp [FloatLit.signed, hneg]

theorem chars_toString {n : Int} {c : Char} (h : c ∈ (toString n).toList) :
    c.isDigit = true ∨ c = '-' := by
  rw [toList_toString, FloatLit.signed] at h
  split at h
  · obtain rfl | h := List.mem_cons.mp h
    · exact .inr rfl
    · exact .inl (Decimal.isDigit_of_mem_digits h)
  · exact .inl (Decimal.isDigit_of_mem_digits h)

theorem toString_ne_nil (n : Int) : (toString n).toList ≠ [] := by
  rw [toList_toString, FloatLit.signed]
  split
  · simp
  · exact Nat.toDigits_ne_nil

theorem toString_inj {m n : Int} (h : (toString m).toList = (toString n).toList) : m = n := by
  have hminus : ∀ (k : Nat) (ds : List Char), Nat.toDigits 10 k ≠ '-' :: ds := by
    intro k ds hk
    have hd : '-'.isDigit = true :=
      Decimal.isDigit_of_mem_digits (n := k) (hk ▸ List.mem_cons_self)
    exact absurd hd (by decide)
  rw [toList_toString, toList_toString] at h
  obtain ⟨hsign, hdigits⟩ := FloatLit.signed_inj (hminus _) (hminus _) h
  have habs := congrArg (Nat.ofDigitChars 10 · 0) hdigits
  simp only [Nat.ofDigitChars_ten_toDigits] at habs
  have hneg : m < 0 ↔ n < 0 := by simpa using hsign
  omega

end Anatomy
