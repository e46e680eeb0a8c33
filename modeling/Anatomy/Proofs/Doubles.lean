import Mathlib.Algebra.Order.Field.Power
import Mathlib.Data.Nat.Prime.Basic
import Mathlib.Data.Rat.Cast.Order
import Mathlib.Tactic.FieldSimp
import Mathlib.Tactic.Linarith
import Mathlib.Tactic.LinearCombination
import Mathlib.Tactic.Ring
import Anatomy.Number.Decimal

namespace Anatomy

/-- A magnitude of double precision: it has at most 53 binary digits, none of which counts less
than `2 ^ -1074`. -/
def IsDouble (v : ℚ) : Prop :=
  ∃ (m : ℕ) (q : ℤ), m < 2 ^ 53 ∧ -1074 ≤ q ∧ v = m * 2 ^ q

/-- No number of double precision is nearer to `x` than `v`, and `v` is an even multiple of its
distance to one that is equally near. -/
structure Nearest (x v : ℚ) : Prop where
  isDouble : IsDouble v
  le : ∀ w, IsDouble w → |x - v| ≤ |x - w|
  even : ∀ w, IsDouble w → w ≠ v → |x - v| = |x - w| → ∃ k : ℤ, v = k * (2 * |v - w|)

theorem Nearest.eq {x v w : ℚ} (hv : Nearest x v) (hw : Nearest x w) : v = w := by
  by_contra hne
  have hdist : |x - v| = |x - w| := le_antisymm (hv.le w hw.isDouble) (hw.le v hv.isDouble)
  obtain ⟨k, hk⟩ := hv.even w hw.isDouble (Ne.symm hne) hdist
  obtain ⟨l, hl⟩ := hw.even v hv.isDouble hne hdist.symm
  rw [abs_sub_comm] at hl
  obtain ⟨u, hu⟩ : ∃ u, |v - w| = u := ⟨_, rfl⟩
  rw [hu] at hk hl
  have hpos : u ≠ 0 := hu ▸ abs_ne_zero.mpr (sub_ne_zero.mpr hne)
  have hmultiple : v - w = ((k - l : ℤ) : ℚ) * 2 * u := by
    push_cast
    linear_combination hk - hl
  have hone : u * (|((k - l : ℤ) : ℚ)| * 2) = u * 1 := by
    have hu' := hu
    rw [hmultiple, abs_mul, abs_mul, abs_of_pos (zero_lt_two' ℚ)] at hu'
    have hself : |u| = u := hu ▸ abs_abs (v - w)
    linear_combination hu' - |((k - l : ℤ) : ℚ)| * 2 * hself
  have hint : |k - l| * 2 = 1 := by exact_mod_cast mul_left_cancel₀ hpos hone
  omega

theorem nearest_self {v : ℚ} (h : IsDouble v) : Nearest v v := by
  refine ⟨h, fun w _ => by simp, fun w _ hne heq => ?_⟩
  rw [sub_self, abs_zero, eq_comm, abs_eq_zero, sub_eq_zero] at heq
  exact absurd heq.symm hne

namespace Decimal

/-- Rounding puts a number on a grid that divides it into 53 binary digits, at most half a step
away, and on an even place if it is just half a step. -/
theorem exists_roundBinary_eq (n : ℕ) : ∃ k s : ℕ, roundBinary n = k * 2 ^ s ∧ k ≤ 2 ^ 53 ∧
    2 * |(n : ℤ) - k * 2 ^ s| ≤ 2 ^ s ∧ (2 * |(n : ℤ) - k * 2 ^ s| = 2 ^ s → Even k) ∧
    (s = 0 ∨ 2 ^ (52 + s) ≤ n) := by
  obtain ⟨s, hs⟩ : ∃ s, n.log2 + 1 - 53 = s := ⟨_, rfl⟩
  have hu : 0 < 2 ^ s := Nat.two_pow_pos s
  have hn : n = 2 ^ s * (n / 2 ^ s) + n % 2 ^ s := (Nat.div_add_mod n _).symm
  have hmod : n % 2 ^ s < 2 ^ s := Nat.mod_lt n hu
  have hquot : n / 2 ^ s < 2 ^ 53 := by
    rw [Nat.div_lt_iff_lt_mul hu, ← Nat.pow_add]
    exact lt_of_lt_of_le Nat.lt_log2_self (Nat.pow_le_pow_right (by decide) (by omega))
  have hlead : s = 0 ∨ 2 ^ (52 + s) ≤ n := by
    by_cases h0 : s = 0
    · exact .inl h0
    · have hlog : n.log2 = 52 + s := by omega
      refine .inr (hlog ▸ Nat.log2_self_le ?_)
      rintro rfl
      simp [Nat.log2_zero] at hlog
      omega
  have hround : roundBinary n = if 2 * (n % 2 ^ s) > 2 ^ s ∨
      2 * (n % 2 ^ s) = 2 ^ s ∧ n / 2 ^ s % 2 = 1 then (n / 2 ^ s + 1) * 2 ^ s
      else n / 2 ^ s * 2 ^ s := by
    simp [roundBinary, hs]
  generalize n / 2 ^ s = q at *
  generalize n % 2 ^ s = r at *
  have hcast : (n : ℤ) = 2 ^ s * q + r := by exact_mod_cast hn
  have hu' : (2 ^ s : ℤ) = ((2 ^ s : ℕ) : ℤ) := by push_cast; rfl
  split at hround
  · next hup =>
    have hdist : |(n : ℤ) - ((q + 1 : ℕ) : ℤ) * 2 ^ s| = 2 ^ s - r := by
      have hneg : (n : ℤ) - ((q + 1 : ℕ) : ℤ) * 2 ^ s = -(2 ^ s - r) := by
        push_cast
        linear_combination hcast
      rw [hneg, abs_neg, abs_of_nonneg (by omega)]
    refine ⟨q + 1, s, hround, hquot, ?_, ?_, hlead⟩
    · rw [hdist, hu']
      omega
    · rw [hdist, hu', Nat.even_iff]
      omega
  · next hdown =>
    have hdist : |(n : ℤ) - (q : ℤ) * 2 ^ s| = r := by
      have hpos : (n : ℤ) - (q : ℤ) * 2 ^ s = r := by linear_combination hcast
      rw [hpos, Nat.abs_cast]
    refine ⟨q, s, hround, hquot.le, ?_, ?_, hlead⟩
    · rw [hdist, hu']
      omega
    · rw [hdist, hu', Nat.even_iff]
      omega

theorem grid_nearest {x u : ℚ} (hu : 0 < u) {k : ℤ} (hhalf : 2 * |x - k * u| ≤ u)
    (heven : 2 * |x - k * u| = u → Even k) (j : ℤ) :
    |x - k * u| ≤ |x - j * u| ∧
      (j ≠ k → |x - k * u| = |x - j * u| → ∃ i : ℤ, k * u = i * (2 * |k * u - j * u|)) := by
  by_cases hjk : j = k
  · exact ⟨hjk ▸ le_rfl, fun h => absurd hjk h⟩
  have hstep : u ≤ |k * u - j * u| := by
    have hone : (1 : ℚ) ≤ |(k - j : ℤ)| := by
      exact_mod_cast Int.one_le_abs (sub_ne_zero.mpr (Ne.symm hjk))
    calc u = 1 * u := (one_mul u).symm
      _ ≤ |((k - j : ℤ) : ℚ)| * u := by gcongr; exact_mod_cast hone
      _ = |k * u - j * u| := by
        rw [← abs_of_pos hu, ← abs_mul, abs_of_pos hu, Int.cast_sub, sub_mul]
  have htriangle : |k * u - j * u| ≤ |x - k * u| + |x - j * u| := by
    rw [abs_sub_comm x]
    calc |k * u - j * u| = |(k * u - x) + (x - j * u)| := by rw [sub_add_sub_cancel]
      _ ≤ |k * u - x| + |x - j * u| := abs_add_le _ _
  refine ⟨by linarith, fun _ heq => ?_⟩
  -- Two places that are equally near are one step apart, and `x` is half way between them.
  have hdist : |k * u - j * u| = u := by linarith
  obtain ⟨i, hi⟩ := heven (by linarith)
  refine ⟨i, ?_⟩
  rw [hdist, hi]
  push_cast
  ring

theorem isDouble_mul_two_pow {k : ℕ} (s : ℕ) (hk : k ≤ 2 ^ 53) : IsDouble (k * 2 ^ s) := by
  obtain hk | rfl := lt_or_eq_of_le hk
  · exact ⟨k, s, hk, by omega, by rw [zpow_natCast]⟩
  · refine ⟨2 ^ 52, (s + 1 : ℕ), by decide, by omega, ?_⟩
    rw [zpow_natCast]
    push_cast
    ring

/-- A last digit that is finer than a grid makes a number that comes before all places of the grid
that have 53 digits. -/
theorem grid_or_lt {w : ℚ} (hw : IsDouble w) (s : ℕ) :
    (∃ j : ℤ, w = j * 2 ^ s) ∨ w < 2 ^ 52 * 2 ^ s := by
  obtain ⟨m, q, hm, -, rfl⟩ := hw
  by_cases hq : s ≤ q
  · refine .inl ⟨m * 2 ^ (q - s).toNat, ?_⟩
    have hpow : (2 : ℚ) ^ q = 2 ^ (q - s).toNat * 2 ^ s := by
      rw [← zpow_natCast, ← zpow_natCast, ← zpow_add₀ two_ne_zero]
      congr 1
      omega
    push_cast
    rw [hpow]
    ring
  · refine .inr ?_
    calc (m : ℚ) * 2 ^ q < 2 ^ 53 * 2 ^ q := by gcongr; exact_mod_cast hm
      _ ≤ 2 ^ 53 * 2 ^ ((s : ℤ) - 1) := by gcongr; norm_num; omega
      _ = 2 ^ 52 * 2 ^ s := by rw [zpow_sub_one₀ two_ne_zero, zpow_natCast]; ring

theorem nearest_of_grid {x : ℚ} {k : ℤ} {s : ℕ} (hdouble : IsDouble (k * 2 ^ s))
    (hhalf : 2 * |x - k * 2 ^ s| ≤ 2 ^ s) (heven : 2 * |x - k * 2 ^ s| = 2 ^ s → Even k)
    (hlead : 2 ^ 52 * 2 ^ s ≤ x) : Nearest x (k * 2 ^ s) := by
  have hgrid := grid_nearest (by positivity) hhalf heven
  have hfar : ∀ w : ℚ, w < 2 ^ 52 * 2 ^ s → |x - k * 2 ^ s| < |x - w| := by
    intro w hw
    have hle := (hgrid (2 ^ 52)).1
    rw [Int.cast_pow, Int.cast_ofNat] at hle
    calc |x - k * 2 ^ s| ≤ |x - 2 ^ 52 * 2 ^ s| := hle
      _ = x - 2 ^ 52 * 2 ^ s := abs_of_nonneg (sub_nonneg.mpr hlead)
      _ < x - w := by linarith
      _ ≤ |x - w| := le_abs_self _
  refine ⟨hdouble, fun w hw => ?_, fun w hw hne heq => ?_⟩
  · obtain ⟨j, rfl⟩ | hlt := grid_or_lt hw s
    · exact (hgrid j).1
    · exact (hfar w hlt).le
  · obtain ⟨j, rfl⟩ | hlt := grid_or_lt hw s
    · refine (hgrid j).2 ?_ heq
      rintro rfl
      exact hne rfl
    · exact absurd heq (hfar w hlt).ne

theorem nearest_roundBinary (n : ℕ) : Nearest n (roundBinary n) := by
  obtain ⟨k, s, hround, hk, hhalf, heven, hlead⟩ := exists_roundBinary_eq n
  have hvalue : (roundBinary n : ℚ) = (k : ℤ) * 2 ^ s := by
    rw [hround]
    push_cast
    rfl
  have hdouble : IsDouble (roundBinary n) := by
    rw [hround]
    exact_mod_cast isDouble_mul_two_pow s hk
  obtain rfl | hlead := hlead
  · -- The grid has all whole numbers, and `n` is one of them.
    have hself : roundBinary n = n := by
      have hzero : |(n : ℤ) - k * 2 ^ 0| = 0 := by
        have hnonneg := abs_nonneg ((n : ℤ) - k * 2 ^ 0)
        omega
      rw [abs_eq_zero] at hzero
      omega
    rw [hself] at hdouble ⊢
    exact nearest_self hdouble
  · rw [hvalue] at hdouble ⊢
    apply nearest_of_grid hdouble
    · exact_mod_cast hhalf
    · intro h
      exact_mod_cast heven (by exact_mod_cast h)
    · rw [← pow_add]
      exact_mod_cast hlead

def value (d : Decimal) : ℚ :=
  d.digits * 10 ^ d.exponent

theorem value_of_exponent_nonneg {d : Decimal} (h : 0 ≤ d.exponent) :
    d.value = (d.digits * 10 ^ d.exponent.toNat : ℕ) := by
  rw [value]
  push_cast
  rw [← zpow_natCast, Int.toNat_of_nonneg h]

theorem nearest_of_whole? {d : Decimal} {n : ℕ} (h : d.whole? = some n) : Nearest d.value n := by
  unfold whole? at h
  split at h
  · next hexp =>
    cases h
    rw [value_of_exponent_nonneg hexp]
    exact nearest_roundBinary _
  · cases h

theorem isZero_iff {d : Decimal} : d.isZero = true ↔ d.value = 0 := by
  simp [isZero, value, zpow_ne_zero]

end Decimal

def Decimal.ofScaled (n : ℕ) (e : ℤ) : Decimal :=
  if n = 0 then zero
  else if h : n % 10 ≠ 0 then ⟨n, e, .inl h⟩
  else ofScaled (n / 10) (e + 1)
termination_by n

theorem Decimal.value_ofScaled (n : ℕ) (e : ℤ) : (ofScaled n e).value = n * 10 ^ e := by
  fun_induction ofScaled n e with
  | case1 e => simp [value, zero]
  | case2 => rfl
  | case3 n e _ h ih =>
    have hn : (n : ℚ) = (n / 10 : ℕ) * 10 := by exact_mod_cast (by omega : n = n / 10 * 10)
    rw [ih, zpow_add_one₀ (by norm_num)]
    linear_combination -(10 : ℚ) ^ e * hn

theorem Decimal.exponent_ofScaled (n : ℕ) {e : ℤ} (he : 0 ≤ e) : 0 ≤ (ofScaled n e).exponent := by
  fun_induction ofScaled n e with
  | case1 e => exact le_rfl
  | case2 => exact he
  | case3 n e _ h ih => exact ih (by omega)

theorem IsDouble.exists_den_eq {v : ℚ} (h : IsDouble v) : ∃ k, v.den = 2 ^ k := by
  obtain ⟨m, q, -, -, rfl⟩ := h
  have hpow : (2 : ℚ) ^ q = 2 ^ q.toNat / 2 ^ (-q).toNat := by
    conv_lhs => rw [← Int.toNat_sub_toNat_neg q]
    rw [zpow_sub₀ two_ne_zero, zpow_natCast, zpow_natCast]
  have hfraction : (m : ℚ) * 2 ^ q = (m * 2 ^ q.toNat : ℤ) / (2 ^ (-q).toNat : ℤ) := by
    rw [hpow]
    push_cast
    ring
  have hdvd : ((m : ℚ) * 2 ^ q).den ∣ 2 ^ (-q).toNat := by
    rw [hfraction]
    exact_mod_cast Rat.den_dvd (m * 2 ^ q.toNat) (2 ^ (-q).toNat)
  obtain ⟨k, -, hk⟩ := (Nat.dvd_prime_pow Nat.prime_two).mp hdvd
  exact ⟨k, hk⟩

structure Double where
  magnitude : ℚ
  isDouble : IsDouble magnitude

theorem Double.nonneg (v : Double) : 0 ≤ v.magnitude := by
  obtain ⟨m, q, -, -, hv⟩ := v.isDouble
  rw [hv]
  positivity

/-- A way to write the numbers of double precision as decimals. Each is the nearest to what is
written for it, and a whole number is written without a fraction. -/
structure Writing where
  write : Double → Decimal
  nearest : ∀ v, Nearest (write v).value v.magnitude
  whole : ∀ (v : Double) (n : ℕ), v.magnitude = n → 0 ≤ (write v).exponent

namespace Writing

def exact : Writing where
  write v := .ofScaled (v.magnitude.num.toNat * 5 ^ v.magnitude.den.log2) (-v.magnitude.den.log2)
  nearest v := by
    have hvalue : (Decimal.ofScaled (v.magnitude.num.toNat * 5 ^ v.magnitude.den.log2)
        (-v.magnitude.den.log2)).value = v.magnitude := by
      obtain ⟨k, hk⟩ := v.isDouble.exists_den_eq
      have hnum : (v.magnitude.num.toNat : ℚ) = v.magnitude.num := by
        exact_mod_cast Int.toNat_of_nonneg (Rat.num_nonneg.mpr v.nonneg)
      have hten : (10 : ℚ) ^ k = 5 ^ k * 2 ^ k := by rw [← mul_pow]; norm_num
      rw [Decimal.value_ofScaled, hk, Nat.log2_two_pow, zpow_neg, zpow_natCast, hten]
      push_cast
      rw [hnum]
      conv_rhs => rw [← Rat.num_div_den v.magnitude, hk]
      push_cast
      field_simp
    rw [hvalue]
    exact nearest_self v.isDouble
  whole v n hn := by
    rw [hn, Rat.den_natCast]
    exact Decimal.exponent_ofScaled _ le_rfl

variable (w : Writing)

theorem write_inj {u v : Double} : w.write u = w.write v ↔ u.magnitude = v.magnitude := by
  constructor
  · intro h
    exact (w.nearest u).eq (h ▸ w.nearest v)
  · intro h
    cases u
    cases v
    cases h
    rfl

theorem whole?_write (v : Double) :
    (∃ n : ℕ, (w.write v).whole? = some n ∧ v.magnitude = n) ∨
      (w.write v).whole? = none ∧ ∀ n : ℕ, v.magnitude ≠ n := by
  cases hwhole : (w.write v).whole? with
  | some n => exact .inl ⟨n, rfl, (w.nearest v).eq (Decimal.nearest_of_whole? hwhole)⟩
  | none =>
    refine .inr ⟨rfl, fun n hn => ?_⟩
    rw [Decimal.whole?, if_pos (w.whole v n hn)] at hwhole
    cases hwhole

theorem isZero_write (v : Double) : (w.write v).isZero = true ↔ v.magnitude = 0 := by
  have hzero : IsDouble 0 := ⟨0, 0, by decide, by decide, by simp⟩
  have hone : IsDouble 1 := ⟨1, 0, by decide, by decide, by simp⟩
  rw [Decimal.isZero_iff]
  constructor
  · intro h
    exact (h ▸ w.nearest v : Nearest 0 v.magnitude).eq (nearest_self hzero)
  · intro h
    have hexp := w.whole v 0 (by simpa using h)
    have hle := (w.nearest v).le 1 hone
    rw [h, Decimal.value_of_exponent_nonneg hexp] at hle
    rw [Decimal.value_of_exponent_nonneg hexp]
    generalize (w.write v).digits * 10 ^ (w.write v).exponent.toNat = n at hle ⊢
    by_contra hn
    have hpos : (1 : ℚ) ≤ n := by exact_mod_cast Nat.one_le_iff_ne_zero.mpr (by exact_mod_cast hn)
    rw [sub_zero, abs_of_nonneg (by linarith), abs_of_nonneg (by linarith)] at hle
    linarith

end Writing

end Anatomy
