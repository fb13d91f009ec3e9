import Mathlib.Algebra.Order.Field.Power
import Mathlib.Data.Nat.Log
import Mathlib.Data.Rat.Cast.Order
import Mathlib.Algebra.BigOperators.Group.List.Basic
import Mathlib.Tactic.Ring
import Mathlib.Tactic.Linarith
import Mathlib.Tactic.Positivity
import Mathlib.Tactic.FieldSimp

/-! Decimal arithmetic with a precision and an exponent range (the general decimal arithmetic of the `decimal` module).

An operation computes the exact result and fits it into the context: `finalize` rounds half to even, below the
least exponent `etiny` and beyond the precision. A result that fits is kept (`finalize_exact`), and what comes out
is a multiple of `10 ^ etiny` (`finalize_multiple`). So the additions of a sum are exact where the terms are such
multiples and the precision is wide enough (`exactly_iff`). -/
namespace Decimals

/-! ### Numbers -/

/-- `Decimal`: a finite number. -/
structure Decimal where
  negative : Bool
  coefficient : Nat
  exponent : Int
  deriving DecidableEq

namespace Decimal

def zero : Decimal := ⟨false, 0, 0⟩

def signed (d : Decimal) : Int := if d.negative then -d.coefficient else d.coefficient

/-- What a number stands for. -/
def value (d : Decimal) : ℚ := d.signed * 10 ^ d.exponent

/-- `adjusted()`: the exponent of the first digit; a zero has one digit. -/
def adjusted (d : Decimal) : Int := d.exponent + Nat.log 10 d.coefficient

end Decimal

/-- How many digits a coefficient has. -/
def digits (c : Nat) : Nat := Nat.log 10 c + 1

/-- A context; the overflow of an operation is an error, and what is inexact or underflows is rounded. -/
structure Context where
  prec : Nat
  emin : Int
  emax : Int

/-- `Etiny()`. -/
def Context.etiny (C : Context) : Int := C.emin - C.prec + 1

/-- The last `k` digits are rounded away, `ROUND_HALF_EVEN`. -/
def roundHalfEven (c k : Nat) : Nat :=
  if 10 ^ k < 2 * (c % 10 ^ k) ∨ 2 * (c % 10 ^ k) = 10 ^ k ∧ c / 10 ^ k % 2 = 1 then c / 10 ^ k + 1 else c / 10 ^ k

def shift (d : Decimal) (k : Nat) : Decimal :=
    { d with coefficient := roundHalfEven d.coefficient k, exponent := d.exponent + k }

section Operations
variable (C : Context)

/-- A subnormal number is rounded to the least exponent. -/
def toTiny (d : Decimal) : Decimal :=
  if d.adjusted < C.emin ∧ d.exponent < C.etiny then shift d (C.etiny - d.exponent).toNat else d

/-- A number is rounded to the precision. -/
def toPrecision (d : Decimal) : Decimal :=
  if C.prec < digits d.coefficient then shift d (digits d.coefficient - C.prec) else d

/-- A coefficient that was rounded up to one digit more. -/
def carry (d : Decimal) : Decimal :=
  if d.coefficient = 10 ^ C.prec then { d with coefficient := 10 ^ (C.prec - 1), exponent := d.exponent + 1 } else d

/-- A number as a context rounds it. -/
def rounded (d : Decimal) : Decimal := carry C (toPrecision C (toTiny C d))

/-- The result of an operation in a context, `none` where it overflows. -/
def finalize (d : Decimal) : Option Decimal :=
  if d.coefficient = 0 then some { d with exponent := max C.etiny (min d.exponent C.emax) }
  else if C.emax < d.adjusted then none
  else if C.emax < (rounded C d).adjusted then none
  else some (rounded C d)

/-- A coefficient with its sign; that of a zero is given. -/
def ofSigned (c : Int) (negativeZero : Bool) (e : Int) : Decimal :=
    ⟨if c = 0 then negativeZero else decide (c < 0), c.natAbs, e⟩

/-- The coefficient of a number with a lesser exponent. -/
def coefficientAt (d : Decimal) (e : Int) : Int := d.signed * 10 ^ (d.exponent - e).toNat

/-- The exact sum, with the lesser exponent. A zero is negative where both terms are. -/
def exactAdd (a b : Decimal) : Decimal :=
  let e := min a.exponent b.exponent
  ofSigned (coefficientAt a e + coefficientAt b e) (a.negative && b.negative) e

def add (a b : Decimal) : Option Decimal := finalize C (exactAdd a b)

/-- `sum(numbers, total)`. -/
def sum (total : Decimal) : List Decimal → Option Decimal
  | [] => some total
  | n :: rest => (add C total n).bind fun total => sum total rest

/-- No addition of the sum is inexact. -/
def Exactly (total : Decimal) : List Decimal → Prop
  | [] => True
  | n :: rest => ∃ t, add C total n = some t ∧ t.value = total.value + n.value ∧ Exactly t rest

end Operations

/-! ### Multiples of a power of ten -/

def Multiple (g : Int) (v : ℚ) : Prop := ∃ k : Int, v = k * 10 ^ g

theorem ten_ne_zero : (10 : ℚ) ≠ 0 := by norm_num

theorem Multiple.add {g : Int} {v w : ℚ} (hv : Multiple g v) (hw : Multiple g w) : Multiple g (v + w) := by
  obtain ⟨k, rfl⟩ := hv
  obtain ⟨l, rfl⟩ := hw
  exact ⟨k + l, by push_cast; ring⟩

theorem Multiple.sub {g : Int} {v w : ℚ} (hv : Multiple g v) (hw : Multiple g w) : Multiple g (v - w) := by
  obtain ⟨k, rfl⟩ := hv
  obtain ⟨l, rfl⟩ := hw
  exact ⟨k - l, by push_cast; ring⟩

theorem Multiple.zero (g : Int) : Multiple g 0 := ⟨0, by simp⟩

theorem pow_split {g h : Int} (hle : g ≤ h) : (10 : ℚ) ^ h = 10 ^ (h - g).toNat * 10 ^ g := by
  rw [← zpow_natCast, ← zpow_add₀ ten_ne_zero, Int.toNat_of_nonneg (by omega), sub_add_cancel]

theorem Multiple.mono {g h : Int} {v : ℚ} (hv : Multiple h v) (hle : g ≤ h) : Multiple g v := by
  obtain ⟨k, rfl⟩ := hv
  refine ⟨k * 10 ^ (h - g).toNat, ?_⟩
  rw [pow_split hle]
  push_cast
  ring

theorem Decimal.multiple (d : Decimal) : Multiple d.exponent d.value := ⟨d.signed, rfl⟩

theorem Decimal.natAbs_signed (d : Decimal) : d.signed.natAbs = d.coefficient := by
  unfold Decimal.signed
  split <;> omega

/-- A multiple of a greater power of ten has a coefficient that ends with zeros. -/
theorem dvd_of_multiple {d : Decimal} {g : Int} (h : Multiple g d.value) {k : Nat}
    (hk : d.exponent + k ≤ g) : 10 ^ k ∣ d.coefficient := by
  obtain ⟨l, hl⟩ := h.mono hk
  have hsigned : (d.signed : ℚ) = l * 10 ^ k := by
    have hpos : (10 : ℚ) ^ d.exponent ≠ 0 := zpow_ne_zero _ ten_ne_zero
    refine mul_right_cancel₀ hpos ?_
    rw [← Decimal.value, hl, zpow_add₀ ten_ne_zero, zpow_natCast]
    ring
  have hint : d.signed = l * 10 ^ k := by exact_mod_cast hsigned
  rw [← d.natAbs_signed, hint, Int.natAbs_mul, Int.natAbs_pow]
  exact Dvd.intro_left _ rfl

/-! ### The size of a number -/

theorem Decimal.abs_value (d : Decimal) : |d.value| = d.coefficient * 10 ^ d.exponent := by
  rw [Decimal.value, abs_mul, abs_of_pos
    (zpow_pos (by norm_num : (0 : ℚ) < 10) _), ← d.natAbs_signed, Nat.cast_natAbs, Int.cast_abs]

theorem Decimal.value_eq_zero {d : Decimal} : d.value = 0 ↔ d.coefficient = 0 := by
  rw [← abs_eq_zero, d.abs_value, mul_eq_zero, Nat.cast_eq_zero, or_iff_left (zpow_ne_zero _ ten_ne_zero)]

theorem Decimal.lt_of_adjusted (d : Decimal) : |d.value| < 10 ^ (d.adjusted + 1) := by
  have hlt : (d.coefficient : ℚ) < 10 ^ (Nat.log 10 d.coefficient + 1) := by
    exact_mod_cast Nat.lt_pow_succ_log_self (by norm_num) d.coefficient
  have hpow : (10 : ℚ) ^ (d.adjusted + 1) = 10 ^ (Nat.log 10 d.coefficient + 1) * 10 ^ d.exponent := by
    rw [← zpow_natCast, ← zpow_add₀ ten_ne_zero, Decimal.adjusted]
    congr 1
    push_cast
    ring
  rw [d.abs_value, hpow]
  exact mul_lt_mul_of_pos_right hlt (zpow_pos (by norm_num) _)

theorem Decimal.adjusted_le (d : Decimal) (h : d.coefficient ≠ 0) : 10 ^ d.adjusted ≤ |d.value| := by
  have hle : (10 : ℚ) ^ Nat.log 10 d.coefficient ≤ d.coefficient := by
    exact_mod_cast Nat.pow_log_le_self 10 h
  rw [d.abs_value, Decimal.adjusted, add_comm, zpow_add₀ ten_ne_zero, zpow_natCast]
  exact mul_le_mul_of_nonneg_right hle (zpow_nonneg (by norm_num) _)

theorem Decimal.adjusted_lt {d : Decimal} (h : d.coefficient ≠ 0) {e : Int}
    (hlt : |d.value| < 10 ^ e) : d.adjusted < e :=
  (zpow_lt_zpow_iff_right₀ (by norm_num : (1 : ℚ) < 10)).mp ((d.adjusted_le h).trans_lt hlt)

/-! ### Rounding -/

theorem roundHalfEven_of_dvd {c k : Nat} (h : 10 ^ k ∣ c) : roundHalfEven c k * 10 ^ k = c := by
  have hrest : c % 10 ^ k = 0 := Nat.mod_eq_zero_of_dvd h
  have hpos : 0 < 10 ^ k := by positivity
  rw [roundHalfEven, hrest, if_neg (by omega), Nat.div_mul_cancel h]

/-- Zeros are rounded away without a loss. -/
theorem shift_value {d : Decimal} {k : Nat} (h : 10 ^ k ∣ d.coefficient) : (shift d k).value = d.value := by
  have hcoefficient : (d.coefficient : ℤ) = roundHalfEven d.coefficient k * 10 ^ k := by
    exact_mod_cast (roundHalfEven_of_dvd h).symm
  have hsigned : d.signed = (shift d k).signed * 10 ^ k := by
    unfold Decimal.signed
    rw [show (shift d k).negative = d.negative from rfl,
      show (shift d k).coefficient = roundHalfEven d.coefficient k from rfl]
    split
    · rw [hcoefficient]
      ring
    · exact hcoefficient
  rw [Decimal.value, Decimal.value, show (shift d k).exponent = d.exponent + k from rfl, hsigned,
    zpow_add₀ ten_ne_zero, zpow_natCast]
  push_cast
  ring

section Finalize
variable {C : Context}

theorem toTiny_value {d : Decimal} (h : Multiple C.etiny d.value) : (toTiny C d).value = d.value := by
  unfold toTiny
  split
  case isTrue hsubnormal => exact shift_value (dvd_of_multiple h (by omega))
  case isFalse => rfl

/-- A number of few enough digits, counted from the power of ten it is a multiple of, is not rounded. -/
theorem toPrecision_value {d : Decimal} {g : Int} (h : Multiple g d.value)
    (hfits : |d.value| < 10 ^ (g + C.prec)) : (toPrecision C d).value = d.value := by
  unfold toPrecision
  split
  case isTrue hlong =>
    by_cases hzero : d.coefficient = 0
    · exact shift_value (hzero ▸ dvd_zero _)
    · have hadjusted := Decimal.adjusted_lt hzero hfits
      refine shift_value (dvd_of_multiple h ?_)
      rw [Decimal.adjusted] at hadjusted
      rw [digits] at hlong ⊢
      omega
  case isFalse => rfl

theorem carry_value {d : Decimal} (hprec : 0 < C.prec) : (carry C d).value = d.value := by
  unfold carry
  split
  case isTrue hfull =>
    obtain ⟨p, hp⟩ : ∃ p, C.prec = p + 1 := ⟨C.prec - 1, by omega⟩
    have hsigned : d.signed = Decimal.signed ⟨d.negative, 10 ^ p, d.exponent + 1⟩ * 10 := by
      unfold Decimal.signed
      rw [hfull, hp]
      split <;> push_cast <;> ring
    rw [hp, Nat.add_sub_cancel, Decimal.value, Decimal.value, hsigned, zpow_add₀ ten_ne_zero, zpow_one]
    push_cast
    ring
  case isFalse => rfl

/-- A result that fits the context is kept. -/
theorem finalize_exact {d : Decimal} {g : Int} (hprec : 0 < C.prec) (hg : Multiple g d.value)
    (hfits : |d.value| < 10 ^ (g + C.prec))
    (htiny : Multiple C.etiny d.value) (hmax : |d.value| < 10 ^ (C.emax + 1)) :
    ∃ t, finalize C d = some t ∧ t.value = d.value := by
  unfold finalize
  split_ifs with hzero hover hover'
  · refine ⟨_, rfl, ?_⟩
    rw [Decimal.value_eq_zero.mpr hzero, Decimal.value_eq_zero]
    exact hzero
  · have := Decimal.adjusted_lt hzero hmax
    omega
  all_goals
    have htinyValue := toTiny_value htiny
    have hvalue : (rounded C d).value = d.value := by
      rw [rounded, carry_value hprec, toPrecision_value (htinyValue ▸ hg) (htinyValue ▸ hfits), htinyValue]
  · have hnonzero : (rounded C d).coefficient ≠ 0 := by
      rw [Ne, ← Decimal.value_eq_zero, hvalue, Decimal.value_eq_zero]
      exact hzero
    have := Decimal.adjusted_lt hnonzero (hvalue ▸ hmax)
    omega
  · exact ⟨_, rfl, hvalue⟩

theorem exponent_toTiny (d : Decimal) : C.etiny ≤ (toTiny C d).exponent ∨ (toTiny C d = d ∧ C.emin ≤ d.adjusted) := by
  unfold toTiny
  split
  case isTrue hsubnormal =>
    refine .inl ?_
    show C.etiny ≤ d.exponent + ((C.etiny - d.exponent).toNat : Int)
    omega
  case isFalse hnormal =>
    rw [not_and_or, not_lt, not_lt] at hnormal
    exact hnormal.symm.imp id fun h => ⟨rfl, h⟩

theorem exponent_toPrecision (d : Decimal) : d.exponent ≤ (toPrecision C d).exponent ∧
    d.adjusted - C.prec + 1 ≤ (toPrecision C d).exponent := by
  unfold toPrecision
  rw [Decimal.adjusted, digits]
  split
  case isTrue hlong =>
    show d.exponent ≤ d.exponent + ((Nat.log 10 d.coefficient + 1 - C.prec : Nat) : Int) ∧
        _ ≤ d.exponent + ((Nat.log 10 d.coefficient + 1 - C.prec : Nat) : Int)
    omega
  case isFalse => omega

theorem exponent_carry (d : Decimal) : d.exponent ≤ (carry C d).exponent := by
  unfold carry
  split
  · show d.exponent ≤ d.exponent + 1
    omega
  · exact le_refl _

/-- A result is a multiple of the least power of ten, and below the greatest. -/
theorem finalize_multiple {d t : Decimal} (h : finalize C d = some t) :
    Multiple C.etiny t.value ∧ |t.value| < 10 ^ (C.emax + 1) := by
  unfold finalize at h
  split_ifs at h with hzero hover hover'
  · obtain rfl := Option.some.inj h
    have hvalue : Decimal.value { d with exponent := max C.etiny (min d.exponent C.emax) } = 0 :=
        Decimal.value_eq_zero.mpr hzero
    rw [hvalue, abs_zero]
    exact ⟨Multiple.zero _, zpow_pos (by norm_num) _⟩
  · obtain rfl := Option.some.inj h
    refine ⟨(Decimal.multiple _).mono ?_,
      (Decimal.lt_of_adjusted _).trans_le (zpow_le_zpow_right₀ (by norm_num) (by omega))⟩
    refine le_trans ?_ (exponent_carry _)
    obtain hle | ⟨heq, hnormal⟩ := exponent_toTiny (C := C) d
    · exact hle.trans (exponent_toPrecision _).1
    · rw [heq]
      refine le_trans ?_ (exponent_toPrecision (C := C) d).2
      rw [Context.etiny]
      omega

end Finalize

/-! ### Sums -/

/-- The exact sum. -/
def total (numbers : List Decimal) : ℚ := (numbers.map Decimal.value).sum

theorem signed_ofSigned (c : Int) (negativeZero : Bool) (e : Int) : (ofSigned c negativeZero e).signed = c := by
  unfold Decimal.signed ofSigned
  dsimp only
  by_cases hzero : c = 0
  · subst hzero
    cases negativeZero <;> rfl
  · rw [if_neg hzero]
    by_cases hneg : c < 0
    · rw [if_pos (decide_eq_true hneg)]
      omega
    · rw [if_neg (by simpa using hneg)]
      omega

/-- A number keeps its value with a lesser exponent. -/
theorem value_eq_coefficientAt {d : Decimal} {e : Int} (he : e ≤ d.exponent) :
    d.value = coefficientAt d e * 10 ^ e := by
  rw [Decimal.value, pow_split he, coefficientAt]
  push_cast
  ring

theorem exactAdd_value (a b : Decimal) : (exactAdd a b).value = a.value + b.value := by
  rw [value_eq_coefficientAt (min_le_left a.exponent b.exponent),
    value_eq_coefficientAt (min_le_right a.exponent b.exponent), ← add_mul, ← Int.cast_add]
  rw [Decimal.value, exactAdd, signed_ofSigned]
  rfl

theorem total_cons (n : Decimal) (rest : List Decimal) : total (n :: rest) = n.value + total rest := by
  rw [total, List.map_cons, List.sum_cons]
  rfl

section Sums
variable {C : Context}

/-- A sum without an inexact addition is exact. -/
theorem sum_of_exactly {start : Decimal} {numbers : List Decimal} (h : Exactly C start numbers) :
    ∃ t, sum C start numbers = some t ∧ t.value = start.value + total numbers := by
  induction numbers generalizing start with
  | nil => exact ⟨start, rfl, (add_zero _).symm⟩
  | cons n rest ih =>
    obtain ⟨t, ht, hvalue, hrest⟩ := h
    obtain ⟨u, hu, hsum⟩ := ih hrest
    refine ⟨u, ?_, ?_⟩
    · rw [sum, ht]
      exact hu
    · rw [hsum, hvalue, total_cons, add_assoc]

/-- The additions are exact where the terms are multiples of the least power of ten and no partial sum
overflows, given that the precision is wide enough for the partial sums. -/
theorem exactly_iff {start : Decimal} {numbers : List Decimal} {g : Int} (hprec : 0 < C.prec)
    (hstart : Multiple C.etiny start.value)
    (hg : Multiple g start.value) (hterms : ∀ n ∈ numbers, Multiple g n.value)
    (hfits : ∀ first, first <+: numbers → |start.value + total first| < 10 ^ (g + C.prec)) :
    Exactly C start numbers ↔
      (∀ n ∈ numbers, Multiple C.etiny n.value) ∧ ∀ first, first <+: numbers → first ≠ [] →
      |start.value + total first| < 10 ^ (C.emax + 1) := by
  induction numbers generalizing start with
  | nil =>
    exact iff_of_true trivial ⟨fun _ hn => absurd hn List.not_mem_nil,
      fun first hfirst hne => absurd (List.prefix_nil.mp hfirst) hne⟩
  | cons n rest ih =>
    rw [List.forall_mem_cons] at hterms
    have hsingle : [n] <+: n :: rest := ⟨rest, rfl⟩
    have hone : start.value + total [n] = start.value + n.value := by
      rw [total_cons]
      exact congrArg (start.value + ·) (add_zero _)
    have hcons (t : Decimal) (ht : t.value = start.value + n.value) (first : List Decimal) :
        t.value + total first = start.value + total (n :: first) := by
      rw [ht, total_cons, add_assoc]
    have htail (t : Decimal) (ht : t.value = start.value + n.value) (first : List Decimal) (hfirst : first <+: rest) :
        |t.value + total first| < 10 ^ (g + C.prec) := by
      rw [hcons t ht]
      exact hfits _ (List.cons_prefix_cons.mpr ⟨rfl, hfirst⟩)
    have hgnext (t : Decimal) (ht : t.value = start.value + n.value) : Multiple g t.value := ht ▸ hg.add hterms.1
    constructor
    · rintro ⟨t, hadd, hvalue, hrest⟩
      obtain ⟨htiny, hmax⟩ := finalize_multiple hadd
      obtain ⟨hmultiples, hbounds⟩ := (ih htiny (hgnext t hvalue) hterms.2 (htail t hvalue)).mp hrest
      refine ⟨List.forall_mem_cons.mpr ⟨?_, hmultiples⟩, fun first hfirst hne => ?_⟩
      · rw [show n.value = t.value - start.value by rw [hvalue]; ring]
        exact htiny.sub hstart
      · obtain ⟨m, first, rfl⟩ := List.exists_cons_of_ne_nil hne
        obtain ⟨rfl, htailPrefix⟩ := List.cons_prefix_cons.mp hfirst
        rw [← hcons t hvalue]
        by_cases hempty : first = []
        · subst hempty
          exact (congrArg abs (add_zero t.value)).trans_lt hmax
        · exact hbounds first htailPrefix hempty
    · rintro ⟨hmultiples, hbounds⟩
      rw [List.forall_mem_cons] at hmultiples
      have hvalue : (exactAdd start n).value = start.value + n.value := exactAdd_value start n
      obtain ⟨t, hadd, ht⟩ := finalize_exact hprec (hvalue ▸ hg.add hterms.1)
        (by rw [hvalue, ← hone]; exact hfits _ hsingle)
        (hvalue ▸ hstart.add hmultiples.1) (by rw [hvalue, ← hone]; exact hbounds _ hsingle (List.cons_ne_nil _ _))
      have ht : t.value = start.value + n.value := ht.trans hvalue
      refine ⟨t, hadd, ht, (ih (ht ▸ hstart.add hmultiples.1) (hgnext t ht) hterms.2
        (htail t ht)).mpr ⟨hmultiples.2, fun first hfirst hne => ?_⟩⟩
      rw [hcons t ht]
      exact hbounds _ (List.cons_prefix_cons.mpr ⟨rfl, hfirst⟩) (List.cons_ne_nil _ _)

end Sums

end Decimals
