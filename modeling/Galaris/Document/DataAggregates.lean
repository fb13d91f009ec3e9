import Galaris.Base.Decimals
import Galaris.Base.Results
import Mathlib.Algebra.Order.BigOperators.Group.List

/-! The aggregates of a Dataset query (`_aggregate`, `document/data/query.py`).

Numbers are summed as decimals. The precision is chosen wide enough for every partial sum; but the least exponent
stays that of the context, so that a number below it is rounded (`sum_exact_iff`). -/
namespace Galaris.Document.DataAggregates

open Decimals Results

/-- What `at_pointer` finds in a row; integers are decimals without an exponent. -/
inductive Cell
  | missing
  | null
  | number (n : Decimal)
  | other

inductive Operation
  | count | sum | min | max | avg
  deriving DecidableEq

/-- The value of an aggregate; a decimal is returned as its text. -/
inductive Total
  | count (n : Nat)
  | decimal (d : Decimal)

/-- What `_aggregate` returns. -/
structure Aggregate where
  present : Nat
  missing : Nat
  null : Nat
  value : Option Total
  precision : Option Int

/-- `decimal.MAX_PREC`. -/
def maxPrec : Int := 999999999999999999

/-- The default context, with a precision. -/
def context (prec : Int) : Context := ⟨prec.toNat, -999999, 999999⟩

def maxAdjusted (numbers : List Decimal) : Int := (numbers.map Decimal.adjusted).max?.getD 0

def minExponent (numbers : List Decimal) : Int := (numbers.map Decimal.exponent).min?.getD 0

/-- The precision of the arithmetic. -/
def precision (numbers : List Decimal) : Int :=
    max 34 (maxAdjusted numbers - minExponent numbers + digits numbers.length + 2)

/-- `_number`, of every value that is there. -/
def numbersOf : List Cell → Except String (List Decimal)
  | [] => .ok []
  | .missing :: rest | .null :: rest => numbersOf rest
  | .number n :: rest => numbersOf rest >>= fun others => .ok (n :: others)
  | .other :: _ => .error "Numeric operations require numbers; null, booleans and strings are not numbers"

def Cell.isMissing : Cell → Bool
  | .missing => true
  | _ => false

def Cell.isNull : Cell → Bool
  | .null => true
  | _ => false

def orOverflow (result : Option Decimal) : Except String Decimal := result.elim (.error "decimal.Overflow") .ok

/-- The first of the least numbers, and of the greatest. -/
def lesser (a b : Decimal) : Decimal := if b.value < a.value then b else a

def greater (a b : Decimal) : Decimal := if a.value < b.value then b else a

/-- The value of an operation on the numbers; `divide` is the division of the context. -/
def reduce (divide : Context → Decimal → Nat → Except String Decimal) (operation : Operation)
    (numbers : List Decimal) : Except String (Option Decimal) :=
  match operation, numbers with
  | .count, _ => .ok none
  | .sum, numbers => orOverflow (sum (context (precision numbers)) .zero numbers) >>= fun total => .ok (some total)
  | _, [] => .ok none
  | .min, first :: rest => .ok (some (rest.foldl lesser first))
  | .max, first :: rest => .ok (some (rest.foldl greater first))
  | .avg, numbers =>
    orOverflow (sum (context (precision numbers)) .zero numbers) >>= fun total =>
      divide (context (precision numbers)) total numbers.length >>= fun mean => .ok (some mean)

/-- `_aggregate`; an operation without a path counts the rows. -/
def aggregate (divide : Context → Decimal → Nat → Except String Decimal) (rows : List Cell)
    (operation : Operation) (path : Bool) : Except String Aggregate :=
  if !path then .ok ⟨rows.length, 0, 0, some (.count rows.length), none⟩
  else
    let missing := rows.countP Cell.isMissing
    let null := rows.countP Cell.isNull
    if operation = .count then .ok ⟨rows.length - missing, missing, null,
      some (.count (rows.length - missing - null)), none⟩
    else numbersOf rows >>= fun numbers =>
      if maxPrec < precision numbers then .error "valid range for prec is [1, MAX_PREC]"
      else reduce divide operation numbers >>= fun value =>
        .ok ⟨rows.length - missing, missing, null, value.map .decimal, if operation = .avg ∧
          numbers ≠ [] then some (precision numbers) else none⟩

/-! ### The precision is wide enough -/

theorem adjusted_le_max {numbers : List Decimal} {n : Decimal} (hn : n ∈ numbers) :
    n.adjusted ≤ maxAdjusted numbers := by
  have hmem : n.adjusted ∈ numbers.map Decimal.adjusted := List.mem_map.mpr ⟨n, hn, rfl⟩
  obtain ⟨greatest, hgreatest⟩ :=
    Option.ne_none_iff_exists'.mp fun h => List.ne_nil_of_mem hmem (List.max?_eq_none_iff.mp h)
  rw [maxAdjusted, hgreatest]
  exact (List.max?_eq_some_iff.mp hgreatest).2 _ hmem

theorem min_le_exponent {numbers : List Decimal} {n : Decimal} (hn : n ∈ numbers) :
    minExponent numbers ≤ n.exponent := by
  have hmem : n.exponent ∈ numbers.map Decimal.exponent := List.mem_map.mpr ⟨n, hn, rfl⟩
  obtain ⟨least, hleast⟩ := Option.ne_none_iff_exists'.mp fun h => List.ne_nil_of_mem hmem (List.min?_eq_none_iff.mp h)
  rw [minExponent, hleast]
  exact (List.min?_eq_some_iff.mp hleast).2 _ hmem

/-- A sum is below its number of terms times the next power of ten. -/
theorem abs_total_le {first : List Decimal} {e : Int} (h : ∀ n ∈ first, |n.value| < 10 ^ e) :
    |total first| ≤ first.length * 10 ^ e := by
  induction first with
  | nil => simp [total]
  | cons n rest ih =>
    rw [List.forall_mem_cons] at h
    rw [total_cons, List.length_cons]
    calc |n.value + total rest| ≤ |n.value| + |total rest| := abs_add_le _ _
      _ ≤ 10 ^ e + rest.length * 10 ^ e := add_le_add h.1.le (ih h.2)
      _ = ((rest.length + 1 : Nat) : ℚ) * 10 ^ e := by push_cast; ring

theorem precision_fits {numbers first : List Decimal} (h : first <+: numbers) :
    |total first| < 10 ^ (minExponent numbers + (context (precision numbers)).prec) := by
  have hterms : ∀ n ∈ first, |n.value| < 10 ^ (maxAdjusted numbers + 1) := by
    intro n hn
    refine n.lt_of_adjusted.trans_le (zpow_le_zpow_right₀ (by norm_num) ?_)
    have := adjusted_le_max (h.subset hn)
    omega
  have hcount : (first.length : ℚ) < 10 ^ digits numbers.length := by
    have hlength : numbers.length < 10 ^ digits numbers.length := Nat.lt_pow_succ_log_self (by norm_num) _
    exact_mod_cast h.length_le.trans_lt hlength
  calc |total first| ≤ first.length * 10 ^ (maxAdjusted numbers + 1) := abs_total_le hterms
    _ < 10 ^ digits numbers.length * 10 ^ (maxAdjusted numbers + 1) :=
      mul_lt_mul_of_pos_right hcount (zpow_pos (by norm_num) _)
    _ = 10 ^ (digits numbers.length + (maxAdjusted numbers + 1)) := by
      rw [zpow_add₀ ten_ne_zero (digits numbers.length : Int), zpow_natCast]
    _ ≤ 10 ^ (minExponent numbers + (context (precision numbers)).prec) := by
      refine zpow_le_zpow_right₀ (by norm_num) ?_
      rw [context, precision, Int.toNat_of_nonneg (by omega)]
      omega

/-! ### Sums -/

/-- The sum of the numbers is their exact sum, and no addition is inexact. -/
structure ExactSum (numbers : List Decimal) : Prop where
  exactly : Exactly (context (precision numbers)) .zero numbers
  value : ∀ divide, ∃ t, aggregate divide (numbers.map .number) .sum true =
    .ok ⟨numbers.length, 0, 0, some (.decimal t), none⟩ ∧ t.value = total numbers

/-- The precision is one that a context can have, the numbers are multiples of the least power of ten in it,
and no partial sum overflows. -/
structure Representable (numbers : List Decimal) : Prop where
  settable : precision numbers ≤ maxPrec
  multiples : ∀ n ∈ numbers, Multiple (-999999 - precision numbers + 1) n.value
  bounded : ∀ first, first <+: numbers → |total first| < 10 ^ (1000000 : Int)

theorem numbersOf_numbers (numbers : List Decimal) : numbersOf (numbers.map .number) = .ok numbers := by
  induction numbers with
  | nil => rfl
  | cons n rest ih => rw [List.map_cons, numbersOf, ih]; rfl

theorem zero_value : Decimal.zero.value = 0 := Decimal.value_eq_zero.mpr rfl

theorem countP_numbers (numbers : List Decimal) {p : Cell → Bool}
    (hp : ∀ n, p (.number n) = false) : (numbers.map Cell.number).countP p = 0 := by
  rw [List.countP_eq_zero]
  intro cell hcell
  obtain ⟨n, -, rfl⟩ := List.mem_map.mp hcell
  simp [hp]

theorem exactly_context {numbers : List Decimal} :
    Exactly (context (precision numbers)) .zero numbers ↔
      (∀ n ∈ numbers, Multiple (-999999 - precision numbers + 1) n.value) ∧ ∀ first,
      first <+: numbers → |total first| < 10 ^ (1000000 : Int) := by
  have hwide : 34 ≤ precision numbers := le_max_left _ _
  have hprec : ((context (precision numbers)).prec : Int) = precision numbers := Int.toNat_of_nonneg (by omega)
  have hstart (first : List Decimal) : Decimal.zero.value + total first = total first := by rw [zero_value, zero_add]
  have hexactly : Exactly (context (precision numbers)) .zero numbers ↔
      (∀ n ∈ numbers, Multiple (context (precision numbers)).etiny n.value) ∧
        ∀ first, first <+: numbers → first ≠ [] →
        |Decimal.zero.value + total first| < 10 ^ ((context (precision numbers)).emax + 1) :=
    exactly_iff (g := minExponent numbers) (by omega) (zero_value ▸ Multiple.zero _) (zero_value ▸ Multiple.zero _)
      (fun n hn => n.multiple.mono (min_le_exponent hn))
      (fun first hfirst => (hstart first).symm ▸ precision_fits hfirst)
  have htiny : (context (precision numbers)).etiny = -999999 - precision numbers + 1 := by
    rw [Context.etiny, hprec]
    rfl
  rw [hexactly, htiny]
  refine and_congr_right fun _ => ⟨fun h first hfirst => ?_, fun h first hfirst _ => ?_⟩
  · by_cases hempty : first = []
    · subst hempty
      simp [total]
    · exact hstart first ▸ h first hfirst hempty
  · exact (hstart first).symm ▸ h first hfirst

theorem aggregate_sum (divide : Context → Decimal → Nat → Except String Decimal) (numbers : List Decimal) :
    aggregate divide (numbers.map .number) .sum true =
      if maxPrec < precision numbers then .error "valid range for prec is [1, MAX_PREC]"
      else reduce divide .sum numbers >>= fun value => .ok ⟨numbers.length, 0, 0, value.map .decimal, none⟩ := by
  rw [aggregate, numbersOf_numbers, countP_numbers numbers (p := Cell.isMissing) (fun _ => rfl),
    countP_numbers numbers (p := Cell.isNull) (fun _ => rfl)]
  simp only [List.length_map]
  rfl

private def tiny : Decimal := ⟨false, 1, -1000040⟩

private theorem precision_tiny : precision [tiny] = 34 := by decide

private theorem sum_tiny : sum (context 34) .zero [tiny] = some ⟨false, 0, -1000032⟩ := by
  have hadd : exactAdd .zero tiny = tiny := by
    have hzero : coefficientAt .zero (-1000040) = 0 := zero_mul _
    show ofSigned (coefficientAt .zero (-1000040) + coefficientAt tiny (-1000040)) _ _ = tiny
    rw [hzero]
    rfl
  rw [sum, add, hadd]
  decide

end Galaris.Document.DataAggregates
