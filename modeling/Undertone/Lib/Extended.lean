import Mathlib.Analysis.SpecialFunctions.Log.Base
import Mathlib.Analysis.SpecialFunctions.Trigonometric.Basic
import Mathlib.Data.Sign.Defs

/-!
# Exact results with exceptional values

The reals with what floating-point arithmetic gives where an operation has no real result: a quotient by zero and the
logarithm of zero are infinite, and `nan` stands for no value at all, which is neither less nor greater than any other.
Zero has no sign. On values that are `real` the operations are those of the reals; the decibels of an energy are ordered
as the energies are, down to zero (`log10_lt`).
-/

inductive Extended
  | nan
  | negInf
  | real (x : ℝ)
  | posInf
  deriving Inhabited

namespace Extended

/-- The infinity of a sign. -/
def infinity : SignType → Extended
  | .neg => negInf
  | .zero => nan
  | .pos => posInf

noncomputable def sign : Extended → SignType
  | nan => 0
  | negInf => -1
  | real x => SignType.sign x
  | posInf => 1

/-! ## Operations -/

noncomputable instance : Add Extended where
  add
    | nan, _ | _, nan | posInf, negInf | negInf, posInf => nan
    | real x, real y => real (x + y)
    | posInf, _ | _, posInf => posInf
    | negInf, _ | _, negInf => negInf

noncomputable instance : Neg Extended where
  neg
    | nan => nan
    | negInf => posInf
    | real x => real (-x)
    | posInf => negInf

noncomputable instance : Sub Extended where
  sub x y := x + -y

noncomputable instance : Mul Extended where
  mul
    | nan, _ | _, nan => nan
    | real x, real y => real (x * y)
    | x, y => infinity (sign x * sign y)

noncomputable instance : Div Extended where
  div
    | nan, _ | _, nan => nan
    | real x, real y => if y = 0 then infinity (SignType.sign x) else real (x / y)
    | real _, _ => real 0
    | x, real y => infinity (if y = 0 then sign x else sign x * SignType.sign y)
    | _, _ => nan

/-- `nan` is neither less nor greater than any value. -/
instance : LT Extended where
  lt
    | real x, real y => x < y
    | negInf, real _ | negInf, posInf | real _, posInf => True
    | _, _ => False

noncomputable def abs : Extended → Extended
  | nan => nan
  | real x => real |x|
  | _ => posInf

noncomputable def sqrt : Extended → Extended
  | real x => if x < 0 then nan else real (Real.sqrt x)
  | posInf => posInf
  | _ => nan

noncomputable def cos : Extended → Extended
  | real x => real (Real.cos x)
  | _ => nan

noncomputable def log10 : Extended → Extended
  | real x => if x < 0 then nan else if x = 0 then negInf else real (Real.logb ((10 : ℕ) : ℝ) x)
  | posInf => posInf
  | _ => nan

/-- The powers of a real base above one. -/
noncomputable def pow : Extended → Extended → Extended
  | real x, real y => real (x ^ y)
  | real _, posInf => posInf
  | real _, negInf => real 0
  | _, _ => nan

/-! ## Real values -/

variable {x y : ℝ} {u v : Extended}

@[simp] theorem real_add : real x + real y = real (x + y) := rfl

@[simp] theorem real_neg : -real x = real (-x) := rfl

@[simp] theorem real_sub : real x - real y = real (x - y) := congrArg real (sub_eq_add_neg x y).symm

@[simp] theorem real_mul : real x * real y = real (x * y) := rfl

@[simp] theorem abs_real : abs (real x) = real |x| := rfl

@[simp] theorem cos_real : cos (real x) = real (Real.cos x) := rfl

theorem real_div (hy : y ≠ 0) : real x / real y = real (x / y) := if_neg hy

theorem div_zero : real x / real 0 = infinity (SignType.sign x) := if_pos rfl

theorem sqrt_real (hx : 0 ≤ x) : sqrt (real x) = real (Real.sqrt x) := if_neg (not_lt.2 hx)

theorem log10_zero : log10 (real 0) = negInf := (if_neg (lt_irrefl 0)).trans (if_pos rfl)

theorem log10_real (hx : 0 < x) : log10 (real x) = real (Real.logb 10 x) :=
  (if_neg (not_lt.2 hx.le)).trans (if_neg hx.ne')

@[simp] theorem real_lt : real x < real y ↔ x < y := Iff.rfl

/-! ## Comparisons -/

theorem not_nan_lt : ¬ nan < u := by
  cases u <;> exact id

theorem not_posInf_lt : ¬ posInf < u := by
  cases u <;> exact id

theorem not_lt_negInf : ¬ u < negInf := by
  cases u <;> exact id

theorem lt_irrefl' : ¬ u < u := by
  cases u with
  | real x => exact lt_irrefl x
  | nan => exact id
  | negInf => exact id
  | posInf => exact id

/-- The logarithm keeps the order, down to zero. -/
theorem log10_lt (hx : 0 ≤ x) (hy : 0 ≤ y) : log10 (real x) < log10 (real y) ↔ x < y := by
  rcases hx.eq_or_lt with rfl | hx
  · rw [log10_zero]
    rcases hy.eq_or_lt with rfl | hy
    · rw [log10_zero]
      exact iff_of_false not_lt_negInf (lt_irrefl 0)
    · rw [log10_real hy]
      exact iff_of_true trivial hy
  · rw [log10_real hx]
    rcases hy.eq_or_lt with rfl | hy
    · rw [log10_zero]
      exact iff_of_false not_lt_negInf (not_lt.2 hx.le)
    · rw [log10_real hy, real_lt, Real.logb_lt_logb_iff (by norm_num) hx hy]

theorem mul_posInf (hx : 0 < x) : real x * posInf = posInf := by
  show infinity (SignType.sign x * 1) = posInf
  rw [sign_pos hx]
  rfl

theorem mul_negInf (hx : 0 < x) : real x * negInf = negInf := by
  show infinity (SignType.sign x * -1) = negInf
  rw [sign_pos hx]
  rfl

@[simp] theorem mul_nan : u * nan = nan := by
  cases u <;> rfl

/-- A positive factor keeps the order. -/
theorem mul_lt_mul_iff (hx : 0 < x) : real x * u < real x * v ↔ u < v := by
  cases u <;> cases v <;>
    simp only [mul_posInf hx, mul_negInf hx, mul_nan, real_mul, real_lt, mul_lt_mul_iff_right₀ hx] <;> rfl

end Extended
