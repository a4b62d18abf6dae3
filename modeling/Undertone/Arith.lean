import Mathlib.Analysis.SpecialFunctions.Log.Base
import Mathlib.Analysis.SpecialFunctions.Pow.Real
import Mathlib.Analysis.SpecialFunctions.Trigonometric.Basic
import Undertone.Lib.Extended

/-!
# Machine numbers

The audio code computes in `float` and `double`. Nothing that is proved about every run depends on how they round, so
the model takes both as types with the operations of the code and no laws. In exact arithmetic both are the reals, or
the reals with exceptional values where a quotient by zero or the logarithm of zero matters.
-/

namespace Undertone

/-- `double` -/
class Doubles (D : Type) extends Add D, Sub D, Mul D, Div D where
  lit : ℚ → D
  log10 : D → D
  /-- `(int)x` -/
  trunc : D → ℤ

/-- `float`, with the conversions from and to `double`. -/
class Floats (F : Type) (D : outParam Type) extends Add F, Sub F, Mul F, Div F, Neg F where
  lit : ℚ → F
  lt : F → F → Bool
  eq : F → F → Bool
  abs : F → F
  sqrt : F → F
  cos : F → F
  pow : F → F → F
  toDouble : F → D
  ofDouble : D → F

/-- The discrete Fourier transform of the vendored library: `rdft(n, 1, a)` leaves the real parts of the transform at
the even indices and its imaginary parts at the odd ones, with the real part at `n / 2` in place of the imaginary part
at `0`. -/
class CFFTOoura (F : Type) where
  rdft : ℕ → (ℕ → F) → ℕ → F

section Exact

/-- The sampling rate as a numeral: one instance for every definition that mentions it. -/
instance atLeastTwo_44100 : Nat.AtLeastTwo 44100 := ⟨by decide⟩

/-- `(int)x` rounds towards zero. -/
noncomputable def truncate (x : ℝ) : ℤ := if 0 ≤ x then ⌊x⌋ else ⌈x⌉

theorem truncate_eq {x : ℝ} {n : ℕ} (h : (n : ℝ) ≤ x) (h' : x < n + 1) : truncate x = n := by
  have h0 : (0 : ℝ) ≤ x := (Nat.cast_nonneg n).trans h
  rw [truncate, if_pos h0, Int.floor_eq_iff]
  exact ⟨by exact_mod_cast h, by exact_mod_cast h'⟩

noncomputable instance : Doubles ℝ where
  lit q := q
  log10 := Real.logb 10
  trunc := truncate

noncomputable instance : Floats ℝ ℝ where
  lit q := q
  lt x y := decide (x < y)
  eq x y := decide (x = y)
  abs x := |x|
  sqrt := Real.sqrt
  cos := Real.cos
  pow x y := x ^ y
  toDouble x := x
  ofDouble x := x

theorem lit_eq (q : ℚ) : (Floats.lit q : ℝ) = q := rfl

/-- The transform itself, term by term. -/
noncomputable def realDFT (n : ℕ) (a : ℕ → ℝ) (i : ℕ) : ℝ :=
  if n ≤ i then a i
  else if i = 1 then ∑ j ∈ Finset.range n, a j * Real.cos (Real.pi * j)
  else if i % 2 = 0 then ∑ j ∈ Finset.range n, a j * Real.cos (2 * Real.pi * j * (i / 2 : ℕ) / n)
  else ∑ j ∈ Finset.range n, a j * Real.sin (2 * Real.pi * j * (i / 2 : ℕ) / n)

noncomputable instance : CFFTOoura ℝ := ⟨realDFT⟩

/-- The factors of the transform. -/
noncomputable def dftFactor (n i j : ℕ) : ℝ :=
  if i = 1 then Real.cos (Real.pi * j)
  else if i % 2 = 0 then Real.cos (2 * Real.pi * j * (i / 2 : ℕ) / n)
  else Real.sin (2 * Real.pi * j * (i / 2 : ℕ) / n)

theorem realDFT_eq {n i : ℕ} (a : ℕ → ℝ) (hi : i < n) :
    realDFT n a i = ∑ j ∈ Finset.range n, a j * dftFactor n i j := by
  unfold realDFT dftFactor
  rw [if_neg (Nat.not_le.2 hi)]
  by_cases h1 : i = 1
  · simp only [if_pos h1]
  · by_cases h2 : i % 2 = 0
    · simp only [if_neg h1, if_pos h2]
    · simp only [if_neg h1, if_neg h2]

end Exact

section Exceptional

open Extended

noncomputable instance : Doubles Extended where
  lit q := real q
  log10 := Extended.log10
  trunc
    | real x => truncate x
    -- the conversion of anything else is undefined, and not used
    | _ => 0

open scoped Classical in
noncomputable instance : Floats Extended Extended where
  lit q := real q
  lt x y := decide (x < y)
  eq x y := decide (x = y ∧ x ≠ nan)
  abs := Extended.abs
  sqrt := Extended.sqrt
  cos := Extended.cos
  pow := Extended.pow
  toDouble x := x
  ofDouble x := x

open scoped Classical in
theorem lt_iff {x y : Extended} : Floats.lt x y = true ↔ x < y := decide_eq_true_iff

open scoped Classical in
theorem lt_eq_false {x y : Extended} (h : ¬ x < y) : Floats.lt x y = false := decide_eq_false h

end Exceptional

end Undertone
