import Mathlib.Algebra.CharP.Two
import Mathlib.Algebra.Field.Basic
import Mathlib.FieldTheory.Finite.GaloisField
import Mathlib.Tactic.ComputeDegree
import Mathlib.Tactic.IntervalCases
import Mathlib.Tactic.LinearCombination
import Mathlib.Tactic.Ring
import Undertone.ReedSolomon.Defs

/-!
# The two forms of a symbol, as elements of a field

Fix a field of characteristic two and a root `α` of the polynomial `pp`. A symbol in polynomial form is a sum of
powers `α^i`, `i < 5` (`ofPoly`), one in index form is a power of `α` or zero (`ofIndex`); the exclusive or of the
code is addition (`ofPoly_xor`). The powers of `α` are the successive values of the feedback register (`alphaTable`),
they repeat with period 31 and name every non-zero symbol once, so both readings are injective (`ofPoly_inj`). The
field with 32 elements is one that has such a root (`alpha_root`).
-/

namespace Undertone

open CountedLoop

namespace ReedSolomon

/-! ## Ranges -/

/-- A symbol in polynomial form. -/
def Sym (x : ℤ) : Prop := 0 ≤ x ∧ x < 32

/-- A symbol in index form. -/
def Idx (e : ℤ) : Prop := -1 ≤ e ∧ e < 31

instance (x : ℤ) : Decidable (Sym x) := inferInstanceAs (Decidable (_ ∧ _))
instance (e : ℤ) : Decidable (Idx e) := inferInstanceAs (Decidable (_ ∧ _))

@[simp] theorem sym_zero : Sym 0 := by decide

@[simp] theorem sym_one : Sym 1 := by decide

theorem Sym.xor {x y : ℤ} (hx : Sym x) (hy : Sym y) : Sym (Int.xor x y) := by
  obtain ⟨m, rfl⟩ := Int.eq_ofNat_of_zero_le hx.1
  obtain ⟨n, rfl⟩ := Int.eq_ofNat_of_zero_le hy.1
  have hm : m < 2 ^ 5 := by have := hx.2; omega
  have hn : n < 2 ^ 5 := by have := hy.2; omega
  have h : Int.xor (m : ℤ) n = ((m ^^^ n : ℕ) : ℤ) := rfl
  have := Nat.xor_lt_two_pow hm hn
  rw [h]
  exact ⟨by omega, by omega⟩

@[simp] theorem nn_eq : nn = 31 := rfl
@[simp] theorem kk_eq : kk = 23 := rfl
@[simp] theorem mm_eq : mm = 5 := rfl

/-! ## The powers of `α` as bit patterns -/

/-- The successive values of the feedback register that `GenerateGaloisField` runs. -/
def alphaTable : ℕ → ℤ
  | 0 => 1
  | i + 1 => galoisNext 16 5 (alphaTable i)

theorem alphaTable_sym : ∀ i < 31, Sym (alphaTable i) := by decide

theorem alphaTable_ne_zero : ∀ i < 31, alphaTable i ≠ 0 := by decide

theorem alphaTable_inj : ∀ i < 31, ∀ j < 31, alphaTable i = alphaTable j → i = j := by decide

theorem alphaTable_surj {x : ℤ} (hx : Sym x) (h0 : x ≠ 0) : ∃ i < 31, alphaTable i = x := by
  have key : ∀ x < 32, x ≠ 0 → ∃ i < 31, alphaTable i = (x : ℕ) := by decide
  obtain ⟨m, rfl⟩ := Int.eq_ofNat_of_zero_le hx.1
  exact key m (by have := hx.2; omega) (by omega)

section Field

variable {K : Type*} [Field K] {α : K}

/-- A symbol in polynomial form. -/
def ofPoly (α : K) (x : ℤ) : K := ∑ i ∈ Finset.range 5, ((x.toNat.testBit i).toNat : K) * α ^ i

/-- A symbol in index form. -/
def ofIndex (α : K) (e : ℤ) : K := if e = -1 then 0 else α ^ e.toNat

@[simp] theorem ofPoly_zero : ofPoly α 0 = 0 := by simp [ofPoly]

@[simp] theorem ofPoly_one : ofPoly α 1 = 1 := by
  have h : ∀ i, Nat.testBit 1 i = decide (i = 0) := fun i => by cases i <;> simp [Nat.testBit_succ]
  simp [ofPoly, h, Finset.sum_range_succ]

@[simp] theorem ofIndex_neg_one : ofIndex α (-1) = 0 := by simp [ofIndex]

theorem ofIndex_of_nonneg {e : ℤ} (he : 0 ≤ e) : ofIndex α e = α ^ e.toNat := by
  rw [ofIndex, if_neg (by omega)]

theorem alpha_ne_zero (hα : α ^ 5 = α ^ 2 + 1) : α ≠ 0 := by
  rintro rfl
  simp at hα

theorem ofIndex_eq_zero (hα : α ^ 5 = α ^ 2 + 1) {e : ℤ} (h : ofIndex α e = 0) : e = -1 := by
  by_contra h0
  rw [ofIndex, if_neg h0] at h
  exact pow_ne_zero _ (alpha_ne_zero hα) h

/-- Below the top bit, doubling the pattern multiplies by `α`. -/
theorem ofPoly_double {x : ℤ} (h0 : 0 ≤ x) (h : x < 16) : ofPoly α (x * 2) = α * ofPoly α x := by
  obtain ⟨m, rfl⟩ := Int.eq_ofNat_of_zero_le h0
  have hm : (m : ℤ) * 2 = ((2 * m : ℕ) : ℤ) := by push_cast; ring
  have hb : m.testBit 4 = false := Nat.testBit_lt_two_pow (by omega)
  rw [hm]
  simp only [ofPoly, Int.toNat_natCast, Finset.sum_range_succ, Finset.sum_range_zero]
  have h0 : (2 * m).testBit 0 = false := by simp
  have hs : ∀ i, (2 * m).testBit (i + 1) = m.testBit i := fun i => by
    rw [Nat.testBit_succ, Nat.mul_div_cancel_left _ (by omega)]
  rw [h0, hs 0, hs 1, hs 2, hs 3, hb]
  simp only [Bool.toNat_false, Nat.cast_zero]
  ring

variable [CharP K 2]

/-- Exclusive or is addition. -/
theorem ofPoly_xor {x y : ℤ} (hx : Sym x) (hy : Sym y) : ofPoly α (Int.xor x y) = ofPoly α x + ofPoly α y := by
  obtain ⟨m, rfl⟩ := Int.eq_ofNat_of_zero_le hx.1
  obtain ⟨n, rfl⟩ := Int.eq_ofNat_of_zero_le hy.1
  have h : (Int.xor (m : ℤ) n).toNat = m ^^^ n := rfl
  simp only [ofPoly, h, Int.toNat_natCast, ← Finset.sum_add_distrib, Nat.testBit_xor]
  refine Finset.sum_congr rfl fun i _ => ?_
  cases m.testBit i <;> cases n.testBit i <;> simp [CharTwo.add_self_eq_zero]

/-- One step of the feedback register multiplies by `α`. -/
theorem ofPoly_galoisNext (hα : α ^ 5 = α ^ 2 + 1) {x : ℤ} (hx : Sym x) :
    ofPoly α (galoisNext 16 5 x) = α * ofPoly α x := by
  have h5 : ofPoly α 5 = α ^ 5 := by
    rw [hα]
    have h : ∀ i < 5, Nat.testBit 5 i = decide (i = 0 ∨ i = 2) := by decide
    simp [ofPoly, Finset.sum_range_succ, h]
    ring
  have h16 : ofPoly α 16 = α ^ 4 := by
    have h : ∀ i < 5, Nat.testBit 16 i = decide (i = 4) := by decide
    simp [ofPoly, Finset.sum_range_succ, h]
  have key : ∀ x < 32, 16 ≤ x → 0 ≤ Int.xor x 16 ∧ Int.xor x 16 < 16 := by
    intro x hx hx'
    interval_cases x <;> decide
  unfold galoisNext
  split
  · rename_i h
    obtain ⟨k0, k1⟩ := key x hx.2 h
    have hs : Sym (Int.xor x 16 * 2) := ⟨by omega, by omega⟩
    rw [ofPoly_xor (by decide) hs, ofPoly_double k0 k1, ofPoly_xor hx (by decide), h5, h16]
    have h2 : (2 : K) = 0 := CharTwo.two_eq_zero
    linear_combination α ^ 5 * h2
  · exact ofPoly_double hx.1 (by omega)

theorem ofPoly_alphaTable (hα : α ^ 5 = α ^ 2 + 1) : ∀ i < 31, ofPoly α (alphaTable i) = α ^ i
  | 0, _ => by simp [alphaTable]
  | i + 1, h => by
    rw [alphaTable, ofPoly_galoisNext hα (alphaTable_sym i (by omega)), ofPoly_alphaTable hα i (by omega), pow_succ']

/-- The order of `α` divides 31. -/
theorem alpha_pow_31 (hα : α ^ 5 = α ^ 2 + 1) : α ^ 31 = 1 := by
  have h : α ^ 31 = α * ofPoly α (alphaTable 30) := by rw [ofPoly_alphaTable hα 30 (by omega)]; ring
  have hn : galoisNext 16 5 (alphaTable 30) = 1 := by decide +kernel
  rw [h, ← ofPoly_galoisNext hα (alphaTable_sym 30 (by omega)), hn, ofPoly_one]

theorem alpha_pow_mod (hα : α ^ 5 = α ^ 2 + 1) (n : ℕ) : α ^ (n % 31) = α ^ n := by
  conv_rhs => rw [← Nat.div_add_mod n 31, pow_add, pow_mul, alpha_pow_31 hα, one_pow, one_mul]

/-- Only the symbol zero stands for zero. -/
theorem ofPoly_eq_zero (hα : α ^ 5 = α ^ 2 + 1) {x : ℤ} (hx : Sym x) (h : ofPoly α x = 0) : x = 0 := by
  by_contra h0
  obtain ⟨i, hi, rfl⟩ := alphaTable_surj hx h0
  rw [ofPoly_alphaTable hα i hi] at h
  exact pow_ne_zero i (alpha_ne_zero hα) h

theorem ofPoly_inj (hα : α ^ 5 = α ^ 2 + 1) {x y : ℤ} (hx : Sym x) (hy : Sym y) (h : ofPoly α x = ofPoly α y) :
    x = y := by
  have hz : ofPoly α (Int.xor x y) = 0 := by rw [ofPoly_xor hx hy, h, CharTwo.add_self_eq_zero]
  have h0 := ofPoly_eq_zero hα (hx.xor hy) hz
  obtain ⟨m, rfl⟩ := Int.eq_ofNat_of_zero_le hx.1
  obtain ⟨n, rfl⟩ := Int.eq_ofNat_of_zero_le hy.1
  have hmn : m ^^^ n = 0 := by exact_mod_cast (show ((m ^^^ n : ℕ) : ℤ) = 0 from h0)
  rw [Nat.xor_eq_zero_iff.1 hmn]

/-- The first 31 powers of `α` are distinct. -/
theorem alpha_pow_inj (hα : α ^ 5 = α ^ 2 + 1) {i j : ℕ} (hi : i < 31) (hj : j < 31) (h : α ^ i = α ^ j) : i = j := by
  rw [← ofPoly_alphaTable hα i hi, ← ofPoly_alphaTable hα j hj] at h
  exact alphaTable_inj i hi j hj (ofPoly_inj hα (alphaTable_sym i hi) (alphaTable_sym j hj) h)

end Field

/-! ## The field with 32 elements -/

section GaloisField

open Polynomial

/-- `pp` divides the polynomial whose roots are all 32 elements. -/
theorem pp_dvd : (X ^ 5 + X ^ 2 + 1 : (ZMod 2)[X]) ∣ X ^ 2 ^ 5 - X := by
  have h2 : (2 : (ZMod 2)[X]) = 0 := CharTwo.two_eq_zero
  refine ⟨X + X ^ 3 + X ^ 5 + X ^ 6 + X ^ 7 + X ^ 9 + X ^ 10 + X ^ 14 + X ^ 15 + X ^ 16 + X ^ 17 + X ^ 18 + X ^ 21 +
    X ^ 22 + X ^ 24 + X ^ 27, ?_⟩
  linear_combination -(X + X ^ 3 + X ^ 5 + X ^ 6 + X ^ 7 + X ^ 8 + X ^ 9 + X ^ 10 + X ^ 11 + X ^ 12 + X ^ 14 +
    X ^ 15 + X ^ 16 + X ^ 17 + X ^ 18 + X ^ 19 + X ^ 20 + X ^ 21 + X ^ 22 + X ^ 23 + X ^ 24 + X ^ 26 + X ^ 27 +
    X ^ 29) * h2

theorem exists_alpha : ∃ α : GaloisField 2 5, α ^ 5 = α ^ 2 + 1 := by
  have hsplits : Splits ((X ^ 2 ^ 5 - X : (ZMod 2)[X]).map (algebraMap (ZMod 2) (GaloisField 2 5))) :=
    SplittingField.splits _
  have hne : (X ^ 2 ^ 5 - X : (ZMod 2)[X]).map (algebraMap (ZMod 2) (GaloisField 2 5)) ≠ 0 := by
    rw [Polynomial.map_sub, Polynomial.map_pow, map_X]
    exact FiniteField.X_pow_card_pow_sub_X_ne_zero _ (by decide) (by decide)
  have hdeg : ((X ^ 5 + X ^ 2 + 1 : (ZMod 2)[X]).map (algebraMap (ZMod 2) (GaloisField 2 5))).degree ≠ 0 := by
    have h5 : (X ^ 5 + X ^ 2 + 1 : (ZMod 2)[X]).degree = 5 := by compute_degree!
    rw [degree_map, h5]
    decide
  obtain ⟨α, hα⟩ := (hsplits.of_dvd hne (Polynomial.map_dvd _ pp_dvd)).exists_eval_eq_zero hdeg
  have h2 : (2 : GaloisField 2 5) = 0 := CharTwo.two_eq_zero
  refine ⟨α, ?_⟩
  rw [Polynomial.map_add, Polynomial.map_add, Polynomial.map_pow, Polynomial.map_pow, Polynomial.map_one, map_X,
    eval_add, eval_add, eval_pow, eval_pow, eval_X, eval_one] at hα
  linear_combination hα - (α ^ 2 + 1) * h2

/-- The primitive element `α` of the tables. -/
noncomputable def alpha : GaloisField 2 5 := exists_alpha.choose

theorem alpha_root : alpha ^ 5 = alpha ^ 2 + 1 := exists_alpha.choose_spec

end GaloisField

end ReedSolomon

end Undertone
