import Mathlib.Algebra.Polynomial.BigOperators
import Mathlib.Algebra.Polynomial.Eval.Degree
import Mathlib.LinearAlgebra.Lagrange
import Undertone.Lib.Recurrence

/-!
# Error locators and evaluators

A sequence of weighted power sums `y k * a k ^ n` over a finite set of distinct non-zero numbers `a k`. Its shortest
recurrence is the polynomial whose roots are the inverses of the `a k`: a row that is no longer and generates
enough terms is that polynomial (`generates_locator`, `row_eq_locator`). The weights are the values of the evaluator
polynomial at these roots, up to the product of the other factors (`eval_evaluator`).
-/

namespace Locator

open Finset Polynomial Recurrence

variable {K ι : Type*} [Field K]

/-- The weighted power sums. -/
def powerSum (E : Finset ι) (a y : ι → K) (n : ℕ) : K := ∑ k ∈ E, y k * a k ^ n

noncomputable def locator (E : Finset ι) (a : ι → K) : K[X] := ∏ k ∈ E, (1 - C (a k) * X)

/-- The polynomial of a row. -/
noncomputable def rowPoly (c : ℕ → K) (l : ℕ) : K[X] := ∑ i ∈ range (l + 1), C (c i) * X ^ i

/-! ## The locator -/

section Locator

variable {E : Finset ι} {a y : ι → K}

theorem eval_locator (E : Finset ι) (a : ι → K) (x : K) : (locator E a).eval x = ∏ k ∈ E, (1 - a k * x) := by
  rw [locator, eval_prod]
  exact prod_congr rfl fun k _ => by simp

theorem eval_locator_inv {k : ι} (hk : k ∈ E) (ha : a k ≠ 0) : (locator E a).eval (a k)⁻¹ = 0 := by
  rw [eval_locator]
  exact prod_eq_zero hk (by rw [mul_inv_cancel₀ ha, sub_self])

theorem coeff_locator_zero (E : Finset ι) (a : ι → K) : (locator E a).coeff 0 = 1 := by
  rw [coeff_zero_eq_eval_zero, eval_locator]
  simp

theorem natDegree_factor {x : K} (hx : x ≠ 0) : (1 - C x * X : K[X]).natDegree = 1 := by
  have h : (1 - C x * X : K[X]) = C (-x) * X + C 1 := by simp only [C_neg, C_1]; ring
  rw [h]
  exact natDegree_linear (neg_ne_zero.2 hx)

theorem natDegree_locator (ha : ∀ k ∈ E, a k ≠ 0) : (locator E a).natDegree = E.card := by
  have hne : ∀ k ∈ E, (1 - C (a k) * X : K[X]) ≠ 0 := fun k hk h => by
    have := natDegree_factor (ha k hk)
    rw [h, natDegree_zero] at this
    omega
  rw [locator, natDegree_prod _ _ hne, sum_congr rfl fun k hk => natDegree_factor (ha k hk)]
  simp

theorem natDegree_locator_le (E : Finset ι) (a : ι → K) : (locator E a).natDegree ≤ E.card := by
  have hle : ∀ k, (1 - C (a k) * X : K[X]).natDegree ≤ 1 := fun k =>
    (natDegree_sub_le _ _).trans (max_le (by simp) ((natDegree_C_mul_le _ _).trans natDegree_X_le))
  calc (locator E a).natDegree ≤ ∑ k ∈ E, (1 - C (a k) * X : K[X]).natDegree := natDegree_prod_le _ _
    _ ≤ ∑ _k ∈ E, 1 := sum_le_sum fun k _ => hle k
    _ = E.card := by simp

end Locator

/-! ## Rows of the power sums -/

section Rows

variable {E : Finset ι} {a y : ι → K}

theorem eval_rowPoly (c : ℕ → K) (l : ℕ) (x : K) : (rowPoly c l).eval x = ∑ i ∈ range (l + 1), c i * x ^ i := by
  simp [rowPoly, eval_finsetSum]

theorem coeff_rowPoly (c : ℕ → K) {l i : ℕ} (hi : i ≤ l) : (rowPoly c l).coeff i = c i := by
  simp only [rowPoly, finsetSum_coeff, coeff_C_mul_X_pow]
  rw [sum_eq_single i]
  · rw [if_pos rfl]
  · intro j _ hj
    rw [if_neg (Ne.symm hj)]
  · exact fun h => absurd (mem_range.2 (Nat.lt_succ_of_le hi)) h

theorem degree_rowPoly_lt (c : ℕ → K) (l : ℕ) : (rowPoly c l).degree < (l + 1 : ℕ) := by
  refine (degree_sum_le _ _).trans_lt ((Finset.sup_lt_iff (WithBot.bot_lt_coe _)).2 fun i hi => ?_)
  exact (degree_C_mul_X_pow_le _ _).trans_lt (by exact_mod_cast mem_range.1 hi)

/-- A row has no more roots than its length. -/
theorem card_le_of_roots {c : ℕ → K} (hhead : c 0 = 1) {l : ℕ} {s : Finset K}
    (h : ∀ x ∈ s, (rowPoly c l).eval x = 0) : s.card ≤ l := by
  have hne : rowPoly c l ≠ 0 := fun h0 => by
    have h1 := coeff_rowPoly c (Nat.zero_le l)
    rw [h0, coeff_zero, hhead] at h1
    exact zero_ne_one h1
  have hdegree : (rowPoly c l).natDegree ≤ l := natDegree_le_of_degree_le (Order.le_of_lt_succ (degree_rowPoly_lt c l))
  exact (card_le_degree_of_subset_roots fun x hx => (mem_roots hne).2 (h x hx)).trans hdegree

/-- The discrepancy of a row on power sums, by the values of its polynomial. -/
theorem disc_powerSum (ha : ∀ k ∈ E, a k ≠ 0) (c : ℕ → K) {l n : ℕ} (hn : l ≤ n) :
    disc c l (powerSum E a y) n = ∑ k ∈ E, y k * a k ^ n * (rowPoly c l).eval (a k)⁻¹ := by
  simp only [disc, powerSum, mul_sum, eval_rowPoly]
  rw [sum_comm]
  refine sum_congr rfl fun k hk => sum_congr rfl fun i hi => ?_
  have hin : i ≤ n := (Nat.le_of_lt_succ (mem_range.1 hi)).trans hn
  rw [pow_sub₀ _ (ha k hk) hin, inv_pow]
  ring

/-- Weights of distinct numbers are determined by as many power sums. -/
theorem weights_eq_zero (hinj : Set.InjOn a E) {w : ι → K} (h : ∀ m < E.card, ∑ k ∈ E, w k * a k ^ m = 0) {k : ι}
    (hk : k ∈ E) : w k = 0 := by
  classical
  let Q : K[X] := ∏ j ∈ E.erase k, (X - C (a j))
  have hdeg : Q.natDegree < E.card := by
    rw [natDegree_prod_of_monic _ _ fun j _ => monic_X_sub_C _]
    simp only [natDegree_X_sub_C, sum_const, smul_eq_mul, mul_one, card_erase_of_mem hk]
    have := card_pos.2 ⟨k, hk⟩
    omega
  have hsum : ∑ j ∈ E, w j * Q.eval (a j) = 0 := by
    calc ∑ j ∈ E, w j * Q.eval (a j)
        = ∑ j ∈ E, ∑ m ∈ range E.card, Q.coeff m * (w j * a j ^ m) := by
          refine sum_congr rfl fun j _ => ?_
          rw [eval_eq_sum_range' hdeg, mul_sum]
          exact sum_congr rfl fun m _ => by ring
      _ = ∑ m ∈ range E.card, Q.coeff m * ∑ j ∈ E, w j * a j ^ m := by
          rw [sum_comm]
          exact sum_congr rfl fun m _ => by rw [mul_sum]
      _ = 0 := sum_eq_zero fun m hm => by rw [h m (mem_range.1 hm), mul_zero]
  have hother : ∀ j ∈ E, j ≠ k → w j * Q.eval (a j) = 0 := fun j hj hjk => by
    have h0 : Q.eval (a j) = 0 := by
      rw [eval_prod]
      exact prod_eq_zero (mem_erase.2 ⟨hjk, hj⟩) (by simp)
    rw [h0, mul_zero]
  rw [sum_eq_single k hother fun h => absurd hk h] at hsum
  refine (mul_eq_zero.1 hsum).resolve_right ?_
  rw [eval_prod]
  refine prod_ne_zero_iff.2 fun j hj => ?_
  obtain ⟨hjk, hjE⟩ := mem_erase.1 hj
  rw [eval_sub, eval_X, eval_C, sub_ne_zero]
  exact fun he => hjk (hinj hjE hk he.symm)

/-- Values at distinct numbers that are not zero are determined by as many power sums. -/
theorem values_eq_zero (ha : ∀ k ∈ E, a k ≠ 0) (hinj : Set.InjOn a E)
    (h : ∀ m, 1 ≤ m → m ≤ E.card → powerSum E a y m = 0) {k : ι} (hk : k ∈ E) : y k = 0 := by
  have hw := weights_eq_zero hinj (w := fun k => y k * a k) (fun m hm => ?_) hk
  · exact (mul_eq_zero.1 hw).resolve_right (ha k hk)
  · rw [← h (m + 1) (by omega) (by omega)]
    exact sum_congr rfl fun k _ => by rw [pow_succ', mul_assoc]

/-- The locator is the row of the power sums, of length `E.card`, at every prefix. -/
theorem generates_locator (ha : ∀ k ∈ E, a k ≠ 0) (u : ℕ) :
    Generates (locator E a).coeff E.card (powerSum E a y) u where
  head := coeff_locator_zero E a
  zero n hl _ := by
    rw [disc_powerSum ha _ hl.le]
    refine sum_eq_zero fun k hk => ?_
    have h : (rowPoly (locator E a).coeff E.card).eval (a k)⁻¹ = (locator E a).eval (a k)⁻¹ := by
      rw [eval_rowPoly, eval_eq_sum_range' (Nat.lt_succ_of_le (natDegree_locator_le E a))]
    rw [h, eval_locator_inv hk (ha k hk), mul_zero]

/-- A row that is no longer than the locator and has its roots is the locator. -/
theorem row_eq_of_roots (ha : ∀ k ∈ E, a k ≠ 0) (hinj : Set.InjOn a E) {c : ℕ → K} {l : ℕ} (hhead : c 0 = 1)
    (hl : l ≤ E.card) (hroot : ∀ k ∈ E, (rowPoly c l).eval (a k)⁻¹ = 0) : rowPoly c l = locator E a := by
  classical
  have hcard : (insert 0 (E.image fun k => (a k)⁻¹)).card = E.card + 1 := by
    rw [card_insert_of_notMem, card_image_of_injOn]
    · exact fun j hj k hk h => hinj hj hk (inv_injective h)
    · intro h
      obtain ⟨k, hk, h0⟩ := mem_image.1 h
      exact ha k hk (inv_eq_zero.1 h0)
  refine eq_of_degrees_lt_of_eval_finset_eq (insert 0 (E.image fun k => (a k)⁻¹)) ?_ ?_ fun x hx => ?_
  · rw [hcard]
    exact (degree_rowPoly_lt c l).trans_le (by exact_mod_cast Nat.succ_le_succ hl)
  · rw [hcard]
    exact degree_le_natDegree.trans_lt (by exact_mod_cast Nat.lt_succ_of_le (natDegree_locator_le E a))
  · rcases mem_insert.1 hx with rfl | hx
    · rw [← coeff_zero_eq_eval_zero, ← coeff_zero_eq_eval_zero, coeff_rowPoly c (Nat.zero_le l), hhead,
        coeff_locator_zero]
    · obtain ⟨k, hk, rfl⟩ := mem_image.1 hx
      rw [hroot k hk, eval_locator_inv hk (ha k hk)]

/-- A row that is no longer than the locator and generates `2 * E.card` terms is the locator. -/
theorem row_eq_locator (ha : ∀ k ∈ E, a k ≠ 0) (hinj : Set.InjOn a E) (hy : ∀ k ∈ E, y k ≠ 0) {c : ℕ → K} {l u : ℕ}
    (hg : Generates c l (powerSum E a y) u) (hl : l ≤ E.card) (hu : 2 * E.card < u) :
    rowPoly c l = locator E a ∧ l = E.card := by
  have hroot : ∀ k ∈ E, (rowPoly c l).eval (a k)⁻¹ = 0 := fun k hk => by
    have h := weights_eq_zero hinj (w := fun k => y k * a k ^ (E.card + 1) * (rowPoly c l).eval (a k)⁻¹)
      (fun m hm => ?_) hk
    · exact (mul_eq_zero.1 h).resolve_left (mul_ne_zero (hy k hk) (pow_ne_zero _ (ha k hk)))
    · rw [← hg.zero (E.card + 1 + m) (by omega) (by omega), disc_powerSum ha _ (by omega)]
      exact sum_congr rfl fun j _ => by rw [pow_add]; ring
  have heq := row_eq_of_roots ha hinj hg.head hl hroot
  refine ⟨heq, ?_⟩
  have h : (rowPoly c l).natDegree ≤ l := natDegree_le_of_degree_le (Order.le_of_lt_succ (degree_rowPoly_lt c l))
  rw [heq, natDegree_locator ha] at h
  omega

/-- Any `E.card` numbers are weighted sums of the powers of distinct numbers. -/
theorem exists_weights (hinj : Set.InjOn a E) (t : ℕ → K) :
    ∃ w : ι → K, ∀ m < E.card, ∑ k ∈ E, w k * a k ^ m = t m := by
  classical
  have hbasis : ∀ m < E.card, ∀ j, ∑ k ∈ E, (Lagrange.basis E a k).coeff j * a k ^ m = if j = m then 1 else 0 := by
    intro m hm j
    have hX : (X ^ m : K[X]) = Lagrange.interpolate E a fun k => (X ^ m : K[X]).eval (a k) := by
      apply Lagrange.eq_interpolate hinj
      rw [degree_X_pow]
      exact_mod_cast hm
    have hj := congrArg (Polynomial.coeff · j) hX
    simp only [coeff_X_pow, Lagrange.interpolate_apply, eval_pow, eval_X, finsetSum_coeff, coeff_C_mul] at hj
    rw [hj]
    exact sum_congr rfl fun k _ => mul_comm _ _
  refine ⟨fun k => ∑ j ∈ range E.card, t j * (Lagrange.basis E a k).coeff j, fun m hm => ?_⟩
  calc ∑ k ∈ E, (∑ j ∈ range E.card, t j * (Lagrange.basis E a k).coeff j) * a k ^ m
      = ∑ j ∈ range E.card, t j * ∑ k ∈ E, (Lagrange.basis E a k).coeff j * a k ^ m := by
        simp only [sum_mul, mul_sum]
        rw [sum_comm]
        exact sum_congr rfl fun j _ => sum_congr rfl fun k _ => mul_assoc _ _ _
    _ = ∑ j ∈ range E.card, t j * if j = m then 1 else 0 := sum_congr rfl fun j _ => by rw [hbasis m hm j]
    _ = t m := by simp [hm]

/-- A sequence whose row is a locator is one of power sums, as far as the row generates it. -/
theorem exists_powerSum (ha : ∀ k ∈ E, a k ≠ 0) (hinj : Set.InjOn a E) {c : ℕ → K} {l u : ℕ} {s : ℕ → K}
    (hg : Generates c l s u) (hrow : rowPoly c l = locator E a) (hl : l = E.card) :
    ∃ y : ι → K, ∀ n, 1 ≤ n → n < u → s n = powerSum E a y n := by
  obtain ⟨w, hw⟩ := exists_weights hinj fun m => s (m + 1)
  refine ⟨fun k => w k * (a k)⁻¹, hg.determined (t := powerSum E a fun k => w k * (a k)⁻¹) ?_ fun n h1 hn => ?_⟩
  · subst hl
    refine (generates_locator ha u).congr fun i hi => ?_
    rw [← hrow, coeff_rowPoly c hi]
  · obtain ⟨m, rfl⟩ : ∃ m, n = m + 1 := ⟨n - 1, by omega⟩
    rw [← hw m (by omega), powerSum]
    refine sum_congr rfl fun k hk => ?_
    rw [pow_succ', mul_assoc, inv_mul_cancel_left₀ (ha k hk)]

end Rows

/-! ## The evaluator -/

section Evaluator

variable [DecidableEq ι] {E : Finset ι} {a y : ι → K}

noncomputable def evaluator (E : Finset ι) (a y : ι → K) : K[X] :=
  locator E a + ∑ k ∈ E, C (y k * a k) * X * locator (E.erase k) a

/-- One factor of the locator taken out. -/
theorem locator_erase {k : ι} (hk : k ∈ E) : locator E a = (1 - C (a k) * X) * locator (E.erase k) a :=
  (mul_prod_erase E _ hk).symm

/-- Division by `1 - x X`, coefficient by coefficient. -/
theorem sum_pow_mul_coeff (x : K) (M : K[X]) (i : ℕ) :
    ∑ j ∈ range (i + 1), x ^ j * ((1 - C x * X) * M).coeff (i - j) = M.coeff i := by
  induction i with
  | zero => simp [sub_mul, mul_assoc]
  | succ i ih =>
    have hc : ((1 - C x * X) * M).coeff (i + 1) = M.coeff (i + 1) - x * M.coeff i := by
      rw [sub_mul, one_mul, coeff_sub, mul_assoc, coeff_C_mul, coeff_X_mul]
    have hstep : ∀ j ∈ range (i + 1), x ^ (j + 1) * ((1 - C x * X) * M).coeff (i + 1 - (j + 1)) =
        x * (x ^ j * ((1 - C x * X) * M).coeff (i - j)) := fun j _ => by
      rw [Nat.add_sub_add_right, pow_succ']
      ring
    rw [sum_range_succ', sum_congr rfl hstep, ← mul_sum, ih, pow_zero, Nat.sub_zero, one_mul, hc]
    ring

theorem coeff_evaluator_zero (E : Finset ι) (a y : ι → K) : (evaluator E a y).coeff 0 = 1 := by
  rw [evaluator, coeff_add, coeff_locator_zero, finsetSum_coeff, sum_eq_zero, add_zero]
  exact fun k _ => by rw [mul_assoc, coeff_C_mul, coeff_X_mul_zero, mul_zero]

/-- The evaluator is the product of the locator and the power sums, cut off at `X ^ E.card`. -/
theorem coeff_evaluator (i : ℕ) :
    (evaluator E a y).coeff (i + 1) =
      (locator E a).coeff (i + 1) + ∑ j ∈ range (i + 1), powerSum E a y (j + 1) * (locator E a).coeff (i - j) := by
  have hk : ∀ k ∈ E, (C (y k * a k) * X * locator (E.erase k) a).coeff (i + 1) =
      ∑ j ∈ range (i + 1), y k * a k ^ (j + 1) * (locator E a).coeff (i - j) := fun k hk => by
    rw [mul_assoc, coeff_C_mul, coeff_X_mul, ← sum_pow_mul_coeff (a k), ← locator_erase hk, mul_sum]
    exact sum_congr rfl fun j _ => by rw [pow_succ]; ring
  rw [evaluator, coeff_add, finsetSum_coeff, sum_congr rfl hk, sum_comm]
  simp only [powerSum, sum_mul]

theorem natDegree_evaluator_le (E : Finset ι) (a y : ι → K) : (evaluator E a y).natDegree ≤ E.card := by
  refine (natDegree_add_le _ _).trans (max_le (natDegree_locator_le E a) (natDegree_sum_le_of_forall_le _ _ ?_))
  intro k hk
  have h1 : (C (y k * a k) * X : K[X]).natDegree ≤ 1 := (natDegree_C_mul_le _ _).trans natDegree_X_le
  have h2 := natDegree_locator_le (E.erase k) a
  have h3 := card_pos.2 ⟨k, hk⟩
  rw [card_erase_of_mem hk] at h2
  exact natDegree_mul_le.trans (by omega)

theorem eval_evaluator_eq_sum (x : K) :
    (evaluator E a y).eval x = 1 + ∑ i ∈ range E.card, (evaluator E a y).coeff (i + 1) * x ^ (i + 1) := by
  rw [eval_eq_sum_range' (Nat.lt_succ_of_le (natDegree_evaluator_le E a y)), sum_range_succ', coeff_evaluator_zero,
    pow_zero, mul_one, add_comm]

/-- The weight at a root, times the other factors of the locator. -/
theorem eval_evaluator {k : ι} (hk : k ∈ E) (ha : a k ≠ 0) :
    (evaluator E a y).eval (a k)⁻¹ = y k * ∏ j ∈ E.erase k, (1 - a j * (a k)⁻¹) := by
  rw [evaluator, eval_add, eval_locator_inv hk ha, zero_add, eval_finsetSum, sum_eq_single k]
  · rw [eval_mul, eval_mul, eval_C, eval_X, eval_locator, mul_assoc (y k), mul_inv_cancel₀ ha, mul_one]
  · intro j _ hjk
    rw [eval_mul, eval_locator_inv (mem_erase.2 ⟨Ne.symm hjk, hk⟩) ha, mul_zero]
  · exact fun h => absurd hk h

end Evaluator

end Locator
