import Mathlib.Algebra.Polynomial.Eval.Defs
import Mathlib.Algebra.Polynomial.Coeff
import Mathlib.Algebra.Polynomial.BigOperators
import Undertone.ReedSolomon.Field

/-!
# What the constructor leaves in the tables

`alpha_to` and `index_of` hold the powers and the logarithms of `α` (`tables_new`), whatever memory the arrays were
allocated in; products of powers and quotients are therefore sums of table entries modulo 31 (`Tables.exp_spec`,
`Tables.log_spec`). `gg` holds, in index form, the polynomial with the roots `α, ..., α^8` (`generator_new`).
-/

namespace Undertone

open CountedLoop Polynomial

namespace ReedSolomon

/-- The discrete logarithm tables are complete. -/
structure Tables (rs : ReedSolomon) : Prop where
  alpha : ∀ i < nn, rs.alpha_to i = alphaTable i
  index : ∀ i < nn, rs.index_of (alphaTable i).toNat = i
  index_zero : rs.index_of 0 = -1

/-! ## The two generating loops -/

theorem galoisLow_spec (a ix : ℕ → ℤ) :
    (galoisLow (1, Function.update a mm 0, ix)).1 = 32 ∧
      (∀ k < 5, (galoisLow (1, Function.update a mm 0, ix)).2.1 k = alphaTable k) ∧
      (galoisLow (1, Function.update a mm 0, ix)).2.1 5 = 5 ∧
      ∀ k < 5, (galoisLow (1, Function.update a mm 0, ix)).2.2 (alphaTable k).toNat = k := by
  unfold galoisLow
  -- the partial sum of the taps of `pp` below `i`
  have h := forUp_rule (a := 0) (b := mm) (s := (1, Function.update a mm 0, ix))
    (f := fun i (st : ℤ × (ℕ → ℤ) × (ℕ → ℤ)) =>
      (st.1 * 2,
        (if pp i ≠ 0 then Function.update (Function.update st.2.1 i st.1) mm
            (Int.xor (Function.update st.2.1 i st.1 mm) st.1) else Function.update st.2.1 i st.1),
        Function.update st.2.2 (Function.update st.2.1 i st.1 i).toNat (i : ℤ)))
    (fun i st => st.1 = 2 ^ i ∧ (∀ k < i, st.2.1 k = alphaTable k) ∧
      st.2.1 5 = (if i = 0 then 0 else if i ≤ 2 then 1 else 5) ∧ ∀ k < i, st.2.2 (alphaTable k).toNat = k)
    (by simp) (by simp) ?_
  · exact ⟨by simpa using h.1, h.2.1, by simpa using h.2.2.1, h.2.2.2⟩
  · rintro i ⟨mask, b, jx⟩ - hi ⟨hm, hb, h5, hj⟩
    simp only [mm_eq] at hi
    simp only at hm hb h5 hj
    subst hm
    have hcases : i = 0 ∨ i = 1 ∨ i = 2 ∨ i = 3 ∨ i = 4 := by omega
    refine ⟨by simp [pow_succ], fun k hk => ?_, ?_, fun k hk => ?_⟩
    · have hne : k ≠ 5 := by omega
      by_cases hki : k = i
      · subst hki
        rcases hcases with rfl | rfl | rfl | rfl | rfl <;> simp [pp] <;> decide
      · have := hb k (by omega)
        split <;> simp [hne, hki, this]
    · rcases hcases with rfl | rfl | rfl | rfl | rfl <;> simp [pp, h5] <;> decide
    · by_cases hki : k = i
      · subst hki
        have key : ∀ k < 5, (alphaTable k).toNat = (2 ^ k : ℤ).toNat := by decide
        rw [key k hi]
        simp
      · have hne : (alphaTable k).toNat ≠ (2 ^ i : ℤ).toNat := by
          have key : ∀ i < 5, ∀ k < i, (alphaTable k).toNat ≠ (2 ^ i : ℤ).toNat := by decide
          exact key i hi k (by omega)
        simp only [Function.update_self]
        rw [Function.update_of_ne hne]
        exact hj k (by omega)

theorem galoisHigh_spec {a ix : ℕ → ℤ} (ha : ∀ k < 6, a k = alphaTable k)
    (hix : ∀ k < 6, ix (alphaTable k).toNat = k) :
    (∀ k < 31, (galoisHigh 16 (a, ix)).1 k = alphaTable k) ∧
      ∀ k < 31, (galoisHigh 16 (a, ix)).2 (alphaTable k).toNat = k := by
  unfold galoisHigh
  refine forUp_rule (P := fun i (st : (ℕ → ℤ) × (ℕ → ℤ)) =>
    (∀ k < i, st.1 k = alphaTable k) ∧ ∀ k < i, st.2 (alphaTable k).toNat = k) (by simp) ⟨ha, hix⟩ ?_
  rintro i ⟨b, jx⟩ hl hu ⟨hb, hj⟩
  simp only [mm_eq] at hl hu
  simp only at hb hj
  have hnext : galoisNext 16 (b 5) (b (i - 1)) = alphaTable i := by
    rw [hb 5 (by omega), hb (i - 1) (by omega)]
    obtain ⟨n, rfl⟩ : ∃ n, i = n + 1 := ⟨i - 1, by omega⟩
    rfl
  simp only [mm_eq, hnext, Function.update_self]
  refine ⟨fun k hk => ?_, fun k hk => ?_⟩
  · by_cases hki : k = i
    · simp [hki]
    · rw [Function.update_of_ne hki]
      exact hb k (by omega)
  · by_cases hki : k = i
    · simp [hki]
    · have hne : (alphaTable k).toNat ≠ (alphaTable i).toNat := by
        intro h
        have h1 := (alphaTable_sym k (by omega)).1
        have h2 := (alphaTable_sym i hu).1
        exact hki (alphaTable_inj k (by omega) i hu (by omega))
      rw [Function.update_of_ne hne]
      exact hj k (by omega)

theorem tables_generate (rs : ReedSolomon) : Tables (GenerateGaloisField rs) := by
  obtain ⟨h1, h2, h3, h4⟩ := galoisLow_spec rs.alpha_to rs.index_of
  unfold GenerateGaloisField
  generalize galoisLow (1, Function.update rs.alpha_to mm 0, rs.index_of) = st at *
  obtain ⟨mask, a, ix⟩ := st
  simp only at h1 h2 h3 h4
  subst h1
  have ha : ∀ k < 6, a k = alphaTable k := by
    intro k hk
    rcases Nat.lt_or_eq_of_le (Nat.le_of_lt_succ hk) with h | rfl
    · exact h2 k h
    · rw [h3]; decide
  have hix : ∀ k < 6, Function.update ix (a mm).toNat (mm : ℤ) (alphaTable k).toNat = k := by
    intro k hk
    rcases Nat.lt_or_eq_of_le (Nat.le_of_lt_succ hk) with h | rfl
    · have hne : (alphaTable k).toNat ≠ (a mm).toNat := by
        rw [mm_eq, h3]
        have key : ∀ k < 5, (alphaTable k).toNat ≠ (5 : ℤ).toNat := by decide
        exact key k h
      rw [Function.update_of_ne hne]
      exact h4 k h
    · rw [mm_eq, h3]
      have : (alphaTable 5).toNat = (5 : ℤ).toNat := by decide
      rw [this]
      simp
  have h := galoisHigh_spec ha hix
  have h16 : (32 : ℤ) / 2 = 16 := by decide
  simp only [h16]
  generalize galoisHigh 16 (a, Function.update ix (a mm).toNat (mm : ℤ)) = st at *
  obtain ⟨b, jx⟩ := st
  refine ⟨h.1, fun k hk => ?_, by simp⟩
  have hne : (alphaTable k).toNat ≠ 0 := by
    have h1 := alphaTable_sym k hk
    have h2 := alphaTable_ne_zero k hk
    have := h1.1
    omega
  simp only
  rw [Function.update_of_ne hne]
  exact h.2 k hk

/-! ## Arithmetic by tables -/

section Arithmetic

variable {rs : ReedSolomon}

theorem Tables.alpha_sym (ht : Tables rs) {e : ℤ} (h0 : 0 ≤ e) (h1 : e < 31) : Sym (rs.alpha_to e.toNat) := by
  rw [ht.alpha _ (by simp; omega)]
  exact alphaTable_sym _ (by omega)

theorem Tables.exp_sym (ht : Tables rs) {e : ℤ} (h0 : 0 ≤ e) : Sym (rs.exp e) := by
  have h1 : e.tmod nn = e % 31 := by simpa using Int.tmod_eq_emod_of_nonneg h0
  rw [exp, h1]
  exact ht.alpha_sym (by omega) (by omega)

/-- The zero symbol, and no other, has logarithm `-1`. -/
theorem Tables.log_zero (ht : Tables rs) : rs.log 0 = -1 := ht.index_zero

theorem Tables.log_alphaTable (ht : Tables rs) {i : ℕ} (hi : i < 31) : rs.log (alphaTable i) = i := ht.index i hi

theorem Tables.log_idx (ht : Tables rs) {x : ℤ} (hx : Sym x) : Idx (rs.log x) := by
  by_cases h : x = 0
  · rw [h, ht.log_zero]; decide
  · obtain ⟨i, hi, rfl⟩ := alphaTable_surj hx h
    rw [ht.log_alphaTable hi]
    exact ⟨by omega, by omega⟩

theorem Tables.log_eq_neg_one (ht : Tables rs) {x : ℤ} (hx : Sym x) : rs.log x = -1 ↔ x = 0 := by
  refine ⟨fun h => ?_, fun h => by rw [h, ht.log_zero]⟩
  by_contra h0
  obtain ⟨i, hi, rfl⟩ := alphaTable_surj hx h0
  rw [ht.log_alphaTable hi] at h
  omega

theorem Tables.log_nonneg (ht : Tables rs) {x : ℤ} (hx : Sym x) (h0 : x ≠ 0) : 0 ≤ rs.log x := by
  obtain ⟨i, hi, rfl⟩ := alphaTable_surj hx h0
  rw [ht.log_alphaTable hi]
  omega

/-- Back from index form to polynomial form. -/
theorem Tables.alpha_to_log (ht : Tables rs) {x : ℤ} (hx : Sym x) (h0 : x ≠ 0) :
    rs.alpha_to (rs.log x).toNat = x := by
  obtain ⟨i, hi, rfl⟩ := alphaTable_surj hx h0
  rw [ht.log_alphaTable hi, Int.toNat_natCast, ht.alpha i hi]

variable {K : Type*} [Field K] [CharP K 2] {α : K} (hα : α ^ 5 = α ^ 2 + 1)

include hα

theorem Tables.alpha_spec (ht : Tables rs) {e : ℤ} (h0 : 0 ≤ e) (h1 : e < 31) :
    ofPoly α (rs.alpha_to e.toNat) = ofIndex α e := by
  rw [ht.alpha _ (by simp; omega), ofPoly_alphaTable hα _ (by omega), ofIndex_of_nonneg h0]

/-- Reducing the exponent modulo 31 does not change the power. -/
theorem Tables.exp_spec (ht : Tables rs) {e : ℤ} (h0 : 0 ≤ e) : ofPoly α (rs.exp e) = α ^ e.toNat := by
  have h1 : e.tmod nn = e % 31 := by simpa using Int.tmod_eq_emod_of_nonneg h0
  rw [exp, h1, ht.alpha_spec hα (by omega) (by omega), ofIndex_of_nonneg (by omega)]
  have h2 : (e % 31).toNat = e.toNat % 31 := by omega
  rw [h2, alpha_pow_mod hα]

/-- The sum of two logarithms is the logarithm of the product. -/
theorem Tables.exp_add (ht : Tables rs) {e f : ℤ} (he : 0 ≤ e) (hf : 0 ≤ f) :
    ofPoly α (rs.exp (e + f)) = ofIndex α e * ofIndex α f := by
  rw [ht.exp_spec hα (by omega), ofIndex_of_nonneg he, ofIndex_of_nonneg hf, Int.toNat_add he hf, pow_add]

theorem Tables.log_spec (ht : Tables rs) {x : ℤ} (hx : Sym x) : ofIndex α (rs.log x) = ofPoly α x := by
  by_cases h : x = 0
  · rw [h, ht.log_zero]; simp
  · obtain ⟨i, hi, rfl⟩ := alphaTable_surj hx h
    rw [ht.log_alphaTable hi, ofPoly_alphaTable hα i hi, ofIndex_of_nonneg (by omega), Int.toNat_natCast]

/-- The product of a symbol in index form and one in polynomial form, through the tables. -/
theorem Tables.exp_mul (ht : Tables rs) {e x : ℤ} (he : Idx e) (hx : Sym x) (h0 : x ≠ 0)
    (h1 : e ≠ -1) : Sym (rs.exp (e + rs.log x)) ∧ ofPoly α (rs.exp (e + rs.log x)) = ofIndex α e * ofPoly α x := by
  have hl := ht.log_nonneg hx h0
  have he0 : 0 ≤ e := by have := he.1; omega
  refine ⟨ht.exp_sym (by omega), ?_⟩
  rw [ht.exp_add hα he0 hl, ht.log_spec hα hx]

/-- A product added to a sum of symbols: the commonest loop body of the decoder. -/
theorem Tables.add_term (ht : Tables rs) {v e : ℤ} (hv : Sym v) (he : Idx e) (n : ℕ) :
    Sym (if e ≠ -1 then Int.xor v (rs.exp (e + n)) else v) ∧
      ofPoly α (if e ≠ -1 then Int.xor v (rs.exp (e + n)) else v) = ofPoly α v + ofIndex α e * α ^ n := by
  by_cases h : e = -1
  · rw [if_neg (not_not.2 h), h, ofIndex_neg_one, zero_mul, add_zero]
    exact ⟨hv, rfl⟩
  · have he0 : 0 ≤ e := by have := he.1; omega
    have hs := ht.exp_sym (e := e + n) (by omega)
    rw [if_pos h, ofPoly_xor hv hs, ht.exp_add hα he0 (by omega), ofIndex_of_nonneg (e := (n : ℤ)) (by omega),
      Int.toNat_natCast]
    exact ⟨hv.xor hs, rfl⟩

/-- A product with a quotient: `nn` is added to the exponent so that it stays positive. -/
theorem Tables.exp_div (ht : Tables rs) {a b e : ℤ} (ha : 0 ≤ a) (hb : Idx b) (hb0 : b ≠ -1) (he : 0 ≤ e) :
    Sym (rs.exp (a + nn - b + e)) ∧
      ofPoly α (rs.exp (a + nn - b + e)) = ofIndex α a / ofIndex α b * ofIndex α e := by
  obtain ⟨h1, h2⟩ := hb
  have hnn : (nn : ℤ) = 31 := rfl
  have hpos : 0 ≤ a + nn - b + e := by omega
  refine ⟨ht.exp_sym hpos, ?_⟩
  rw [ht.exp_spec hα hpos, ofIndex_of_nonneg ha, ofIndex_of_nonneg (show 0 ≤ b by omega), ofIndex_of_nonneg he,
    div_mul_eq_mul_div, eq_div_iff (pow_ne_zero _ (alpha_ne_zero hα)), ← pow_add, ← pow_add,
    show (a + nn - b + e).toNat + b.toNat = a.toNat + e.toNat + 31 by omega, pow_add _ _ 31, alpha_pow_31 hα, mul_one]

end Arithmetic

/-! ## The generator polynomial -/

section Generator

variable {K : Type*} [Field K] [CharP K 2] {α : K} (hα : α ^ 5 = α ^ 2 + 1)

/-- The polynomial with coefficients `c 0, ..., c n`. -/
noncomputable def toPoly (c : ℕ → K) (n : ℕ) : K[X] := ∑ j ∈ Finset.range (n + 1), C (c j) * X ^ j

/-- The polynomial with the roots `α^1, ..., α^n`. -/
noncomputable def rootPoly (α : K) (n : ℕ) : K[X] := ∏ i ∈ Finset.Ico 1 (n + 1), (X + C (α ^ i))

/-- The cells of `polyRound` read as coefficients: those of a monic `c` times `X + a`. -/
def mulCells (c : ℕ → K) (a : K) (n k : ℕ) : K :=
  if k = n + 1 then 1 else if k = 0 then c 0 * a else c (k - 1) + c k * a

omit [CharP K 2] in
theorem toPoly_mulCells (c : ℕ → K) (a : K) (n : ℕ) (hc : c n = 1) :
    toPoly (mulCells c a n) (n + 1) = toPoly c n * (X + C a) := by
  have hsum : ∑ j ∈ Finset.range n, C (mulCells c a n (j + 1)) * X ^ (j + 1) =
      ∑ j ∈ Finset.range n, (C (c j) * X ^ (j + 1) + C (c (j + 1)) * C a * X ^ (j + 1)) := by
    refine Finset.sum_congr rfl fun j hj => ?_
    have := Finset.mem_range.1 hj
    rw [mulCells, if_neg (by omega), if_neg (by omega), Nat.add_sub_cancel, C_add, C_mul, add_mul]
  have h1 : toPoly c n * X = ∑ j ∈ Finset.range n, C (c j) * X ^ (j + 1) + X ^ (n + 1) := by
    rw [toPoly, Finset.sum_mul, Finset.sum_range_succ, hc]
    simp [pow_succ, mul_assoc]
  have h2 : toPoly c n * C a = ∑ j ∈ Finset.range n, C (c (j + 1)) * C a * X ^ (j + 1) + C (c 0) * C a := by
    have hsum : ∑ j ∈ Finset.range n, C (c (j + 1)) * X ^ (j + 1) * C a =
        ∑ j ∈ Finset.range n, C (c (j + 1)) * C a * X ^ (j + 1) :=
      Finset.sum_congr rfl fun j _ => mul_right_comm _ _ _
    rw [toPoly, Finset.sum_mul, Finset.sum_range_succ', hsum, pow_zero, mul_one]
  have h3 : mulCells c a n 0 = c 0 * a := by simp [mulCells]
  have h4 : mulCells c a n (n + 1) = 1 := by simp [mulCells]
  rw [mul_add, h1, h2, toPoly, Finset.sum_range_succ', Finset.sum_range_succ, hsum, Finset.sum_add_distrib, h3, h4]
  simp only [C_1, one_mul, C_mul, pow_zero, mul_one]
  ring

/-- What one round of `GeneratePoly` leaves in cell `k`. -/
theorem polyRound_apply (rs : ReedSolomon) (n : ℕ) (gg : ℕ → ℤ) (k : ℕ) (hk : k ≤ n + 1) (hn : 1 ≤ n) :
    polyRound rs (n + 1) gg k =
      if k = n + 1 then 1 else if k = 0 then rs.exp (rs.log (gg 0) + (n + 1 : ℕ))
      else if gg k ≠ 0 then Int.xor (gg (k - 1)) (rs.exp (rs.log (gg k) + (n + 1 : ℕ))) else gg (k - 1) := by
  have hbody : (fun (j : ℕ) (gg : ℕ → ℤ) =>
      if gg j ≠ 0 then Function.update gg j (Int.xor (gg (j - 1)) (rs.exp (rs.log (gg j) + (n + 1 : ℕ))))
      else Function.update gg j (gg (j - 1))) = fun j gg => Function.update gg j
        (if gg j ≠ 0 then Int.xor (gg (j - 1)) (rs.exp (rs.log (gg j) + (n + 1 : ℕ))) else gg (j - 1)) := by
    funext j gg
    split <;> rfl
  unfold polyRound
  simp only [hbody]
  rw [forDown_shift (Nat.le_refl 1) (n + 1)
    (fun j p x => if x ≠ 0 then Int.xor p (rs.exp (rs.log x + (n + 1 : ℕ))) else p)]
  by_cases h0 : k = 0
  · subst h0
    simp
  · rw [Function.update_of_ne h0]
    by_cases h1 : k = n + 1
    · simp [h1]
    · have hm : k - 1 ≠ n + 1 := by omega
      simp [h0, h1, hm, show 1 ≤ k ∧ k < n + 1 by omega]

include hα

/-- Multiplication of a symbol by `α^i` through the tables. -/
theorem Tables.exp_log_add {rs : ReedSolomon} (ht : Tables rs) {x : ℤ} (hx : Sym x) (h0 : x ≠ 0) (i : ℕ) :
    Sym (rs.exp (rs.log x + i)) ∧ ofPoly α (rs.exp (rs.log x + i)) = ofPoly α x * α ^ i := by
  have hl := ht.log_nonneg hx h0
  refine ⟨ht.exp_sym (by omega), ?_⟩
  rw [ht.exp_add hα hl (by omega), ht.log_spec hα hx, ofIndex_of_nonneg (by omega), Int.toNat_natCast]

theorem polyRound_value {rs : ReedSolomon} (ht : Tables rs) {n : ℕ} (hn : 1 ≤ n) {gg : ℕ → ℤ}
    (hs : ∀ k < n + 1, Sym (gg k)) (h0 : gg 0 ≠ 0) (k : ℕ) (hk : k ≤ n + 1) :
    Sym (polyRound rs (n + 1) gg k) ∧
      ofPoly α (polyRound rs (n + 1) gg k) = mulCells (fun k => ofPoly α (gg k)) (α ^ (n + 1)) n k := by
  rw [polyRound_apply rs n gg k hk hn, mulCells]
  by_cases hk1 : k = n + 1
  · simp [hk1]
  by_cases hk0 : k = 0
  · subst hk0
    rw [if_neg hk1, if_pos rfl, if_neg hk1, if_pos rfl]
    exact ht.exp_log_add hα (hs 0 (by omega)) h0 (n + 1)
  · rw [if_neg hk1, if_neg hk0, if_neg hk1, if_neg hk0]
    have hp := hs (k - 1) (by omega)
    have hx := hs k (by omega)
    by_cases hx0 : gg k = 0
    · simp [hx0, hp]
    · obtain ⟨hm1, hm2⟩ := ht.exp_log_add hα hx hx0 (n + 1)
      rw [if_pos hx0]
      exact ⟨hp.xor hm1, by rw [ofPoly_xor hp hm1, hm2]⟩

/-- One round of `GeneratePoly`: the coefficients in `gg`, in polynomial form, before and after. -/
theorem polyRound_spec {rs : ReedSolomon} (ht : Tables rs) {n : ℕ} (hn : 1 ≤ n) {gg : ℕ → ℤ}
    (hs : ∀ k < n + 1, Sym (gg k)) (h0 : gg 0 ≠ 0) (h1 : gg n = 1) :
    (∀ k < n + 2, Sym (polyRound rs (n + 1) gg k)) ∧ polyRound rs (n + 1) gg 0 ≠ 0 ∧
      polyRound rs (n + 1) gg (n + 1) = 1 ∧
      toPoly (fun k => ofPoly α (polyRound rs (n + 1) gg k)) (n + 1) =
        toPoly (fun k => ofPoly α (gg k)) n * (X + C (α ^ (n + 1))) := by
  have hval := polyRound_value hα ht hn hs h0
  refine ⟨fun k hk => (hval k (by omega)).1, fun h => ?_, ?_, ?_⟩
  · have h2 := (hval 0 (by omega)).2
    rw [h, ofPoly_zero, mulCells, if_neg (by omega), if_pos rfl] at h2
    rcases mul_eq_zero.1 h2.symm with h3 | h3
    · exact h0 (ofPoly_eq_zero hα (hs 0 (by omega)) h3)
    · exact pow_ne_zero _ (alpha_ne_zero hα) h3
  · rw [polyRound_apply rs n gg _ (by omega) hn, if_pos rfl]
  · rw [← toPoly_mulCells _ _ _ (by simp [h1])]
    refine Finset.sum_congr rfl fun k hk => ?_
    have := Finset.mem_range.1 hk
    simp only [(hval k (by omega)).2]

/-- `gg` in index form holds the polynomial with the roots `α, ..., α^8`. -/
theorem generator_generate {rs : ReedSolomon} (ht : Tables rs) :
    (∀ i ≤ 8, Idx ((GeneratePoly rs).gg i)) ∧
      toPoly (fun i => ofIndex α ((GeneratePoly rs).gg i)) 8 = rootPoly α 8 := by
  have h := forUp_rule (a := 2) (b := nn - kk + 1) (f := polyRound rs)
    (s := Function.update (Function.update rs.gg 0 2) 1 1)
    (fun i gg => (∀ k < i, Sym (gg k)) ∧ gg 0 ≠ 0 ∧ gg (i - 1) = 1 ∧
      toPoly (fun k => ofPoly α (gg k)) (i - 1) = rootPoly α (i - 1))
    (by simp) ?_ ?_
  · simp only [nn_eq, kk_eq] at h
    obtain ⟨hs, -, -, hp⟩ := h
    have hgg : ∀ i ≤ 8, (GeneratePoly rs).gg i =
        rs.log (forUp 2 9 (polyRound rs) (Function.update (Function.update rs.gg 0 2) 1 1) i) := by
      intro i hi
      simp only [GeneratePoly, nn_eq, kk_eq, forUp_map 0 _ (fun _ x => rs.log x)]
      rw [if_pos (by omega)]
    refine ⟨fun i hi => by rw [hgg i hi]; exact ht.log_idx (hs i (by omega)), ?_⟩
    rw [← hp]
    refine Finset.sum_congr rfl fun i hi => ?_
    have := Finset.mem_range.1 hi
    simp only [hgg i (by omega), ht.log_spec hα (hs i (by omega))]
  · have h2 : ofPoly α 2 = α := by
      have := ofPoly_double (α := α) (x := 1) (by omega) (by omega)
      simpa using this
    refine ⟨fun k hk => ?_, by simp, by simp, ?_⟩
    · rcases (show k = 0 ∨ k = 1 by omega) with rfl | rfl
      · simp; decide
      · simp
    · simp [toPoly, rootPoly, Finset.sum_range_succ, h2]
      ring
  · rintro i gg hl - ⟨hs, h0, h1, hp⟩
    obtain ⟨n, rfl⟩ : ∃ n, i = n + 1 := ⟨i - 1, by omega⟩
    simp only [Nat.add_sub_cancel] at h1 hp ⊢
    obtain ⟨g1, g2, g3, g4⟩ := polyRound_spec hα ht (by omega) hs h0 h1
    refine ⟨g1, g2, g3, ?_⟩
    rw [g4, hp, rootPoly, rootPoly, Finset.prod_Ico_succ_top (show 1 ≤ n + 1 by omega)]

end Generator

/-! ## Constructed codecs -/

/-- The three tables are those that the constructor computed, on whatever memory. -/
def Constructed (rs : ReedSolomon) : Prop :=
  ∃ mem, rs.alpha_to = (new mem).alpha_to ∧ rs.index_of = (new mem).index_of ∧ rs.gg = (new mem).gg

theorem constructed_new (mem : ReedSolomon) : Constructed (new mem) := ⟨mem, rfl, rfl, rfl⟩

theorem tables_new (mem : ReedSolomon) : Tables (new mem) := by
  have h := tables_generate { mem with msg_len := 12 }
  unfold new GeneratePoly
  exact ⟨h.alpha, h.index, h.index_zero⟩

theorem Constructed.tables {rs : ReedSolomon} (h : Constructed rs) : Tables rs := by
  obtain ⟨mem, h1, h2, -⟩ := h
  have ht := tables_new mem
  exact ⟨by rw [h1]; exact ht.alpha, by rw [h2]; exact ht.index, by rw [h2]; exact ht.index_zero⟩

theorem Constructed.generator {K : Type*} [Field K] [CharP K 2] {α : K} (hα : α ^ 5 = α ^ 2 + 1) {rs : ReedSolomon}
    (h : Constructed rs) :
    (∀ i ≤ 8, Idx (rs.gg i)) ∧ toPoly (fun i => ofIndex α (rs.gg i)) 8 = rootPoly α 8 := by
  obtain ⟨mem, -, -, h3⟩ := h
  rw [h3]
  exact generator_generate hα (tables_generate _)

end ReedSolomon

end Undertone
