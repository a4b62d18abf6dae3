import Undertone.ReedSolomon.Tables

/-!
# The encoder

One round of the feedback shift register multiplies the parity cells by `X` and reduces by the generator
(`shiftRegister_poly`); over the whole message this makes the code word, parity in the low cells and data above them,
a multiple of the generator (`encode_spec`), so it vanishes at `α, ..., α^8` (`encode_root`).
-/

namespace Undertone

open CountedLoop Polynomial

namespace ReedSolomon

/-! ## One round -/

/-- What one round leaves in parity cell `k`. -/
theorem shiftRegister_apply (rs : ReedSolomon) (i : ℕ) (bb : ℕ → ℤ) {k : ℕ} (hk : k < 8) :
    shiftRegister rs i bb k =
      if rs.log (Int.xor (rs.data i) (bb 7)) ≠ -1 then
        if k = 0 then rs.exp (rs.gg 0 + rs.log (Int.xor (rs.data i) (bb 7)))
        else if rs.gg k ≠ -1 then
          Int.xor (bb (k - 1)) (rs.exp (rs.gg k + rs.log (Int.xor (rs.data i) (bb 7))))
        else bb (k - 1)
      else if k = 0 then 0 else bb (k - 1) := by
  have hbody : (fun (j : ℕ) (b : ℕ → ℤ) =>
      if rs.gg j ≠ -1 then
        Function.update b j (Int.xor (b (j - 1)) (rs.exp (rs.gg j + rs.log (Int.xor (rs.data i) (bb 7)))))
      else Function.update b j (b (j - 1))) = fun j b => Function.update b j
        (if rs.gg j ≠ -1 then Int.xor (b (j - 1)) (rs.exp (rs.gg j + rs.log (Int.xor (rs.data i) (bb 7))))
          else b (j - 1)) := by
    funext j b
    split <;> rfl
  unfold shiftRegister
  simp only [show nn - kk = 8 from rfl, show 8 - 1 = 7 from rfl, hbody]
  rw [forDown_shift (Nat.le_refl 1) 8
      (fun j p _ => if rs.gg j ≠ -1 then Int.xor p (rs.exp (rs.gg j + rs.log (Int.xor (rs.data i) (bb 7)))) else p),
    forDown_shift (Nat.le_refl 1) 8 (fun _ p _ => p)]
  by_cases h0 : k = 0
  · subst h0
    split <;> simp
  · have h1 : 1 ≤ k ∧ k < 8 := ⟨by omega, hk⟩
    split <;> simp [h0, h1]

section Encode

variable {K : Type*} [Field K] [CharP K 2] {α : K} (hα : α ^ 5 = α ^ 2 + 1)

include hα

theorem shiftRegister_value {rs : ReedSolomon} (ht : Tables rs) (hg : ∀ k < 8, Idx (rs.gg k)) (hg0 : rs.gg 0 ≠ -1)
    {i : ℕ} (hd : Sym (rs.data i)) {bb : ℕ → ℤ} (hb : ∀ k < 8, Sym (bb k)) {k : ℕ} (hk : k < 8) :
    Sym (shiftRegister rs i bb k) ∧
      ofPoly α (shiftRegister rs i bb k) = (if k = 0 then 0 else ofPoly α (bb (k - 1))) +
        ofIndex α (rs.gg k) * (ofPoly α (rs.data i) + ofPoly α (bb 7)) := by
  have hx := hd.xor (hb 7 (by omega))
  rw [shiftRegister_apply rs i bb hk, ← ofPoly_xor hd (hb 7 (by omega))]
  generalize Int.xor (rs.data i) (bb 7) = x at hx ⊢
  by_cases hx0 : x = 0
  · have hl : ¬ rs.log x ≠ -1 := fun h => h ((ht.log_eq_neg_one hx).2 hx0)
    rw [if_neg hl, hx0, ofPoly_zero, mul_zero, add_zero]
    by_cases h0 : k = 0
    · simp [h0]
    · rw [if_neg h0, if_neg h0]
      exact ⟨hb (k - 1) (by omega), rfl⟩
  · have hl : rs.log x ≠ -1 := fun h => hx0 ((ht.log_eq_neg_one hx).1 h)
    rw [if_pos hl]
    by_cases h0 : k = 0
    · obtain ⟨h1, h2⟩ := ht.exp_mul hα (hg 0 (by omega)) hx hx0 hg0
      subst h0
      rw [if_pos rfl, if_pos rfl, zero_add]
      exact ⟨h1, h2⟩
    · rw [if_neg h0, if_neg h0]
      have hp := hb (k - 1) (by omega)
      by_cases hgk : rs.gg k = -1
      · rw [if_neg (not_not.2 hgk), hgk, ofIndex_neg_one, zero_mul, add_zero]
        exact ⟨hp, rfl⟩
      · obtain ⟨h1, h2⟩ := ht.exp_mul hα (hg k hk) hx hx0 hgk
        rw [if_pos hgk, ofPoly_xor hp h1, h2]
        exact ⟨hp.xor h1, rfl⟩

end Encode

/-! ## The code word -/

section Poly

variable {K : Type*} [Field K]

theorem toPoly_succ (c : ℕ → K) (n : ℕ) : toPoly c (n + 1) = toPoly c n + C (c (n + 1)) * X ^ (n + 1) :=
  Finset.sum_range_succ _ _

theorem toPoly_congr {c e : ℕ → K} {n : ℕ} (h : ∀ k ≤ n, c k = e k) : toPoly c n = toPoly e n :=
  Finset.sum_congr rfl fun k hk => by rw [h k (Nat.le_of_lt_succ (Finset.mem_range.1 hk))]

theorem eval_toPoly (c : ℕ → K) (n : ℕ) (x : K) : (toPoly c n).eval x = ∑ j ∈ Finset.range (n + 1), c j * x ^ j := by
  simp [toPoly, eval_finsetSum]

/-- Coefficients moved up by one, plus `F` times those of `g`: what leaves at the top stands on the left. -/
theorem toPoly_shift (c g : ℕ → K) (F : K) (n : ℕ) :
    toPoly (fun k => (if k = 0 then 0 else c (k - 1)) + g k * F) n + C (c n + g (n + 1) * F) * X ^ (n + 1) =
      X * toPoly c n + C F * toPoly g (n + 1) := by
  have h1 : X * toPoly c n = ∑ k ∈ Finset.range (n + 2), C (if k = 0 then 0 else c (k - 1)) * X ^ k := by
    rw [Finset.sum_range_succ', toPoly, Finset.mul_sum]
    simp only [if_pos, C_0, zero_mul, add_zero]
    refine Finset.sum_congr rfl fun k _ => ?_
    rw [if_neg (by omega), Nat.add_sub_cancel, pow_succ']
    exact mul_left_comm _ _ _
  have h2 : C F * toPoly g (n + 1) = ∑ k ∈ Finset.range (n + 2), C (g k * F) * X ^ k := by
    rw [toPoly, Finset.mul_sum]
    refine Finset.sum_congr rfl fun k _ => ?_
    rw [C_mul, ← mul_assoc, mul_comm (C F)]
  have h3 : c n + g (n + 1) * F = (fun k => (if k = 0 then 0 else c (k - 1)) + g k * F) (n + 1) := by simp
  rw [h1, h2, h3, ← toPoly_succ, toPoly, ← Finset.sum_add_distrib]
  exact Finset.sum_congr rfl fun k _ => by rw [C_add, add_mul]

theorem monic_rootPoly (α : K) (n : ℕ) : (rootPoly α n).Monic := monic_prod_of_monic _ _ fun _ _ => monic_X_add_C _

theorem natDegree_rootPoly (α : K) (n : ℕ) : (rootPoly α n).natDegree = n := by
  rw [rootPoly, natDegree_prod_of_monic _ _ fun i _ => monic_X_add_C _]
  simp only [natDegree_X_add_C, Finset.sum_const, Nat.card_Ico, smul_eq_mul, mul_one, Nat.add_sub_cancel]

/-- The generator is monic of degree 8. -/
theorem coeff_rootPoly_top (α : K) (n : ℕ) : (rootPoly α n).coeff n = 1 := by
  have hm := monic_rootPoly α n
  rw [Monic, leadingCoeff, natDegree_rootPoly] at hm
  exact hm

theorem coeff_toPoly (c : ℕ → K) {n k : ℕ} (hk : k ≤ n) : (toPoly c n).coeff k = c k := by
  simp only [toPoly, finsetSum_coeff, coeff_C_mul_X_pow]
  rw [Finset.sum_eq_single k]
  · rw [if_pos rfl]
  · intro j _ hj
    rw [if_neg (Ne.symm hj)]
  · exact fun h => absurd (Finset.mem_range.2 (Nat.lt_succ_of_le hk)) h

end Poly

section Encode

variable {K : Type*} [Field K] [CharP K 2] {α : K} (hα : α ^ 5 = α ^ 2 + 1)

include hα

/-- The lowest coefficient of the generator does not vanish and the highest is one. -/
theorem Constructed.gg_ends {rs : ReedSolomon} (h : Constructed rs) : rs.gg 0 ≠ -1 ∧ ofIndex α (rs.gg 8) = 1 := by
  obtain ⟨-, hp⟩ := h.generator hα
  refine ⟨fun h0 => ?_, ?_⟩
  · have he : (toPoly (fun i => ofIndex α (rs.gg i)) 8).coeff 0 = 0 := by
      rw [coeff_toPoly _ (by omega), h0, ofIndex_neg_one]
    rw [hp, coeff_zero_eq_eval_zero, rootPoly, eval_prod, Finset.prod_eq_zero_iff] at he
    obtain ⟨i, -, hi⟩ := he
    rw [eval_add, eval_X, eval_C, zero_add] at hi
    exact pow_ne_zero _ (alpha_ne_zero hα) hi
  · have he := coeff_toPoly (fun i => ofIndex α (rs.gg i)) (Nat.le_refl 8)
    rw [hp, coeff_rootPoly_top] at he
    exact he.symm

/-- One round multiplies the parity cells by `X` and subtracts a multiple of the generator. -/
theorem shiftRegister_poly {rs : ReedSolomon} (h : Constructed rs) {i : ℕ} (hd : Sym (rs.data i)) {bb : ℕ → ℤ}
    (hb : ∀ k < 8, Sym (bb k)) :
    toPoly (fun k => ofPoly α (shiftRegister rs i bb k)) 7 + C (ofPoly α (rs.data i)) * X ^ 8 =
      X * toPoly (fun k => ofPoly α (bb k)) 7 + C (ofPoly α (rs.data i) + ofPoly α (bb 7)) * rootPoly α 8 := by
  obtain ⟨hg, hp⟩ := h.generator hα
  obtain ⟨hg0, hg8⟩ := h.gg_ends hα
  rw [← hp, ← toPoly_shift]
  rw [toPoly_congr fun k hk =>
    (shiftRegister_value hα h.tables (fun k hk => hg k (by omega)) hg0 hd hb (k := k) (by omega)).2]
  have hF : ofPoly α (bb 7) + ofIndex α (rs.gg (7 + 1)) * (ofPoly α (rs.data i) + ofPoly α (bb 7)) =
      ofPoly α (rs.data i) := by
    rw [show rs.gg (7 + 1) = rs.gg 8 from rfl, hg8, one_mul, add_comm (ofPoly α (rs.data i)), ← add_assoc,
      CharTwo.add_self_eq_zero, zero_add]
  rw [hF]

/-- The data from cell `j` upwards, as a polynomial. -/
noncomputable def dataPoly (α : K) (rs : ReedSolomon) (j : ℕ) : K[X] :=
  ∑ i ∈ Finset.Ico j kk, C (ofPoly α (rs.data i)) * X ^ (i - j)

omit [CharP K 2] hα in
theorem dataPoly_succ (α : K) (rs : ReedSolomon) {j : ℕ} (hj : j < kk) :
    dataPoly α rs j = C (ofPoly α (rs.data j)) + X * dataPoly α rs (j + 1) := by
  rw [dataPoly, dataPoly, Finset.sum_eq_sum_Ico_succ_bot hj, Nat.sub_self, pow_zero, mul_one, Finset.mul_sum]
  refine congrArg _ (Finset.sum_congr rfl fun i hi => ?_)
  have := Finset.mem_Ico.1 hi
  rw [mul_left_comm, ← pow_succ', show i - (j + 1) + 1 = i - j by omega]

/-- The code word is a multiple of the generator. -/
theorem encode_spec {rs : ReedSolomon} (h : Constructed rs) (hd : ∀ i < kk, Sym (rs.data i)) :
    (∀ k < 8, Sym ((Encode rs).bb k)) ∧
      rootPoly α 8 ∣ dataPoly α rs 0 * X ^ 8 + toPoly (fun k => ofPoly α ((Encode rs).bb k)) 7 := by
  refine forDown_rule (P := fun j (bb : ℕ → ℤ) => (∀ k < 8, Sym (bb k)) ∧
    rootPoly α 8 ∣ dataPoly α rs j * X ^ 8 + toPoly (fun k => ofPoly α (bb k)) 7) (Nat.zero_le kk) ?_ ?_
  · have hz : ∀ k < 8, forUp 0 (nn - kk) (fun i bb => Function.update bb i 0) rs.bb k = 0 := fun k hk => by
      rw [forUp_fill 0 _ (fun _ => (0 : ℤ))]
      exact if_pos ⟨Nat.zero_le k, hk⟩
    refine ⟨fun k hk => by rw [hz k hk]; exact sym_zero, ?_⟩
    have h1 : dataPoly α rs kk = 0 := by simp [dataPoly]
    have h2 : toPoly (fun k => ofPoly α (forUp 0 (nn - kk) (fun i bb => Function.update bb i 0) rs.bb k)) 7 = 0 := by
      rw [toPoly_congr (e := fun _ => 0) fun k hk => by rw [hz k (by omega), ofPoly_zero]]
      simp [toPoly]
    rw [h1, h2, zero_mul, zero_add]
    exact dvd_zero _
  · rintro j bb - hj ⟨hb, hdvd⟩
    obtain ⟨hg, -⟩ := h.generator hα
    refine ⟨fun k hk =>
      (shiftRegister_value hα h.tables (fun k hk => hg k (by omega)) (h.gg_ends hα).1 (hd j hj) hb hk).1, ?_⟩
    obtain ⟨Q, hQ⟩ := hdvd
    refine ⟨X * Q + C (ofPoly α (rs.data j) + ofPoly α (bb 7)), ?_⟩
    have hround := shiftRegister_poly hα h (hd j hj) hb
    rw [dataPoly_succ α rs hj]
    linear_combination hround + X * hQ

/-- The code word has the roots `α, ..., α^8`. -/
theorem encode_root {rs : ReedSolomon} (h : Constructed rs) (hd : ∀ i < kk, Sym (rs.data i)) {m : ℕ} (h1 : 1 ≤ m)
    (h8 : m ≤ 8) :
    ∑ i ∈ Finset.range kk, ofPoly α (rs.data i) * (α ^ m) ^ (8 + i) +
      ∑ k ∈ Finset.range 8, ofPoly α ((Encode rs).bb k) * (α ^ m) ^ k = 0 := by
  obtain ⟨Q, hQ⟩ := (encode_spec hα h hd).2
  have hroot : (rootPoly α 8).eval (α ^ m) = 0 := by
    rw [rootPoly, eval_prod]
    refine Finset.prod_eq_zero (Finset.mem_Ico.2 ⟨h1, by omega⟩) ?_
    rw [eval_add, eval_X, eval_C, CharTwo.add_self_eq_zero]
  have he := congrArg (eval (α ^ m)) hQ
  rw [eval_mul, hroot, zero_mul, eval_add, eval_mul, eval_pow, eval_X, eval_toPoly, dataPoly, eval_finsetSum,
    Finset.sum_mul, ← Finset.range_eq_Ico] at he
  rw [← he]
  refine congrArg (· + _) (Finset.sum_congr rfl fun i _ => ?_)
  rw [eval_mul, eval_C, eval_pow, eval_X, Nat.sub_zero, pow_add]
  ring

end Encode

end ReedSolomon

end Undertone
